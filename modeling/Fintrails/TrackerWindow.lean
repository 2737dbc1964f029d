import Fintrails.TrackerSteps

/-! Two trackers that differ only in their windows, fed the same blocks.  As long
as every block attaches inside the smaller window they answer alike: the blocks
only the wider one still holds lie below the frontier, so that no confirmation
and no rollback can reach them. -/
namespace Fintrails
namespace Tracker

/-- Every block after the first attaches to a block the tracker still retains. -/
def ForksInside (t : Tracker) (b : BlockRef) : Prop :=
  b.number < 2^64-1 ∧ (t.chain = [] ∨ ∃ x ∈ t.chain, Attaches b x)

instance forksInsideDecidable (t : Tracker) (b : BlockRef) : Decidable (t.ForksInside b) :=
  inferInstanceAs (Decidable (_ ∧ _))

/-- `wide` holds the chain of `t` below some blocks that are already confirmed. -/
structure Widens (t wide : Tracker) : Prop where
  confirmations : wide.confirmations = t.confirmations
  window : t.window < wide.window
  watermark : wide.confirmedThrough = t.confirmedThrough
  sound : t.Sound
  wide_sound : wide.Sound
  extra : ∃ e, wide.chain = e ++ t.chain ∧ (∀ x ∈ e, x.number < t.frontier) ∧
    (t.chain = [] → e = [])

theorem kept_extend {t wide : Tracker} {b x : BlockRef} {e : List BlockRef}
    (hchain : wide.chain = e ++ t.chain) (hx : x ∈ t.chain) (ha : attaches b x = true) :
    wide.kept b = e ++ t.kept b := by
  have hne : t.chain.reverse.dropWhile (fun top => !attaches b top) ≠ [] := by
    intro he
    have hall := List.dropWhile_eq_nil_iff.mp he x (by simpa using hx)
    simp [ha] at hall
  simp only [kept,List.rdropWhile,hchain,List.reverse_append,List.dropWhile_append]
  simp [hne]

theorem orphaned_extend {t wide : Tracker} {b : BlockRef} {e : List BlockRef}
    (hchain : wide.chain = e ++ t.chain) (hkept : wide.kept b = e ++ t.kept b) :
    wide.orphaned b = t.orphaned b := by
  have hw := wide.kept_append_orphaned b
  rw [hchain,hkept,List.append_assoc,← t.kept_append_orphaned b] at hw
  exact List.append_cancel_left (List.append_cancel_left hw)

theorem Widens.extra_lt_pulled {t wide : Tracker} (h : Widens t wide) {b : BlockRef}
    {e : List BlockRef} (hchain : wide.chain = e ++ t.chain)
    (hfrontier : ∀ x ∈ e, x.number < t.frontier)
    (hfork : t.chain = [] ∨ ∃ x ∈ t.chain, Attaches b x) (hempty : t.chain = [] → e = []) :
    ∀ x ∈ e, x.number < t.pulled b := by
  intro x hx
  rcases hfork with hnil | ⟨top,htop,ha⟩
  · rw [hempty hnil] at hx
    cases hx
  rcases h.sound.kept_cases b with ⟨_,_,_,_,hfrom⟩ | ⟨hnone,_⟩
  · rw [pulled_of_attaches hfrom]
    have hlt : x.number < b.number := by
      have hn := h.wide_sound.linked.numbered
      rw [hchain] at hn
      have hlow := hn.lt_of_append hx htop
      have hnum := ha.1
      omega
    split
    · exact hfrontier x hx
    · exact lt_min (hfrontier x hx) hlt
  · exact absurd ha (hnone top htop)

theorem Widens.suffix_observe {t wide : Tracker} (h : Widens t wide) {b : BlockRef}
    {e : List BlockRef} (hkept : wide.kept b = e ++ t.kept b) :
    (Tracker.observe t b).1.chain <:+ (Tracker.observe wide b).1.chain := by
  have hshort : (Tracker.observe t b).1.chain <:+ wide.kept b ++ [b] := by
    rw [observe_chain,hkept,List.append_assoc]
    exact (trim_suffix _ _).trans (List.suffix_append _ _)
  have hlong : (Tracker.observe wide b).1.chain <:+ wide.kept b ++ [b] := by
    rw [observe_chain]
    exact trim_suffix _ _
  refine List.suffix_of_suffix_length_le hshort hlong ?_
  have hw := h.window
  rw [observe_chain,observe_chain,trim_eq_drop,trim_eq_drop,hkept]
  simp only [List.length_drop,List.length_append,List.length_singleton]
  omega

/-- One observed block: equal answers, and the relation is kept. -/
theorem Widens.observe {t wide : Tracker} (h : Widens t wide) {b : BlockRef}
    (hb : t.ForksInside b) :
    (Tracker.observe t b).2 = (Tracker.observe wide b).2 ∧
      Widens (Tracker.observe t b).1 (Tracker.observe wide b).1 := by
  obtain ⟨e,hchain,hfrontier,hempty⟩ := h.extra
  have hkept : wide.kept b = e ++ t.kept b := by
    rcases hb.2 with hnil | ⟨x,hx,ha⟩
    · simp [kept,hchain,hnil,hempty hnil]
    · exact kept_extend hchain hx ((attaches_iff (h.sound.below x hx)).mpr ha)
  have horphaned := orphaned_extend hchain hkept
  have hpulled : wide.pulled b = t.pulled b := by
    simp only [pulled,horphaned,h.watermark]
  have hbelow := h.extra_lt_pulled hchain hfrontier hb.2 hempty
  have hconfirmed : (Tracker.observe wide b).2.confirmed = (Tracker.observe t b).2.confirmed := by
    have hnil : Numbered.slice BlockRef.number (t.pulled b) (b.number+1-t.confirmations) e = [] := by
      apply Numbered.slice_eq_nil
      intro x hx hle
      have hlt := hbelow x hx
      omega
    rw [h.sound.confirmed,h.wide_sound.confirmed,hkept,hpulled,h.confirmations,List.append_assoc,
      Numbered.slice_append,hnil,List.nil_append]
  have hfrontier' : (Tracker.observe wide b).1.frontier = (Tracker.observe t b).1.frontier := by
    rw [observe_frontier,observe_frontier,hpulled,h.confirmations]
  refine ⟨?_,h.confirmations,h.window,nextHeight_injective hfrontier',h.sound.observe hb.1,
    h.wide_sound.observe hb.1,?_⟩
  · exact congrArg₂ TrackerUpdate.mk hconfirmed.symm (by
      rw [← observe_reorged,← observe_reorged] at horphaned
      exact horphaned.symm)
  · obtain ⟨e',he'⟩ := h.suffix_observe hkept
    refine ⟨e',he'.symm,?_,fun hnil => absurd hnil (observe_chain_ne_nil t b)⟩
    intro x hx
    have hmem : x ∈ wide.kept b ++ [b] := by
      apply (trim_suffix wide.window _).subset
      rw [← observe_chain,← he']
      exact List.mem_append_left _ hx
    have hout : x ∉ (Tracker.observe t b).1.chain := by
      intro hin
      have hn := (h.wide_sound.observe hb.1).linked.numbered
      rw [← he'] at hn
      exact (hn.lt_of_append hx hin).ne rfl
    rw [observe_frontier]
    rw [hkept,List.append_assoc] at hmem
    rcases List.mem_append.mp hmem with hx | hx
    · have hlt := hbelow x hx
      omega
    · have htrim := h.sound.trimmed_number hx hout
      have hw := t.window_exceeds
      omega

theorem fresh_widens {confirmations window window' : ℕ} (h : confirmations < window)
    (hw : window < window') :
    Widens (fresh confirmations window h) (fresh confirmations window' (h.trans hw)) where
  confirmations := rfl
  window := hw
  watermark := rfl
  sound := fresh_sound _ _ _
  wide_sound := fresh_sound _ _ _
  extra := ⟨[],rfl,by simp,fun _ => rfl⟩

/-- Trimming is unobservable for forks inside the window: two windows answer every
block alike, and the shorter chain is a suffix of the longer. -/
theorem window_unobservable (confirmations window window' : ℕ) (h : confirmations < window)
    (hw : window < window') (blocks : List BlockRef)
    (hforks : Machine.Guarded observe ForksInside (fresh confirmations window h) blocks) :
    let narrow := Machine.final observe (fresh confirmations window h) blocks
    let wide := Machine.final observe (fresh confirmations window' (h.trans hw)) blocks
    Machine.outputs observe (fresh confirmations window h) blocks =
        Machine.outputs observe (fresh confirmations window' (h.trans hw)) blocks ∧
      narrow.confirmedHeight = wide.confirmedHeight ∧ narrow.head = wide.head ∧
      narrow.chain <:+ wide.chain := by
  have hstep : ∀ t wide b, Widens t wide → t.ForksInside b →
      (observe t b).2 = (observe wide b).2 ∧ Widens (observe t b).1 (observe wide b).1 :=
    fun t wide b hR hb => hR.observe hb
  obtain ⟨houtputs,hwidens⟩ := Machine.simulation hstep (fresh_widens h hw) hforks
  obtain ⟨e,hchain,_,hempty⟩ := hwidens.extra
  refine ⟨houtputs,hwidens.watermark.symm,?_,e,hchain.symm⟩
  rw [head,head,hchain]
  by_cases hnil : (Machine.final observe (fresh confirmations window h) blocks).chain = []
  · rw [hempty hnil,hnil]
    rfl
  · rw [List.getLast?_append_of_ne_nil _ hnil]

theorem window_unobservable_forked :
    Machine.outputs observe (fresh 1 2 (by decide)) [block 0,block 1,block 2,alt 2 1,alt 3 (alt 2 1).hash] =
      Machine.outputs observe (fresh 1 4 (by decide)) [block 0,block 1,block 2,alt 2 1,alt 3 (alt 2 1).hash] :=
  (window_unobservable 1 2 4 (by decide) (by decide) _ (by decide)).1

end Tracker
end Fintrails
