import Fintrails.TrackerSteps

/-! What every `observe` guarantees, whatever it is fed: gaps, repeats and blocks that
link to nothing included. -/
namespace Fintrails
namespace Tracker

/-- What observing `block` leaves in a tracker, and what it reports. -/
structure Represents (confirmations window : ℕ) (t : Tracker) (block : BlockRef) : Prop where
  head : (observe t block).1.chain.getLast? = some block
  linked : Linked (observe t block).1.chain
  bounded : (observe t block).1.chain.length ≤ window
  reorged : (∃ below top, t.chain = below ++ [top] ++ (observe t block).2.reorged ∧
      Attaches block top) ∨
    ((∀ x ∈ t.chain, ¬Attaches block x) ∧ (observe t block).2.reorged = t.chain)
  reorged_linked : Linked (observe t block).2.reorged
  confirmed_linked : Linked (observe t block).2.confirmed
  /-- The chain before trimming: what was not reorged, and the block. -/
  untrimmed : ∃ kept, t.chain = kept ++ (observe t block).2.reorged ∧ Linked (kept ++ [block]) ∧
    (observe t block).1.chain <:+ kept ++ [block] ∧
    (observe t block).2.confirmed <:+: kept ++ [block] ∧
    ∀ b ∈ (observe t block).2.confirmed, ∃ below above,
      kept ++ [block] = below ++ b :: above ∧ confirmations ≤ above.length

theorem Sound.reorged_linked {t : Tracker} (h : t.Sound) (b : BlockRef) : Linked (t.orphaned b) :=
  Linked.append_right (l:=t.kept b) (by simpa [kept_append_orphaned] using h.linked)

theorem Sound.exists_above {t : Tracker} (h : t.Sound) {block b : BlockRef}
    (hb : b ∈ t.kept block ++ [block]) : ∃ below above,
      t.kept block ++ [block] = below ++ b :: above ∧ b.number+above.length = block.number := by
  obtain ⟨below,above,heq⟩ := List.append_of_mem hb
  refine ⟨below,above,heq,?_⟩
  have hl := h.linked_kept block
  have hnum := hl.base_concat
  have hlen := congrArg List.length heq
  have hfrom := hl.numbered
  rw [heq] at hfrom
  have hat := ((Numbered.from_append _ _ _).mp hfrom).2.1
  rw [← heq] at hat
  simp only [List.length_append,List.length_cons,List.length_nil] at hlen
  omega

theorem Sound.represents {t : Tracker} (h : t.Sound) (block : BlockRef)
    (hnum : block.number < 2^64-1) : Represents t.confirmations t.window t block := by
  have hwithin : (Tracker.observe t block).2.confirmed <:+: t.kept block ++ [block] := by
    rw [h.confirmed]
    exact (h.linked_kept block).numbered.slice_within _ _
  refine ⟨observe_head t block,(h.observe hnum).linked,observe_chain_length_le t block,?_,?_,
    ?_,t.kept block,?_,h.linked_kept block,?_,?_,?_⟩
  · rw [observe_reorged]
    rcases h.kept_cases block with ⟨top,_,ha,hlast,_⟩ | ⟨hnone,_,hall⟩
    · obtain ⟨below,hkept⟩ := List.getLast?_eq_some_iff.mp hlast
      exact .inl ⟨below,top,by rw [← hkept,kept_append_orphaned],ha⟩
    · exact .inr ⟨hnone,hall⟩
  · rw [observe_reorged]
    exact h.reorged_linked block
  · exact (h.linked_kept block).within hwithin
  · rw [observe_reorged,kept_append_orphaned]
  · rw [observe_chain]
    exact trim_suffix _ _
  · exact hwithin
  · intro b hb
    rw [h.confirmed] at hb
    obtain ⟨hmem,_,hdeep⟩ := Numbered.mem_slice.mp hb
    obtain ⟨below,above,heq,hlen⟩ := h.exists_above hmem
    exact ⟨below,above,heq,by omega⟩

/-- Whatever has been observed, so does the next block. -/
theorem observe_represents (confirmations window : ℕ) (h : confirmations < window)
    (blocks : List BlockRef) (block : BlockRef)
    (hnum : ∀ b ∈ blocks ++ [block], b.number < 2^64-1) :
    Represents confirmations window (Machine.final observe (fresh confirmations window h) blocks)
      block := by
  have hstep : ∀ (t : Tracker) b,
      (t.Sound ∧ t.confirmations = confirmations ∧ t.window = window) → b.number < 2^64-1 →
      (observe t b).1.Sound ∧ (observe t b).1.confirmations = confirmations ∧
        (observe t b).1.window = window :=
    fun _ _ ht hb => ⟨ht.1.observe hb,ht.2⟩
  obtain ⟨hsound,hc,hw⟩ := Machine.state_invariant hstep
    ⟨fresh_sound confirmations window h,rfl,rfl⟩
    (Machine.guarded_of_forall fun b hb _ => hnum b (List.mem_append_left _ hb))
  have hh := hsound.represents block (hnum block (by simp))
  rwa [hc,hw] at hh

theorem observe_represents_unlinked :
    Represents 1 3 (Machine.final observe (fresh 1 3 (by decide)) [block 4,block 7,block 8]) (block 8) :=
  observe_represents 1 3 (by decide) [block 4,block 7,block 8] (block 8) (by decide)

end Tracker
end Fintrails
