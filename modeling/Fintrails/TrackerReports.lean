import Fintrails.TrackerSteps

/-! What a tracker has reported over a whole run.  `reported` are the blocks whose
confirmation still stands, a reorg retracting every height it names.  The
tracker confirms each block of the branch it follows, once, as long as no block
it is fed starts a branch below a height that stays confirmed. -/
namespace Fintrails

def TrackerUpdate.batch (u : TrackerUpdate) : Standing.Batch BlockRef :=
  ⟨u.reorged.map BlockRef.number,u.confirmed⟩

/-- The blocks reported as confirmed at heights no reorg has named since. -/
def reported (us : List TrackerUpdate) : List BlockRef :=
  Standing.standing BlockRef.number (us.map TrackerUpdate.batch)

theorem reported_concat (us : List TrackerUpdate) (u : TrackerUpdate) :
    reported (us++[u]) = (reported us).filter
      (fun x => decide (x.number ∉ u.reorged.map BlockRef.number)) ++ u.confirmed := by
  rw [reported,List.map_append,List.map_singleton,Standing.standing_concat]
  rfl

namespace Tracker

/-- `b` was reported as confirmed at or after the last time it was fed. -/
def ReportedSince (hist : List (BlockRef × TrackerUpdate)) (b : BlockRef) : Prop :=
  ∃ before u after, hist = before ++ (b,u)::after ∧ (∀ e ∈ after, e.1 ≠ b) ∧
    ∃ e ∈ (b,u)::after, b ∈ e.2.confirmed

/-- The feeding contract: a block extends the head, or belongs to a branch fed
from its fork point upwards.  A fork point that is not retained lies below the
retained blocks. -/
def Refeeds (t : Tracker) (b : BlockRef) : Prop :=
  t.chain = [] ∨ (∃ x ∈ t.chain, Attaches b x) ∨ b.number ≤ base t.chain

instance refeedsDecidable (t : Tracker) (b : BlockRef) : Decidable (t.Refeeds b) :=
  inferInstanceAs (Decidable (_ ∨ _ ∨ _))

/-- A block that attaches to nothing retained does not lie at a height that is both
confirmed and below every retained block. -/
def Recoverable (t : Tracker) (b : BlockRef) : Prop :=
  b.number < 2^64-1 ∧ ((∃ x ∈ t.chain, Attaches b x) ∨
    ∀ w ∈ t.confirmedHeight, w < b.number ∨ (t.chain ≠ [] ∧ base t.chain ≤ b.number))

instance recoverableDecidable (t : Tracker) (b : BlockRef) : Decidable (t.Recoverable b) :=
  inferInstanceAs (Decidable (_ ∧ (_ ∨ _)))

theorem frontier_le_iff (t : Tracker) (n : ℕ) :
    t.frontier ≤ n ↔ ∀ w ∈ t.confirmedHeight, w < n := by
  cases h : t.confirmedThrough with
  | none => simp [frontier,confirmedHeight,nextHeight,h]
  | some w =>
    simp only [frontier,confirmedHeight,nextHeight,h,Option.mem_def,Option.some.injEq,forall_eq']
    exact Nat.succ_le_iff

/-- What holds of a tracker and of everything it was fed and has answered. -/
structure Follows (hist : List (BlockRef × TrackerUpdate)) (t : Tracker) : Prop where
  sound : t.Sound
  idle : t.chain = [] → t.frontier = 0
  frontier_le : ∀ top ∈ t.head, t.frontier ≤ top.number+1
  le_frontier : ∀ top ∈ t.head, top.number+1 ≤ t.frontier+t.confirmations
  fed : ∀ b ∈ t.chain, b ∈ hist.map Prod.fst
  since : ∀ b ∈ t.chain, b.number < t.frontier → ReportedSince hist b
  below : ∀ b ∈ reported (hist.map Prod.snd), b.number < t.frontier
  once : ((reported (hist.map Prod.snd)).map BlockRef.number).Nodup

theorem Follows.pulled_le {hist : List (BlockRef × TrackerUpdate)} {t : Tracker}
    (h : Follows hist t) {b : BlockRef} (hb : t.Recoverable b) : t.pulled b ≤ b.number := by
  rcases h.sound.kept_cases b with ⟨top,htop,ha,_⟩ | ⟨hnone,_,horphaned⟩
  · exact h.sound.pulled_le_number h.frontier_le htop ha
  · rw [pulled_of_drained horphaned]
    split
    · rename_i hnil
      rw [h.idle hnil]
      exact Nat.zero_le _
    · rcases hb.2 with ⟨x,hx,ha⟩ | hlow
      · exact absurd ha (hnone x hx)
      · by_cases hle : base t.chain ≤ b.number
        · exact (min_le_right _ _).trans hle
        · refine (min_le_left _ _).trans ((frontier_le_iff _ _).mpr fun w hw => ?_)
          exact (hlow w hw).resolve_right fun hh => hle hh.2

theorem exists_last_fed {hist : List (BlockRef × TrackerUpdate)} {b : BlockRef}
    (h : b ∈ hist.map Prod.fst) :
    ∃ before u after, hist = before ++ (b,u)::after ∧ ∀ e ∈ after, e.1 ≠ b := by
  induction hist with
  | nil => simp at h
  | cons e hist ih =>
    by_cases htail : b ∈ hist.map Prod.fst
    · obtain ⟨before,u,after,rfl,hafter⟩ := ih htail
      exact ⟨e::before,u,after,rfl,hafter⟩
    · have he : b = e.1 := by simpa [htail] using h
      subst he
      exact ⟨[],e.2,hist,rfl,fun d hd hdb => htail (List.mem_map.mpr ⟨d,hd,hdb⟩)⟩

theorem ReportedSince.concat {hist : List (BlockRef × TrackerUpdate)} {b : BlockRef}
    (h : ReportedSince hist b) {e : BlockRef × TrackerUpdate} (hne : e.1 ≠ b) :
    ReportedSince (hist++[e]) b := by
  obtain ⟨before,u,after,rfl,hafter,d,hd,hb⟩ := h
  refine ⟨before,u,after++[e],by simp,?_,d,?_,hb⟩
  · intro c hc
    rcases List.mem_append.mp hc with hc | hc
    · exact hafter c hc
    · rw [List.mem_singleton.mp hc]
      exact hne
  · rw [← List.cons_append]
    exact List.mem_append_left _ hd

theorem reportedSince_newest {hist : List (BlockRef × TrackerUpdate)} {b : BlockRef}
    {e : BlockRef × TrackerUpdate} (hfed : b ∈ (hist++[e]).map Prod.fst)
    (hb : b ∈ e.2.confirmed) : ReportedSince (hist++[e]) b := by
  obtain ⟨before,u,after,heq,hafter⟩ := exists_last_fed hfed
  refine ⟨before,u,after,heq,hafter,e,?_,hb⟩
  have hlast : ((b,u)::after).getLast? = some e := by
    rw [← List.getLast?_append_of_ne_nil before (by simp),← heq]
    simp
  exact List.mem_of_getLast? hlast

/-- Of a branch that ends in the retained chain and stands up to the frontier, what a block leaves
in place still stands up to the frontier that it pulls back. -/
theorem filter_kept {t : Tracker} {lo : ℕ} {old : List BlockRef}
    (h : Numbered.From BlockRef.number lo (old ++ t.chain)) (b : BlockRef) :
    (Numbered.slice BlockRef.number 0 t.frontier (old ++ t.chain)).filter
        (fun x => decide (x.number ∉ (t.orphaned b).map BlockRef.number)) =
      Numbered.slice BlockRef.number 0 (t.pulled b) (old ++ t.kept b) := by
  rw [← t.kept_append_orphaned b,← List.append_assoc] at h ⊢
  rw [h.filter_slice 0 t.frontier]
  apply Numbered.slice_congr
  intro x hx
  rw [pulled_eq]
  cases ho : t.orphaned b with
  | nil => exact Iff.rfl
  | cons y l =>
    have hlow := h.lt_of_append hx (b:=y) (by simp [ho])
    simp only [List.head?_cons,Nat.lt_min]
    omega

theorem Follows.standing_lt {hist : List (BlockRef × TrackerUpdate)} {t : Tracker}
    (h : Follows hist t) {b x : BlockRef} (hx : x ∈ reported (hist.map Prod.snd))
    (hnot : x.number ∉ (t.orphaned b).map BlockRef.number) : x.number < t.pulled b := by
  have hlt := h.below x hx
  cases hchain : t.head with
  | none =>
    rw [h.idle (List.getLast?_eq_none_iff.mp hchain)] at hlt
    omega
  | some top => exact h.sound.lt_pulled hchain (h.frontier_le top hchain) hlt hnot

theorem Follows.since_observe {hist : List (BlockRef × TrackerUpdate)} {t : Tracker}
    (h : Follows hist t) {b x : BlockRef} (hpulled : t.pulled b ≤ b.number)
    (hmem : x ∈ t.kept b ++ [b]) (hlt : x.number < (Tracker.observe t b).1.frontier)
    (hfed : x ∈ (hist ++ [(b,(Tracker.observe t b).2)]).map Prod.fst) :
    ReportedSince (hist ++ [(b,(Tracker.observe t b).2)]) x := by
  have hfrontier := observe_frontier t b
  by_cases hold : x.number < t.pulled b
  · have hkept : x ∈ t.kept b := by
      rcases List.mem_append.mp hmem with hk | hk
      · exact hk
      · rw [List.mem_singleton.mp hk] at hold
        omega
    have hne : b ≠ x := by
      rintro rfl
      omega
    have hbefore := hold.trans_le (t.pulled_le_frontier b)
    exact (h.since x (Sound.mem_kept hkept) hbefore).concat hne
  · refine reportedSince_newest hfed ?_
    rw [h.sound.confirmed]
    exact Numbered.mem_slice.mpr ⟨hmem,by omega,by omega⟩

theorem Follows.once_observe {hist : List (BlockRef × TrackerUpdate)} {t : Tracker}
    (h : Follows hist t) (b : BlockRef) :
    ((reported ((hist ++ [(b,(Tracker.observe t b).2)]).map Prod.snd)).map
      BlockRef.number).Nodup := by
  rw [List.map_append,List.map_singleton,reported_concat,List.map_append,List.nodup_append]
  refine ⟨h.once.sublist (List.filter_sublist.map _),?_,?_⟩
  · rw [h.sound.confirmed,(h.sound.linked_kept b).numbered.from_slice.map_num]
    exact List.nodup_range'
  · intro m hold n hnew hmn
    obtain ⟨x,hx,hxm⟩ := List.mem_map.mp hold
    obtain ⟨y,hy,hyn⟩ := List.mem_map.mp hnew
    obtain ⟨hx,hnot⟩ := List.mem_filter.mp hx
    have hlt := h.standing_lt (b:=b) hx (by simpa using hnot)
    rw [h.sound.confirmed] at hy
    have hle := (Numbered.mem_slice.mp hy).2.1
    omega

/-- One observed block preserves the invariant. -/
theorem Follows.observe {hist : List (BlockRef × TrackerUpdate)} {t : Tracker}
    (h : Follows hist t) {b : BlockRef} (hb : t.Recoverable b) :
    Follows (hist ++ [(b,(Tracker.observe t b).2)]) (Tracker.observe t b).1 := by
  have hpulled := h.pulled_le hb
  have hfrontier := observe_frontier t b
  have hsub := trim_suffix t.window (t.kept b ++ [b])
  rw [← observe_chain] at hsub
  have hfed : ∀ x ∈ t.kept b ++ [b], x ∈ (hist ++ [(b,(Tracker.observe t b).2)]).map Prod.fst := by
    intro x hx
    rw [List.map_append]
    rcases List.mem_append.mp hx with hx | hx
    · exact List.mem_append_left _ (h.fed x (Sound.mem_kept hx))
    · exact List.mem_append_right _ (by simpa using hx)
  refine ⟨h.sound.observe hb.1,fun hnil => absurd hnil (observe_chain_ne_nil t b),?_,?_,
    fun x hx => hfed x (hsub.subset hx),?_,?_,h.once_observe b⟩
  · intro top htop
    rw [observe_head] at htop
    rw [← Option.some.inj htop]
    omega
  · intro top htop
    rw [observe_head] at htop
    rw [← Option.some.inj htop,observe_confirmations]
    omega
  · intro x hx hlt
    have hmem := hsub.subset hx
    exact h.since_observe hpulled hmem hlt (hfed x hmem)
  · intro x hx
    rw [List.map_append,List.map_singleton,reported_concat,h.sound.confirmed] at hx
    rcases List.mem_append.mp hx with hx | hx
    · obtain ⟨hx,hnot⟩ := List.mem_filter.mp hx
      have hlt := h.standing_lt (b:=b) hx (by simpa using hnot)
      omega
    · have hlt := (Numbered.mem_slice.mp hx).2
      omega

theorem fresh_follows (confirmations window : ℕ) (h : confirmations < window) :
    Follows [] (fresh confirmations window h) where
  sound := fresh_sound _ _ _
  idle := fun _ => rfl
  frontier_le := by simp [head]
  le_frontier := by simp [head]
  fed := by simp
  since := by simp
  below := by simp [reported]
  once := by simp [reported]

/-- Every retained block `confirmations` below the head has been reported since it
was fed, and no height is reported twice unless a reorg has named it in between. -/
def ConfirmsFollowed (hist : List (BlockRef × TrackerUpdate)) (t : Tracker) : Prop :=
  (∀ top ∈ t.head, ∀ b ∈ t.chain, b.number+t.confirmations ≤ top.number → ReportedSince hist b) ∧
    ((reported (hist.map Prod.snd)).map BlockRef.number).Nodup

/-- Every run whose blocks all meet the condition confirms the branch it follows. -/
theorem confirms_followed_branch (confirmations window : ℕ) (h : confirmations < window)
    (blocks : List BlockRef)
    (hrec : Machine.Guarded observe Recoverable (fresh confirmations window h) blocks) :
    ConfirmsFollowed (Machine.trace observe (fresh confirmations window h) blocks)
      (Machine.final observe (fresh confirmations window h) blocks) := by
  have hstep : ∀ hist t b, Follows hist t → t.Recoverable b →
      Follows (hist ++ [(b,(observe t b).2)]) (observe t b).1 :=
    fun _ _ _ hfollows hb => hfollows.observe hb
  have hf := Machine.trace_invariant hstep (fresh_follows confirmations window h) hrec
  rw [List.nil_append] at hf
  refine ⟨fun top htop b hb hle => hf.since b hb ?_,hf.once⟩
  have hlow := hf.le_frontier top htop
  omega

theorem confirms_followed_branch_reorged :
    ConfirmsFollowed (Machine.trace observe (fresh 1 3 (by decide))
        [block 0,block 1,block 2,alt 2 1,alt 3 (alt 2 1).hash])
      (Machine.final observe (fresh 1 3 (by decide))
        [block 0,block 1,block 2,alt 2 1,alt 3 (alt 2 1).hash]) :=
  confirms_followed_branch 1 3 (by decide) _ (by decide)

/-- A branch re-fed from below the window: the watermark stays above it, and its
blocks are never reported. -/
def deepBranch : List BlockRef :=
  (List.range 8).map block ++ [alt 3 (block 2).hash,alt 4 (alt 3 (block 2).hash).hash]

theorem deep_branch_unconfirmed :
    Machine.Guarded observe Refeeds (fresh 1 3 (by decide)) deepBranch ∧
      ¬ConfirmsFollowed (Machine.trace observe (fresh 1 3 (by decide)) deepBranch)
        (Machine.final observe (fresh 1 3 (by decide)) deepBranch) := by
  refine ⟨by decide,fun h => ?_⟩
  obtain ⟨before,u,after,heq,_,e,he,hmem⟩ := h.1 (alt 4 (alt 3 (block 2).hash).hash) (by decide)
    (alt 3 (block 2).hash) (by decide) (by decide)
  have hnone : ∀ e ∈ Machine.trace observe (fresh 1 3 (by decide)) deepBranch,
      alt 3 (block 2).hash ∉ e.2.confirmed := by decide
  exact hnone e (heq ▸ List.mem_append_right _ he) hmem

end Tracker
end Fintrails
