import Fintrails.Progress
import Fintrails.RunLoop

/-! How often one polls does not matter.  A second poll of a node that has not moved does
nothing, and polls that follow a chain as it grows return, one list after the other, what
one poll at the end returns. -/
namespace Fintrails

structure Node.Behind (r s : Node) : Prop where
  chain : r.chain = s.chain
  events : r.events = s.events
  head_le : r.head ≤ s.head

theorem Node.Behind.messages {r s : Node} (h : r.Behind s) : r.messages = s.messages := by
  funext u
  simp only [Node.messages,Node.confirmedEvents,h.chain,h.events]

namespace Tracker

variable {startBlock : ℕ} {t : Tracker} {s r : Node} {c : Chain} {n : ℕ}

/-- The head is numbered `n` and has the hash of the canonical block there. -/
def Abreast (t : Tracker) (c : Chain) (n : ℕ) : Prop :=
  ∃ top, t.head = some top ∧ top.number = n ∧ top.hash = (c.block n).hash

theorem abreast_segment (t : Tracker) {first : ℕ} (hfirst : first ≤ n) (hn : n ≤ c.height) :
    (observeAll t (c.segment first n)).1.Abreast c n := by
  obtain ⟨l,hl⟩ := Chain.exists_segment_concat hfirst hn
  rw [hl]
  exact ⟨c.block n,observeAll_head t l _,c.number_block n hn,rfl⟩

theorem Abreast.extends_next (ha : t.Abreast c n) (hn : n < c.height) :
    t.Extends (c.block (n+1)) := by
  obtain ⟨top,htop,rfl,hhash⟩ := ha
  exact ⟨c.number_lt hn,top,htop,c.number_block _ hn,(c.linked _ hn).trans hhash.symm⟩

theorem Sound.fork_of_abreast (h : t.Sound) (ha : t.Abreast c n) (hn : n < c.height) :
    t.fork c (n+1) = n+1 := by
  obtain ⟨top,htop,rfl,hhash⟩ := ha
  have hat := h.blockAt_mem (List.mem_of_getLast? htop)
  simp [fork,hat,hhash,c.linked _ hn]

theorem Sound.plan_of_abreast (h : t.Sound) (ha : t.Abreast s.chain n) (hn : n ≤ s.head)
    (startBlock : ℕ) : t.plan s startBlock = s.chain.segment (n+1) s.head := by
  have hle := s.head_le
  obtain ⟨top,htop,hnum,hhash⟩ := id ha
  rcases Nat.lt_or_eq_of_le hn with hlt | rfl
  · have hfork := h.fork_of_abreast ha (hlt.trans_le hle)
    simp [plan,htop,hnum,hlt,hfork]
  · have hat := h.blockAt_mem (List.mem_of_getLast? htop)
    rw [hnum] at hat
    rw [Chain.segment_nil (by omega)]
    simp [plan,htop,hnum,hat,hhash]

theorem abreast_plan (t : Tracker) (s : Node) (startBlock : ℕ) :
    (observeAll t (t.plan s startBlock)).1.Abreast s.chain s.head ∨ t.plan s startBlock = [] := by
  have hle := s.head_le
  cases hhead : t.head with
  | none =>
    rw [plan_idle hhead]
    by_cases hstart : startBlock ≤ s.head
    · exact .inl (abreast_segment t hstart hle)
    · exact .inr (Chain.segment_nil (by omega))
  | some top =>
    rcases plan_cases hhead s startBlock with ⟨hplan,-⟩ | ⟨hplan,-⟩
    · exact .inr hplan
    · rw [hplan]
      exact .inl (abreast_segment t ((t.fork_le _ _).trans (walkFrom_le top s)) hle)

/-- The first block of `c` to be fed to a tracker that is not ahead of it. -/
def feedFrom (t : Tracker) (c : Chain) (startBlock : ℕ) : ℕ :=
  match t.head with
  | none => startBlock
  | some top =>
    if top.hash = (c.block top.number).hash then top.number+1 else t.fork c top.number

theorem Sound.plan_feedFrom (h : t.Sound) (hlow : ∀ top ∈ t.head, top.number ≤ s.head)
    (startBlock : ℕ) :
    t.plan s startBlock = s.chain.segment (t.feedFrom s.chain startBlock) s.head := by
  have hle := s.head_le
  cases hhead : t.head with
  | none => simp [plan,feedFrom,hhead]
  | some top =>
    have hnum := hlow top hhead
    have hat := h.blockAt_mem (List.mem_of_getLast? hhead)
    simp only [feedFrom,hhead]
    by_cases hhash : top.hash = (s.chain.block top.number).hash
    · rw [if_pos hhash]
      exact h.plan_of_abreast ⟨top,hhead,rfl,hhash⟩ hnum startBlock
    · rw [if_neg hhash]
      rcases Nat.lt_or_eq_of_le hnum with hlt | heq
      · -- the walk starts above the head and passes it, as its hash is not the canonical one
        have hlink := s.chain.linked top.number (by omega)
        simp [plan,hhead,hlt,fork,hat,hlink,hhash]
      · rw [heq] at hat hhash
        simp [plan,hhead,heq,hat,hhash]

theorem Sound.level_plan (h : t.Sound) (hlow : ∀ top ∈ t.head, top.number ≤ s.head)
    (startBlock : ℕ) : (Tracker.observeAll t (t.plan s startBlock)).1.head = none ∨
      (Tracker.observeAll t (t.plan s startBlock)).1.Abreast s.chain s.head := by
  rw [h.plan_feedFrom hlow]
  by_cases hfirst : t.feedFrom s.chain startBlock ≤ s.head
  · exact .inr (t.abreast_segment hfirst s.head_le)
  · rw [Chain.segment_nil (by omega),observeAll_nil]
    cases hhead : t.head with
    | none => exact .inl rfl
    | some top =>
      have hnum := hlow top hhead
      have hfork := t.fork_le s.chain top.number
      simp only [feedFrom,hhead] at hfirst
      split at hfirst
      · rename_i hhash
        have hsame : top.number = s.head := by omega
        exact .inr ⟨top,hhead,hsame,hsame ▸ hhash⟩
      · omega

theorem Sound.plan_split (h : t.Sound) (hbehind : r.Behind s)
    (hlow : ∀ top ∈ t.head, top.number ≤ r.head) (startBlock : ℕ) :
    t.plan r startBlock ++ (Tracker.observeAll t (t.plan r startBlock)).1.plan s startBlock =
      t.plan s startBlock := by
  have hle := s.head_le
  have hsound := h.plan_sound r startBlock
  have hhead := hbehind.head_le
  have hfed := h.plan_feedFrom hlow startBlock
  rw [h.plan_feedFrom fun top htop => (hlow top htop).trans hhead]
  rw [hfed] at hsound ⊢
  rw [hbehind.chain] at hsound ⊢
  by_cases hfirst : t.feedFrom s.chain startBlock ≤ r.head
  · rw [hsound.plan_of_abreast (t.abreast_segment hfirst (hhead.trans hle)) hhead]
    exact Chain.segment_append (by omega) hhead hle
  · rw [Chain.segment_nil (by omega),List.nil_append,observeAll_nil]
    exact h.plan_feedFrom (fun top htop => (hlow top htop).trans hhead) startBlock

theorem Poised.frontier_le_plan (h : t.Poised startBlock)
    (hlevel : t.head = none ∨ t.Abreast s.chain n) (hn : n ≤ s.head) :
    t.frontier ≤ (Tracker.observeAll t (t.plan s startBlock)).1.frontier := by
  have hle := s.head_le
  rcases hlevel with hnone | hlevel
  · rw [h.idle (List.getLast?_eq_none_iff.mp hnone)]
    exact Nat.zero_le _
  · rw [h.sound.plan_of_abreast hlevel hn]
    by_cases hgrew : n < s.head
    · obtain ⟨-,top,htop,ha⟩ := hlevel.extends_next (hgrew.trans_le hle)
      rw [← h.sound.pulled_of_head htop ha]
      exact h.sound.pulled_le_segment hgrew hle
    · rw [Chain.segment_nil (by omega)]
      exact le_refl _

theorem confirmedHeight_or {t t' : Tracker} (h : t.frontier ≤ t'.frontier) (height : Option ℕ) :
    (t'.confirmedHeight <|> (t.confirmedHeight <|> height)) = (t'.confirmedHeight <|> height) := by
  cases hlater : t'.confirmedHeight with
  | some w => rfl
  | none =>
    have hzero := (confirmedHeight_none_iff t').mp hlater
    have hnone := (confirmedHeight_none_iff t).mpr (by omega)
    rw [hnone]
    rfl

theorem Sound.plan_plan (h : t.Sound) (s : Node) (startBlock : ℕ) :
    (Tracker.observeAll t (t.plan s startBlock)).1.plan s startBlock = [] := by
  rcases t.abreast_plan s startBlock with hlevel | hplan
  · rw [(h.plan_sound s startBlock).plan_of_abreast hlevel (le_refl _)]
    exact Chain.segment_nil (Nat.lt_succ_self _)
  · rw [hplan]
    exact hplan

end Tracker

namespace Poller

section Observed

variable {S C : Type}

@[simp] theorem observed_nil (p : Poller S C) : p.observed [] = p := by
  simp [observed]

theorem with_source {p : Poller S C} {s : S} (h : p.source = s) : { p with source := s } = p := by
  subst h
  rfl

end Observed

section Again

variable {C : Type} [Checkpoint C]

theorem dueSave_settled (p : Poller Node C) (bs : List BlockRef) : (p.settled bs).dueSave = none := by
  unfold settled
  cases hdue : (p.observed bs).dueSave with
  | none => exact hdue
  | some height =>
    have hheight := confirmedHeight_of_dueSave hdue
    simp only [dueSave] at hheight ⊢
    simp [hheight]

theorem settled_nil {p : Poller Node C} (h : p.dueSave = none) : p.settled [] = p := by
  simp [settled,h]

end Again

section Told

variable {startBlock confirmations : ℕ} {nodes : List Node} {p : Poller Node InMemoryCheckpoint}
  {s : Node}

theorem Told.tick_facts (h : Told startBlock confirmations nodes p) (s : Node) :
    (p.tick s).2 = .ok ((Tracker.observeAll p.tracker (p.tracker.plan s startBlock)).2.flatMap
        s.messages) ∧
      (p.tick s).1.tracker = (Tracker.observeAll p.tracker (p.tracker.plan s startBlock)).1 ∧
      (p.tick s).1.checkpoint.height =
        ((Tracker.observeAll p.tracker (p.tracker.plan s startBlock)).1.confirmedHeight <|>
          p.checkpoint.height) := by
  obtain ⟨rfl,-,hpoised,hsaved,-⟩ := h
  rw [tick_eq p s hpoised.sound save_inMemory,settled_tracker]
  exact ⟨rfl,rfl,(settled_height (p:={ p with source := s }) hsaved _).2⟩

/-- Polls that follow the chain upwards, against one poll at the end. -/
theorem Told.follow (h : Told startBlock confirmations nodes p) {batch : List Node}
    (hbehind : ∀ r ∈ batch, r.Behind s) (hgrow : batch.Pairwise fun r r' => r.head ≤ r'.head)
    (hlow : ∀ top ∈ p.tracker.head, ∀ r ∈ batch, top.number ≤ r.head) :
    returned (Machine.outputs Poller.tick p (batch++[s])) =
        (Tracker.observeAll p.tracker (p.tracker.plan s startBlock)).2.flatMap s.messages ∧
      (Machine.final Poller.tick p (batch++[s])).tracker =
        (Tracker.observeAll p.tracker (p.tracker.plan s startBlock)).1 ∧
      (Machine.final Poller.tick p (batch++[s])).checkpoint.height =
        ((Tracker.observeAll p.tracker (p.tracker.plan s startBlock)).1.confirmedHeight <|>
          p.checkpoint.height) := by
  induction batch generalizing p nodes with
  | nil =>
    obtain ⟨hmsgs,htracker,hheight⟩ := h.tick_facts s
    refine ⟨?_,htracker,hheight⟩
    simp [returned,hmsgs]
  | cons r batch ih =>
    obtain ⟨hfirst,hgrow⟩ := List.pairwise_cons.mp hgrow
    have hr := hbehind r (by simp)
    have hlowr : ∀ top ∈ p.tracker.head, top.number ≤ r.head := fun top htop => hlow top htop r (by simp)
    obtain ⟨hmsgs,htracker,hheight⟩ := h.tick_facts r
    have hlevel := h.poised.sound.level_plan hlowr startBlock
    have hmono := (h.tick r).poised.frontier_le_plan (s:=s) (n:=r.head)
      (by rw [htracker,← hr.chain]; exact hlevel) hr.head_le
    obtain ⟨hrest,hend,hkept⟩ := ih (h.tick r) (fun r' hr' => hbehind r' (by simp [hr'])) hgrow (by
      intro top htop r' hr'
      rw [htracker] at htop
      rcases hlevel with hnone | ⟨top',htop',hnum,-⟩
      · rw [hnone] at htop
        cases htop
      · rw [htop'] at htop
        obtain rfl := Option.some.inj htop
        exact hnum.le.trans (hfirst r' hr'))
    rw [htracker] at hrest hend hkept hmono
    rw [← h.poised.sound.plan_split hr hlowr,Tracker.observeAll_append]
    refine ⟨?_,hend,?_⟩
    · rw [List.cons_append,Machine.outputs_cons,hmsgs,returned_cons,hrest,hr.messages,
        List.flatMap_append]
    · rw [hheight,Tracker.confirmedHeight_or hmono] at hkept
      exact hkept

end Told

/-- Over any run, from any checkpoint and whatever chains the polls have met: a second poll of the
same node returns no message, persists nothing and leaves the poller as it is. -/
theorem poll_again (source : Node) (checkpoint : InMemoryCheckpoint) (confirmations window : ℕ)
    (h : confirmations < window) (startBlock : ℕ) (p : Poller Node InMemoryCheckpoint)
    (hp : resume source checkpoint (Tracker.fresh confirmations window h) startBlock = .ok p)
    (nodes : List Node) (s : Node) :
    ((Machine.final tick p nodes).tick s).1.tick s =
      (((Machine.final tick p nodes).tick s).1,.ok []) := by
  have htold := told_final (told_resume source checkpoint h hp) nodes
  generalize Machine.final tick p nodes = q at htold ⊢
  have hsound := htold.poised.sound
  have hplan : (q.tick s).1.tracker.plan s (q.tick s).1.startBlock = [] := by
    rw [(htold.tick_facts s).2.1,(htold.tick s).start]
    exact hsound.plan_plan s p.startBlock
  have hsettled : (q.tick s).1 = settled { q with source := s } (q.tracker.plan s q.startBlock) := by
    rw [tick_eq q s hsound save_inMemory]
  have hsource : { (q.tick s).1 with source := s } = (q.tick s).1 := by
    rw [hsettled]
    exact with_source (settled_source { q with source := s } _)
  have hdue : (q.tick s).1.dueSave = none := by
    rw [hsettled]
    exact dueSave_settled _ _
  rw [tick_eq _ s (htold.tick s).poised.sound save_inMemory,hplan,hsource,settled_nil hdue]
  rfl

/-- Blocks 2 to 4 are replaced by blocks 2' to 5', and the node is polled twice. -/
theorem poll_again_forked :
    let p : Poller Node InMemoryCheckpoint := ⟨World.forked.node World.forkedLinear,⟨some 0⟩,
      Tracker.fresh 1 4 (by decide),1,some 0,[],[]⟩
    let q := ((Machine.final tick p [World.forked.node World.forkedLinear]).tick
      (World.forked.node World.forkedBranch)).1
    q.checkpoint.height = some 4 ∧ q.tick (World.forked.node World.forkedBranch) = (q,.ok []) :=
  ⟨by decide +kernel,poll_again (World.forked.node World.forkedLinear) ⟨some 0⟩ 1 4 (by decide) 0 _
    rfl [World.forked.node World.forkedLinear] (World.forked.node World.forkedBranch)⟩

/-- Over any run, from any checkpoint and whatever chains the polls have met: polls that follow one
chain as its reported head moves up, from no lower than the tracker's head on, return together the
messages that a single poll at the end returns, and leave the same tracker and the same
persisted height. -/
theorem polls_batch (source : Node) (checkpoint : InMemoryCheckpoint) (confirmations window : ℕ)
    (h : confirmations < window) (startBlock : ℕ) (p : Poller Node InMemoryCheckpoint)
    (hp : resume source checkpoint (Tracker.fresh confirmations window h) startBlock = .ok p)
    (nodes : List Node) (s : Node) (batch : List Node) (hbehind : ∀ r ∈ batch, r.Behind s)
    (hgrow : batch.Pairwise fun r r' => r.head ≤ r'.head)
    (hlow : ∀ top ∈ (Machine.final tick p nodes).tracker.head, ∀ r ∈ batch, top.number ≤ r.head) :
    let q := Machine.final tick p nodes
    (q.tick s).2 = .ok (returned (Machine.outputs tick q (batch++[s]))) ∧
      (Machine.final tick q (batch++[s])).tracker = (q.tick s).1.tracker ∧
      (Machine.final tick q (batch++[s])).checkpoint = (q.tick s).1.checkpoint := by
  intro q
  have htold := told_final (told_resume source checkpoint h hp) nodes
  obtain ⟨hmsgs,htracker,hheight⟩ := htold.tick_facts s
  obtain ⟨hmsgs',htracker',hheight'⟩ := htold.follow hbehind hgrow hlow
  refine ⟨?_,htracker'.trans htracker.symm,?_⟩
  · rw [hmsgs']
    exact hmsgs
  · exact congrArg InMemoryCheckpoint.mk (hheight'.trans hheight.symm)

/-- Blocks 2 to 4 are replaced by blocks 2' to 5'; the node is polled at 4' and at 5', or at 5'
only. -/
theorem polls_batch_forked :
    let p : Poller Node InMemoryCheckpoint := ⟨World.forked.node World.forkedLinear,⟨some 0⟩,
      Tracker.fresh 1 4 (by decide),1,some 0,[],[]⟩
    let s := World.forked.node World.forkedBranch
    let lower : Node := { s with head := 4, head_le := by decide }
    let q := Machine.final tick p [World.forked.node World.forkedLinear]
    (q.tick s).2 = .ok (returned (Machine.outputs tick q [lower,s])) ∧
      (q.tick lower).1.checkpoint ≠ (q.tick s).1.checkpoint := by
  intro p s lower q
  have hbehind : ∀ r ∈ [lower], r.Behind s := by
    intro r hr
    obtain rfl := List.mem_singleton.mp hr
    exact ⟨rfl,rfl,by decide⟩
  have hh := polls_batch (World.forked.node World.forkedLinear) ⟨some 0⟩ 1 4 (by decide) 0 p rfl
    [World.forked.node World.forkedLinear] s [lower] hbehind (List.pairwise_singleton _ _)
    (by decide +kernel)
  exact ⟨hh.1,by decide +kernel⟩

end Poller
end Fintrails
