import Fintrails.PollLists

/-! How far a poll gets.  Whatever chains the polls before it have met, one poll over a node
that stands still persists a height that lies no more than the confirmation depth below the
head it was told, and at least that depth below some head it has been told. -/
namespace Fintrails

namespace Tracker

variable {startBlock : ℕ} {t : Tracker} {s : Node}

theorem frontier_observeAll_le {n : ℕ} (bs : List BlockRef) (hbs : ∀ b ∈ bs, b.number ≤ n) :
    (observeAll t bs).1.frontier ≤ max t.frontier (n+1-t.confirmations) := by
  induction bs generalizing t with
  | nil => exact le_max_left _ _
  | cons b bs ih =>
    have hrest := @ih (observe t b).1 fun c hc => hbs c (by simp [hc])
    have hnum := hbs b (by simp)
    have hpulled := t.pulled_le_frontier b
    rw [observe_frontier,observe_confirmations] at hrest
    rw [observeAll_cons]
    exact hrest.trans (by omega)

theorem plan_number_le (t : Tracker) (s : Node) (startBlock : ℕ) :
    ∀ b ∈ t.plan s startBlock, b.number ≤ s.head := by
  have hsegment : ∀ first, ∀ b ∈ s.chain.segment first s.head, b.number ≤ s.head := by
    intro first b hb
    obtain ⟨n,-,hn,hheight,rfl⟩ := Chain.mem_segment.mp hb
    rwa [s.chain.number_block n hheight]
  intro b hb
  simp only [plan] at hb
  split at hb
  · exact hsegment _ b hb
  · split at hb
    · exact hsegment _ b hb
    · split at hb
      · cases hb
      · exact hsegment _ b hb

theorem Poised.le_frontier_plan (h : t.Poised startBlock) (s : Node)
    (hstart : t.head = none → startBlock ≤ s.head) :
    s.head+1 ≤ (observeAll t (t.plan s startBlock)).1.frontier+t.confirmations := by
  have hle := s.head_le
  have hlast : ∀ first ≤ s.head, s.head+1 ≤
      (observeAll t (s.chain.segment first s.head)).1.frontier+t.confirmations := by
    intro first hfirst
    have hh := t.le_frontier_segment hfirst hle
    omega
  cases hhead : t.head with
  | none =>
    rw [plan_idle hhead]
    exact hlast startBlock (hstart hhead)
  | some top =>
    rcases plan_cases hhead s startBlock with ⟨hplan,hlow,-⟩ | ⟨hplan,-⟩
    · have hreached := h.le_frontier top hhead
      simp only [hplan,observeAll_nil]
      omega
    · rw [hplan]
      exact hlast _ ((t.fork_le s.chain (walkFrom top s)).trans (walkFrom_le top s))

end Tracker

namespace Poller

/-- What holds of a poller that has been told the heads of `nodes`. -/
structure Told (startBlock confirmations : ℕ) (nodes : List Node)
    (p : Poller Node InMemoryCheckpoint) : Prop where
  start : p.startBlock = startBlock
  depth : p.tracker.confirmations = confirmations
  poised : p.tracker.Poised startBlock
  saved : p.lastSaved = p.checkpoint.height
  behind : p.tracker.frontier = 0 ∨
    ∃ r ∈ nodes, p.tracker.frontier+confirmations ≤ r.head+1

theorem Told.tick {startBlock confirmations : ℕ} {nodes : List Node}
    {p : Poller Node InMemoryCheckpoint} (h : Told startBlock confirmations nodes p) (s : Node) :
    Told startBlock confirmations (nodes++[s]) (p.tick s).1 := by
  obtain ⟨rfl,rfl,hpoised,hsaved,hbehind⟩ := h
  have hnext := poised_tick ⟨rfl,hpoised⟩ s
  have hraised := Tracker.frontier_observeAll_le (t:=p.tracker) _
    (p.tracker.plan_number_le s p.startBlock)
  refine ⟨hnext.1,?_,hnext.2,?_,?_⟩ <;> rw [tick_eq p s hpoised.sound save_inMemory]
  · rw [settled_tracker,Tracker.observeAll_confirmations]
  · exact (settled_height (p:={ p with source := s }) hsaved _).1
  · rw [settled_tracker]
    generalize (Tracker.observeAll p.tracker (p.tracker.plan s p.startBlock)).1.frontier = f at hraised
    by_cases hold : f ≤ p.tracker.frontier
    · obtain hidle | ⟨r,hr,hdeep⟩ := hbehind
      · exact .inl (by omega)
      · exact .inr ⟨r,by simp [hr],by omega⟩
    · by_cases hzero : f = 0
      · exact .inl hzero
      · exact .inr ⟨s,by simp,by omega⟩

theorem Told.persists {startBlock confirmations : ℕ} {nodes : List Node}
    {p : Poller Node InMemoryCheckpoint} (h : Told startBlock confirmations nodes p) {s : Node}
    (hdeep : confirmations ≤ s.head) (hstart : p.tracker.head = none → startBlock ≤ s.head) :
    ∃ height, (p.tick s).1.checkpoint.height = some height ∧
      (p.tick s).1.tracker.confirmedHeight = some height ∧ s.head ≤ height+confirmations := by
  obtain ⟨rfl,rfl,hpoised,hsaved,-⟩ := h
  have hreached := hpoised.le_frontier_plan s hstart
  have hheight := (settled_height (p:={ p with source := s }) hsaved
    (p.tracker.plan s p.startBlock)).2
  rw [tick_eq p s hpoised.sound save_inMemory,settled_tracker]
  simp only [observed] at hheight
  cases hw : (Tracker.observeAll p.tracker (p.tracker.plan s p.startBlock)).1.confirmedHeight with
  | none =>
    have hzero := (Tracker.confirmedHeight_none_iff _).mp hw
    omega
  | some height =>
    have hfrontier := Tracker.confirmedHeight_some_iff.mp hw
    rw [hw] at hheight
    exact ⟨height,hheight,rfl,by omega⟩

theorem told_resume (source : Node) (checkpoint : InMemoryCheckpoint)
    {startBlock confirmations window : ℕ} {p : Poller Node InMemoryCheckpoint}
    (h : confirmations < window)
    (hp : resume source checkpoint (Tracker.fresh confirmations window h) startBlock = .ok p) :
    Told p.startBlock confirmations [] p := by
  obtain rfl := Except.ok.inj hp
  exact ⟨rfl,rfl,Tracker.fresh_poised _ _ _ _,rfl,.inl rfl⟩

theorem told_final {startBlock confirmations : ℕ} {p : Poller Node InMemoryCheckpoint}
    (h : Told startBlock confirmations [] p) (nodes : List Node) :
    Told startBlock confirmations nodes (Machine.final Poller.tick p nodes) := by
  induction nodes using List.reverseRecOn with
  | nil => exact h
  | append_singleton nodes s ih =>
    rw [Machine.final_append]
    exact ih.tick s

/-- Over any run, from any checkpoint and whatever chains the polls have met: the height that the
next poll persists is the watermark, it lies no more than the confirmation depth below the head
the poll is told, and at least that depth below a head that it or an earlier poll was told. -/
theorem poll_persists (source : Node) (checkpoint : InMemoryCheckpoint) (confirmations window : ℕ)
    (h : confirmations < window) (startBlock : ℕ) (p : Poller Node InMemoryCheckpoint)
    (hp : resume source checkpoint (Tracker.fresh confirmations window h) startBlock = .ok p)
    (nodes : List Node) (s : Node) (hdeep : confirmations ≤ s.head)
    (hstart : (Machine.final tick p nodes).tracker.head = none → p.startBlock ≤ s.head) :
    ∃ height, ((Machine.final tick p nodes).tick s).1.checkpoint.height = some height ∧
      ((Machine.final tick p nodes).tick s).1.tracker.confirmedHeight = some height ∧
      s.head ≤ height+confirmations ∧ ∃ r ∈ nodes ++ [s], height+confirmations ≤ r.head := by
  have htold := told_final (told_resume source checkpoint h hp) nodes
  obtain ⟨height,hheight,hconfirmed,hreached⟩ := htold.persists hdeep hstart
  refine ⟨height,hheight,hconfirmed,hreached,?_⟩
  have hfrontier := Tracker.confirmedHeight_some_iff.mp hconfirmed
  obtain hidle | ⟨r,hr,hbehind⟩ := (htold.tick s).behind
  · omega
  · exact ⟨r,hr,by omega⟩

/-- The chain is replaced by a longer one, and then the node lags two blocks behind: the height
stays. -/
theorem poll_persists_lagging :
    let p : Poller Node InMemoryCheckpoint := ⟨World.forked.node World.forkedLinear,⟨some 0⟩,
      Tracker.fresh 1 4 (by decide),1,some 0,[],[]⟩
    let lagging : Node := { World.forked.node World.forkedBranch with head := 3, head_le := by decide }
    let nodes := [World.forked.node World.forkedLinear,World.forked.node World.forkedBranch]
    ∃ height, ((Machine.final tick p nodes).tick lagging).1.checkpoint.height = some height ∧
      height = 4 := by
  intro p lagging nodes
  obtain ⟨height,hheight,-⟩ := poll_persists (World.forked.node World.forkedLinear) ⟨some 0⟩ 1 4
    (by decide) 0 p rfl nodes lagging (by decide) (by decide +kernel)
  refine ⟨height,hheight,?_⟩
  have hfour : ((Machine.final tick p nodes).tick lagging).1.checkpoint.height = some 4 := by
    decide +kernel
  exact Option.some.inj (hheight.symm.trans hfour)

end Poller
end Fintrails
