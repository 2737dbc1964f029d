import Fintrails.AppendOnly

/-! Reported heads that go down as well as up, over a chain of which no block is ever
replaced.  A head that is retained, or above what is retained, disturbs nothing;
a head below the oldest retained block is taken for a reorg and drains the
tracker. -/
namespace Fintrails
namespace Poller

variable {C : Type} {c : Chain} {events : BlockRef → List ChainEvent}

section Runs

variable [Checkpoint C]

/-- A head below everything retained is answered by a retraction. -/
theorem reorged_of_drained {p : Poller Node C} (h : p.tracker.Grown c p.startBlock)
    (hsave : ∀ height (c : C), (Checkpoint.save height c).1 = .ok ()) {s : Node}
    (hs : ServesChain c events s) (hr : ¬p.tracker.HeadRetained s) :
    ∃ msgs orphaned, (p.tick s).2 = .ok msgs ∧ IndexerMessage.reorged orphaned ∈ msgs := by
  obtain ⟨rfl,rfl⟩ := hs
  obtain ⟨hplan,hne⟩ := h.plan_drains hr
  rw [tick_eq p s h.sound hsave]
  refine ⟨_,(Tracker.observe p.tracker (s.chain.block s.head)).2.reorged,rfl,?_⟩
  refine List.mem_flatMap.mpr ⟨(Tracker.observe p.tracker (s.chain.block s.head)).2,?_,?_⟩
  · rw [hplan]
    exact List.mem_singleton_self _
  · refine List.mem_append_left _ ?_
    rw [orphanNotice,if_neg (by simpa using hne)]
    exact List.mem_singleton_self _

theorem mem_returned {results : List (Except PollerError (List IndexerMessage))}
    {msgs : List IndexerMessage} {m : IndexerMessage} (h : .ok msgs ∈ results) (hm : m ∈ msgs) :
    m ∈ returned results :=
  List.mem_flatMap.mpr ⟨.ok msgs,h,hm⟩

theorem guarded_of_noReorg {results : List (Except PollerError (List IndexerMessage))}
    {p : Poller Node C} (h : Emits c events results p)
    (hsave : ∀ height (c : C), (Checkpoint.save height c).1 = .ok ()) {nodes : List Node}
    (hs : ∀ s ∈ nodes, ServesChain c events s)
    (hno : ∀ orphaned, IndexerMessage.reorged orphaned ∉
      returned (Machine.outputs tick p nodes)) :
    Machine.Guarded tick (fun q s => q.tracker.HeadRetained s) p nodes := by
  induction nodes generalizing results p with
  | nil => trivial
  | cons s nodes ih =>
    have hr : p.tracker.HeadRetained s := by
      by_contra hdrained
      obtain ⟨msgs,orphaned,hmsgs,hmem⟩ := reorged_of_drained h.grown hsave (hs s (by simp)) hdrained
      exact hno orphaned (mem_returned (by simp [hmsgs]) hmem)
    refine ⟨hr,ih (h.tick hsave (hs s (by simp)) hr) (fun t ht => hs t (by simp [ht])) ?_⟩
    intro orphaned hmem
    refine hno orphaned ?_
    rw [Machine.outputs_cons]
    exact List.mem_append_right _ hmem

/-- Over one chain, a run neither retracts, repeats nor reaches below its start exactly if
no reported head lies below the oldest block retained when it is reported. -/
theorem steady_iff_head_retained
    (hsave : ∀ height (c : C), (Checkpoint.save height c).1 = .ok ())
    (confirmations window : ℕ) (h : confirmations < window) (source : Node) (checkpoint : C)
    (startBlock : ℕ) (resumedFrom : Option ℕ)
    (hload : Checkpoint.load checkpoint = .ok resumedFrom)
    (hresumed : ∀ height ∈ resumedFrom, height < 2^64-1) (p : Poller Node C)
    (hp : resume source checkpoint (Tracker.fresh confirmations window h) startBlock = .ok p)
    (nodes : List Node) (hnodes : ∀ s ∈ nodes, ServesChain c events s) :
    Steady c events (effectiveStart startBlock resumedFrom)
        (returned (Machine.outputs tick p nodes)) ↔
      Machine.Guarded tick (fun q s => q.tracker.HeadRetained s) p nodes := by
  rw [resume_eq _ _ _ hload hresumed,Except.ok.injEq] at hp
  subst hp
  have h0 := fresh_emits c events (p:=⟨source,checkpoint,Tracker.fresh confirmations window h,
    effectiveStart startBlock resumedFrom,resumedFrom,[],[]⟩) rfl
  constructor
  · exact fun hsteady => guarded_of_noReorg h0 hsave hnodes hsteady.noReorg
  · intro hg
    have hrun := Machine.outputs_run
      (P:=fun results (q : Poller Node C) => Emits c events results q ∧
        q.startBlock = effectiveStart startBlock resumedFrom)
      (fun results q s hq hs => ⟨hq.1.tick hsave hs.2 hs.1,?_⟩) ⟨h0,rfl⟩
      (hg.and (Machine.guarded_of_forall fun s hs _ => hnodes s hs))
    · have hsteady := steady_of_emits hrun.1
      rwa [hrun.2] at hsteady
    · rw [tick_eq q s hq.1.grown.sound hsave,settled_startBlock]
      exact hq.2

end Runs

theorem steady_lagging :
    Steady (.linear 5 (by decide)) World.linear.events (effectiveStart 4 (some 0))
      (returned (Machine.outputs tick
        (⟨World.linearAt 0 (by decide),⟨some 0⟩,Tracker.fresh 1 3 (by decide),1,some 0,[],[]⟩ :
          Poller Node InMemoryCheckpoint)
        [World.linearAt 4 (by decide),World.linearAt 3 (by decide),
          World.linearAt 5 (by decide)])) :=
  (steady_iff_head_retained save_inMemory 1 3 (by decide) (World.linearAt 0 (by decide))
    ⟨some 0⟩ 4 (some 0) rfl (by decide) _ rfl _ (by
      intro s hs
      simp only [List.mem_cons,List.not_mem_nil,or_false] at hs
      rcases hs with rfl | rfl | rfl <;> exact ⟨rfl,rfl⟩)).mpr (by decide +kernel)

/-- Head 0 is reported after head 3, when only blocks 2 and 3 are retained. -/
theorem unsteady_below_window :
    ¬Steady (.linear 5 (by decide)) World.linear.events 0
      (returned (Machine.outputs tick (cold (World.linearAt 3 (by decide)) 1 2 (by decide) 0)
        [World.linearAt 3 (by decide),World.linearAt 0 (by decide)])) := by
  intro h
  exact h.noReorg [Tracker.block 2,Tracker.block 3] (by decide +kernel)

end Poller
end Fintrails
