import Fintrails.DeepReorgs

/-! Two pollers that differ only in their confirmation depths.  What they retain and what they
retract does not depend on the depth; the deeper one has confirmed less, and what stands with
it is the beginning of what stands with the other. -/
namespace Fintrails

namespace Tracker

/-- `deep` holds the chain of `t` and confirms no earlier. -/
structure Deeper (t deep : Tracker) : Prop where
  chain : deep.chain = t.chain
  window : deep.window = t.window
  confirmations_le : t.confirmations ≤ deep.confirmations
  frontier_le : deep.frontier ≤ t.frontier

variable {t deep : Tracker} {W : World} {startBlock : ℕ}

theorem fork_congr (h : deep.chain = t.chain) (c : Chain) (n : ℕ) : deep.fork c n = t.fork c n := by
  induction n with
  | zero => rfl
  | succ n ih => simp only [fork,blockAt,h,ih]

theorem plan_congr (h : deep.chain = t.chain) (s : Node) (startBlock : ℕ) :
    deep.plan s startBlock = t.plan s startBlock := by
  simp only [plan,head,blockAt,h,fork_congr h]
  rfl

theorem kept_congr (h : deep.chain = t.chain) (b : BlockRef) : deep.kept b = t.kept b := by
  simp only [kept,h]

theorem orphaned_congr (h : deep.chain = t.chain) (b : BlockRef) :
    deep.orphaned b = t.orphaned b := by
  simp only [orphaned,h]

theorem Deeper.pulled_le (h : Deeper t deep) (b : BlockRef) : deep.pulled b ≤ t.pulled b := by
  have hle := h.frontier_le
  rw [pulled_eq,pulled_eq,orphaned_congr h.chain]
  cases (t.orphaned b).head? with
  | none => exact hle
  | some lowest => exact le_min ((min_le_left _ _).trans hle) (min_le_right _ _)

theorem Deeper.observe (h : Deeper t deep) (b : BlockRef) :
    Deeper (Tracker.observe t b).1 (Tracker.observe deep b).1 := by
  have hpulled := h.pulled_le b
  have hconf := h.confirmations_le
  refine ⟨?_,h.window,hconf,?_⟩
  · rw [observe_chain,observe_chain,kept_congr h.chain,h.window]
  · rw [observe_frontier,observe_frontier]
    omega

theorem Deeper.letGo_eq (h : Deeper t deep) (b : BlockRef) : deep.letGo b = t.letGo b := by
  simp only [letGo,kept_congr h.chain,h.window]

theorem Deeper.observeAll (h : Deeper t deep) (bs : List BlockRef) :
    Deeper (Tracker.observeAll t bs).1 (Tracker.observeAll deep bs).1 ∧
      (Tracker.observeAll deep bs).2.map TrackerUpdate.reorged =
        (Tracker.observeAll t bs).2.map TrackerUpdate.reorged := by
  induction bs generalizing t deep with
  | nil => exact ⟨h,rfl⟩
  | cons b bs ih =>
    obtain ⟨hnext,hreorged⟩ := ih (h.observe b)
    refine ⟨hnext,?_⟩
    rw [observeAll_cons,observeAll_cons,List.map_cons,List.map_cons,observe_reorged,observe_reorged,
      orphaned_congr h.chain,hreorged]

theorem Deeper.layers (h : Deeper t deep) {old : List BlockRef} {us vs : List TrackerUpdate}
    (hshallow : Layered W startBlock old us t) (hdeep : Layered W startBlock old vs deep)
    {bs : List BlockRef} (hbs : Machine.Guarded Tracker.observe (Meets W startBlock) t bs) :
    ∃ old', Layered W startBlock old' (us ++ (Tracker.observeAll t bs).2) (Tracker.observeAll t bs).1 ∧
      Layered W startBlock old' (vs ++ (Tracker.observeAll deep bs).2)
        (Tracker.observeAll deep bs).1 := by
  induction bs generalizing t deep old us vs with
  | nil => exact ⟨old,by simpa using hshallow,by simpa using hdeep⟩
  | cons b bs ih =>
    have hmeets : deep.Meets W startBlock b := by
      simpa only [Meets,h.chain] using hbs.1
    have hnext := hdeep.observe hmeets
    rw [h.letGo_eq b] at hnext
    simpa [observeAll_cons] using ih (h.observe b) (hshallow.observe hbs.1) hnext hbs.2

theorem fresh_deeper {confirmations deeper window : ℕ} (hle : confirmations ≤ deeper)
    (h : deeper < window) :
    Deeper (fresh confirmations window (hle.trans_lt h)) (fresh deeper window h) :=
  ⟨rfl,rfl,hle,le_refl _⟩

end Tracker

def retractions (msgs : List IndexerMessage) : List (List BlockRef) :=
  msgs.filterMap fun
    | .confirmed _ => none
    | .reorged orphaned => some orphaned

theorem retractions_append (msgs more : List IndexerMessage) :
    retractions (msgs++more) = retractions msgs ++ retractions more :=
  List.filterMap_append

theorem retractions_messages (s : Node) (us : List TrackerUpdate) :
    retractions (us.flatMap s.messages) =
      (us.map TrackerUpdate.reorged).filter fun orphaned => !orphaned.isEmpty := by
  induction us with
  | nil => rfl
  | cons u us ih =>
    have hconfirmed : retractions ((s.confirmedEvents u).map .confirmed) = [] := by
      simp [retractions]
    rw [List.flatMap_cons,retractions_append,ih,Node.messages,retractions_append,hconfirmed,
      List.append_nil,List.map_cons]
    cases hempty : u.reorged.isEmpty <;> simp [Poller.orphanNotice,retractions,hempty]

namespace Poller

/-- What holds of two pollers with different depths and of what their calls have returned. -/
structure Delays (W : World) (results later : List (Except PollerError (List IndexerMessage)))
    (p q : Poller Node InMemoryCheckpoint) : Prop where
  start : q.startBlock = p.startBlock
  deeper : Tracker.Deeper p.tracker q.tracker
  retracted : retractions (returned later) = retractions (returned results)
  layers : ∃ old us vs, p.tracker.Layered W p.startBlock old us ∧
    q.tracker.Layered W p.startBlock old vs ∧
    standingEvents (returned results) =
      Standing.standing ChainEvent.blockNumber (us.map (TrackerUpdate.transfers W.events)) ∧
    standingEvents (returned later) =
      Standing.standing ChainEvent.blockNumber (vs.map (TrackerUpdate.transfers W.events))

theorem Delays.tick {W : World} {results later : List (Except PollerError (List IndexerMessage))}
    {p q : Poller Node InMemoryCheckpoint} (h : Delays W results later p q) {s : Node}
    (hs : W.Serves s) (hreach : p.tracker.InReach s) :
    Delays W (results ++ [(p.tick s).2]) (later ++ [(q.tick s).2]) (p.tick s).1 (q.tick s).1 := by
  obtain ⟨old,us,vs,hshallow,hdeep,hstanding,hstanding'⟩ := h.layers
  have hsound := hshallow.inhabits.sound
  have hplan := Tracker.plan_congr h.deeper.chain s p.startBlock
  obtain ⟨hdeeper,hreorged⟩ := h.deeper.observeAll (p.tracker.plan s p.startBlock)
  obtain ⟨old',hshallow',hdeep'⟩ := h.deeper.layers hshallow hdeep (hsound.plan_meets hs hreach)
  have hnext := standingEvents_tick hshallow.inhabits hs hstanding
  have hnext' := standingEvents_tick hdeep.inhabits hs hstanding'
  rw [h.start,hplan] at hnext'
  refine ⟨?_,?_,?_,old',_,_,?_,?_,hnext,hnext'⟩ <;>
    rw [tick_eq p s hsound save_inMemory]
  · rw [tick_eq q s hdeep.inhabits.sound save_inMemory,settled_startBlock,settled_startBlock]
    exact h.start
  · rw [tick_eq q s hdeep.inhabits.sound save_inMemory,settled_tracker,settled_tracker,h.start,hplan]
    exact hdeeper
  · rw [tick_eq q s hdeep.inhabits.sound save_inMemory,h.start,hplan,returned_ok,returned_ok,
      retractions_append,retractions_append,h.retracted,retractions_messages,retractions_messages]
    exact congrArg _ (congrArg _ hreorged)
  · rw [settled_tracker,settled_startBlock]
    exact hshallow'
  · rw [tick_eq q s hdeep.inhabits.sound save_inMemory,settled_tracker,settled_startBlock,h.start,
      hplan]
    exact hdeep'

/-- Over every run, from any checkpoint, of chains that replace each other at any depth, as long as
no reported head lies below the oldest retained block: a larger confirmation depth retracts
the same blocks in the same order, retains the same chain, and only delays: its watermark is no
higher, and what stands with it is the beginning of what stands with the smaller depth. -/
theorem depth_delays (W : World) (source : Node) (checkpoint : InMemoryCheckpoint)
    (confirmations deeper window : ℕ) (hle : confirmations ≤ deeper) (h : deeper < window)
    (startBlock : ℕ) (p q : Poller Node InMemoryCheckpoint)
    (hp : resume source checkpoint (Tracker.fresh confirmations window (hle.trans_lt h)) startBlock =
      .ok p)
    (hq : resume source checkpoint (Tracker.fresh deeper window h) startBlock = .ok q)
    (nodes : List Node)
    (hnodes : Machine.Guarded tick (fun p s => W.Serves s ∧ p.tracker.InReach s) p nodes) :
    standingEvents (returned (Machine.outputs tick q nodes)) <+:
        standingEvents (returned (Machine.outputs tick p nodes)) ∧
      retractions (returned (Machine.outputs tick q nodes)) =
        retractions (returned (Machine.outputs tick p nodes)) ∧
      (Machine.final tick q nodes).tracker.chain = (Machine.final tick p nodes).tracker.chain ∧
      (Machine.final tick q nodes).tracker.frontier ≤
        (Machine.final tick p nodes).tracker.frontier := by
  have hrun : Delays W (Machine.outputs tick p nodes) (Machine.outputs tick q nodes)
      (Machine.final tick p nodes) (Machine.final tick q nodes) := by
    induction nodes using List.reverseRecOn with
    | nil =>
      obtain rfl := Except.ok.inj hp
      obtain rfl := Except.ok.inj hq
      exact ⟨rfl,Tracker.fresh_deeper hle h,rfl,[],[],[],Tracker.fresh_layered _ _ _ _ _,
        Tracker.fresh_layered _ _ _ _ _,rfl,rfl⟩
    | append_singleton nodes s ih =>
      obtain ⟨hinit,⟨hs,hreach⟩,-⟩ := (Machine.guarded_append _ _ _).mp hnodes
      rw [Machine.outputs_append,Machine.outputs_append,Machine.final_append,Machine.final_append]
      exact (ih hinit).tick hs hreach
  obtain ⟨-,hdeeper,hretracted,old,us,vs,hshallow,hdeep,hstanding,hstanding'⟩ := hrun
  refine ⟨?_,hretracted,hdeeper.chain,hdeeper.frontier_le⟩
  rw [hstanding,hstanding',standing_transfers_eq,standing_transfers_eq,hshallow.standing,
    hdeep.standing,hdeeper.chain,
    ← hshallow.numbered.slice_join (Nat.zero_le _) hdeeper.frontier_le,List.flatMap_append]
  exact List.prefix_append _ _

/-- Blocks 2 to 4 are replaced: with the depth 2 blocks 3 and 4 were not confirmed before, and
both pollers retract all three. -/
theorem depth_delays_forked :
    let p : Poller Node InMemoryCheckpoint := ⟨World.forked.node World.forkedLinear,⟨none⟩,
      Tracker.fresh 0 4 (by decide),0,none,[],[]⟩
    let q : Poller Node InMemoryCheckpoint := ⟨World.forked.node World.forkedLinear,⟨none⟩,
      Tracker.fresh 2 4 (by decide),0,none,[],[]⟩
    let nodes := [World.forked.node World.forkedLinear,World.forked.node World.forkedBranch]
    standingEvents (returned (Machine.outputs tick q nodes)) <+:
        standingEvents (returned (Machine.outputs tick p nodes)) ∧
      retractions (returned (Machine.outputs tick q nodes)) =
        retractions (returned (Machine.outputs tick p nodes)) ∧
      (Machine.final tick q nodes).tracker.frontier <
        (Machine.final tick p nodes).tracker.frontier := by
  intro p q nodes
  have hnodes : Machine.Guarded tick (fun p s => World.forked.Serves s ∧ p.tracker.InReach s) p
      nodes :=
    ⟨⟨World.forked_linear,by decide +kernel⟩,⟨World.forked_branch,by decide +kernel⟩,trivial⟩
  obtain ⟨hstanding,hretracted,-⟩ := depth_delays World.forked (World.forked.node World.forkedLinear)
    ⟨none⟩ 0 2 4 (by decide) (by decide) 0 p q rfl rfl nodes hnodes
  exact ⟨hstanding,hretracted,by decide +kernel⟩

end Poller
end Fintrails
