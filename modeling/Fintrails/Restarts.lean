import Fintrails.AppendOnly

/-! Consecutive runs over one chain, each resumed from the height the runs before it
have persisted.  A run persists the last height it has confirmed, whether or not
it indexed a block of that height, so that a run stopped too early persists a
height below its own floor and sends the next run there. -/
namespace Fintrails
namespace Poller

variable {c : Chain} {events : BlockRef → List ChainEvent} {confirmations window : ℕ}

/-- One run: resume, poll, and hand everything down. -/
def session (confirmations window : ℕ) (h : confirmations < window) (startBlock : ℕ)
    (source : Node) (checkpoint : InMemoryCheckpoint) (nodes : List Node) :
    InMemoryCheckpoint × List IndexerMessage :=
  match resume source checkpoint (Tracker.fresh confirmations window h) startBlock with
  | .ok p => ((Machine.final tick p nodes).checkpoint,returned (Machine.outputs tick p nodes))
  | .error _ => (checkpoint,[])

theorem session_eq (h : confirmations < window) (startBlock : ℕ) (source : Node)
    {checkpoint : InMemoryCheckpoint} (hresumed : ∀ height ∈ checkpoint.height, height < 2^64-1)
    (nodes : List Node) {p : Poller Node InMemoryCheckpoint}
    (hp : p = ⟨source,checkpoint,Tracker.fresh confirmations window h,
      effectiveStart startBlock checkpoint.height,checkpoint.height,[],[]⟩) :
    session confirmations window h startBlock source checkpoint nodes =
      ((Machine.final tick p nodes).checkpoint,returned (Machine.outputs tick p nodes)) := by
  have hload : Checkpoint.load checkpoint = .ok checkpoint.height := rfl
  have hresume := resume_eq source (Tracker.fresh confirmations window h) startBlock hload hresumed
  rw [hp]
  simp only [session,hresume]

structure Session (c : Chain) (events : BlockRef → List ChainEvent) (confirmations start : ℕ)
    (resumedFrom : Option ℕ) (results : List (Except PollerError (List IndexerMessage)))
    (p : Poller Node InMemoryCheckpoint) : Prop where
  emits : Emits c events results p
  startBlock : p.startBlock = start
  confirmations : p.tracker.confirmations = confirmations
  saved : p.lastSaved = p.checkpoint.height
  height : p.checkpoint.height = (p.tracker.confirmedHeight <|> resumedFrom)

theorem Session.tick {start : ℕ} {resumedFrom : Option ℕ}
    {results : List (Except PollerError (List IndexerMessage))}
    {p : Poller Node InMemoryCheckpoint}
    (h : Session c events confirmations start resumedFrom results p) {s : Node}
    (hs : Ahead c events p s) :
    Session c events confirmations start resumedFrom (results ++ [(p.tick s).2]) (p.tick s).1 := by
  obtain ⟨hgrown,hstart,hconf,_⟩ := hs.tick save_inMemory
  have hheight := settled_height (p:={ p with source := s }) h.saved
    (p.tracker.plan s p.startBlock)
  have hfrontier : p.tracker.frontier ≤ (p.tick s).1.tracker.frontier := by
    obtain ⟨⟨rfl,rfl⟩,hold,_⟩ := id hs
    have hadv := hold.segment s.head_le
    rw [tick_eq p s hold.sound save_inMemory,settled_tracker,hold.plan_eq hs.retained]
    exact hadv.frontier_le
  refine ⟨h.emits.tick save_inMemory hs.1 hs.retained,hstart.trans h.startBlock,
    hconf.trans h.confirmations,?_,?_⟩
  · rw [tick_eq p s h.emits.grown.sound save_inMemory]
    exact hheight.1
  · cases hw : (p.tick s).1.tracker.confirmedHeight with
    | some w =>
      rw [tick_eq p s h.emits.grown.sound save_inMemory,settled_tracker] at hw
      rw [tick_eq p s h.emits.grown.sound save_inMemory,hheight.2,
        show (observed _ _).tracker.confirmedHeight = some w from hw]
      rfl
    | none =>
      have hzero := (Tracker.confirmedHeight_none_iff _).mp hw
      have hbefore : p.tracker.confirmedHeight = none :=
        (Tracker.confirmedHeight_none_iff _).mpr (by omega)
      have hold := h.height
      rw [hbefore] at hold
      rw [tick_eq p s h.emits.grown.sound save_inMemory,settled_tracker] at hw
      rw [tick_eq p s h.emits.grown.sound save_inMemory,hheight.2,
        show (observed _ _).tracker.confirmedHeight = none from hw]
      exact hold

theorem Ahead.frontier_tick {p : Poller Node InMemoryCheckpoint} {s : Node}
    (h : Ahead c events p s) : (p.tick s).1.tracker.frontier =
      if p.startBlock ≤ s.head then s.head+1-p.tracker.confirmations else 0 := by
  obtain ⟨hgrown,_,hconf,hnext⟩ := h.tick save_inMemory
  rw [h.2.1.frontier_reached hgrown h.2.2 hnext,hconf]

/-- What one run emits, and what it leaves persisted. -/
structure Ran (c : Chain) (events : BlockRef → List ChainEvent) (confirmations start : ℕ)
    (resumedFrom : Option ℕ) (nodes : List Node) (frontier : ℕ)
    (r : InMemoryCheckpoint × List IndexerMessage) : Prop where
  emitted : r.2 = ((c.upTo start frontier).flatMap events).map .confirmed
  frontier_le : frontier ≤ c.height+1
  idle : frontier = 0 → r.1.height = resumedFrom
  persisted : ∀ w, frontier = w+1 → r.1.height = some w
  reached : frontier ≠ 0 → ∃ last ∈ nodes.getLast?, start ≤ last.head ∧
    frontier = last.head+1-confirmations

theorem Session.reached {start : ℕ} {resumedFrom : Option ℕ}
    {p : Poller Node InMemoryCheckpoint}
    (h : Session c events confirmations start resumedFrom [] p) (hidle : p.tracker.frontier = 0)
    {nodes : List Node} (hguarded : Machine.Guarded Poller.tick (Ahead c events) p nodes)
    (hpos : (Machine.final Poller.tick p nodes).tracker.frontier ≠ 0) :
    ∃ last ∈ nodes.getLast?, start ≤ last.head ∧
      (Machine.final Poller.tick p nodes).tracker.frontier = last.head+1-confirmations := by
  rcases List.eq_nil_or_concat' nodes with hnil | ⟨init,last,hlast⟩
  · subst hnil
    exact absurd hidle hpos
  · rw [hlast,Machine.guarded_append] at hguarded
    have hfrontier := (hguarded.2.1).frontier_tick
    have hinit := Machine.outputs_run (fun _ _ _ hq hs => hq.tick hs) h hguarded.1
    rw [hinit.startBlock,hinit.confirmations] at hfrontier
    have hfinal : Machine.final Poller.tick p nodes =
        (Poller.tick (Machine.final Poller.tick p init) last).1 := by
      rw [hlast,Machine.final_append]
      rfl
    rw [hfinal,hfrontier] at hpos ⊢
    split at hpos
    · rename_i hle
      exact ⟨last,by simp [hlast],hle,by rw [if_pos hle]⟩
    · exact absurd rfl hpos

theorem session_ran (h : confirmations < window) (startBlock : ℕ) (source : Node)
    {checkpoint : InMemoryCheckpoint} (hresumed : ∀ height ∈ checkpoint.height, height < 2^64-1)
    {nodes : List Node} (hnodes : ∀ s ∈ nodes, ServesChain c events s)
    (hmono : nodes.Pairwise fun a b => a.head ≤ b.head) :
    ∃ frontier, Ran c events confirmations (effectiveStart startBlock checkpoint.height)
      checkpoint.height nodes frontier
      (session confirmations window h startBlock source checkpoint nodes) := by
  obtain ⟨p,hp⟩ : ∃ p : Poller Node InMemoryCheckpoint, p = ⟨source,checkpoint,
    Tracker.fresh confirmations window h,effectiveStart startBlock checkpoint.height,
    checkpoint.height,[],[]⟩ := ⟨_,rfl⟩
  have h0 : Session c events confirmations (effectiveStart startBlock checkpoint.height)
      checkpoint.height [] p := by
    subst hp
    exact ⟨fresh_emits c events rfl,rfl,rfl,rfl,rfl⟩
  have hahead : ∀ s ∈ nodes, Ahead c events p s := by
    intro s hs
    refine ⟨hnodes s hs,h0.emits.grown,?_⟩
    subst hp
    exact Tracker.fresh_behind _ _ _ _
  have hguarded := ahead_of_sorted save_inMemory hahead hmono
  have hrun := Machine.outputs_run (fun _ _ _ hq hs => hq.tick hs) h0 hguarded
  refine ⟨(Machine.final Poller.tick p nodes).tracker.frontier,?_⟩
  rw [session_eq h startBlock source hresumed nodes hp]
  refine ⟨?_,hrun.emits.grown.frontier_le,?_,?_,h0.reached (by subst hp; rfl) hguarded⟩
  · rw [hrun.emits.emitted,hrun.startBlock]
  · intro hzero
    rw [hrun.height,(Tracker.confirmedHeight_none_iff _).mpr hzero]
    rfl
  · intro w hw
    rw [hrun.height,Tracker.confirmedHeight_some_iff.mpr hw]
    rfl

/-- A run that indexes a block and confirms a height has confirmed the block below its
start at least: it does not persist a height below the configured floor. -/
def PastFloor (confirmations startBlock : ℕ) (nodes : List Node) : Prop :=
  ∀ last ∈ nodes.getLast?, startBlock ≤ last.head → confirmations ≤ last.head →
    startBlock+confirmations ≤ last.head+1

instance pastFloorDecidable (confirmations startBlock : ℕ) (nodes : List Node) :
    Decidable (PastFloor confirmations startBlock nodes) :=
  inferInstanceAs (Decidable (∀ last ∈ nodes.getLast?, _))

/-- Every head reported from now on is deep enough to confirm again what is persisted. -/
structure Persistent (c : Chain) (confirmations : ℕ) (height : Option ℕ) (nodes : List Node) :
    Prop where
  below : ∀ stored ∈ height, stored ≤ c.height
  ahead : ∀ stored ∈ height, ∀ s ∈ nodes, stored+confirmations ≤ s.head

theorem persistent_cold (c : Chain) (confirmations : ℕ) (nodes : List Node) :
    Persistent c confirmations none nodes :=
  ⟨by simp,by simp⟩

section Ran

variable {startBlock frontier : ℕ} {checkpoint : InMemoryCheckpoint} {nodes later : List Node}
  {r : InMemoryCheckpoint × List IndexerMessage}

theorem Ran.emitted_upTo (h : Ran c events confirmations
      (effectiveStart startBlock checkpoint.height) checkpoint.height nodes frontier r) :
    r.2 = ((c.upTo (effectiveStart startBlock checkpoint.height)
      (effectiveStart startBlock r.1.height)).flatMap events).map .confirmed := by
  rw [h.emitted]
  cases frontier with
  | zero => rw [h.idle rfl,Chain.upTo_nil (Nat.zero_le _),Chain.upTo_nil (le_refl _)]
  | succ w =>
    rw [h.persisted w rfl]
    rfl

theorem Ran.persistent (h : Ran c events confirmations
      (effectiveStart startBlock checkpoint.height) checkpoint.height nodes frontier r)
    (hp : Persistent c confirmations checkpoint.height (nodes ++ later))
    (hmono : (nodes ++ later).Pairwise fun a b => a.head ≤ b.head) :
    Persistent c confirmations r.1.height later := by
  cases frontier with
  | zero =>
    rw [h.idle rfl]
    exact ⟨hp.below,fun stored hs s hmem => hp.ahead stored hs s (by simp [hmem])⟩
  | succ w =>
    obtain ⟨last,hlast,-,hfrontier⟩ := h.reached (Nat.succ_ne_zero w)
    have hle := h.frontier_le
    rw [h.persisted w rfl]
    refine ⟨fun stored hs => ?_,fun stored hs s hmem => ?_⟩
    · rw [← Option.some.inj hs]
      omega
    · rw [← Option.some.inj hs]
      have hgrows := (List.pairwise_append.mp hmono).2.2 last (List.mem_of_getLast? hlast) s hmem
      omega

theorem Ran.grows (h : Ran c events confirmations
      (effectiveStart startBlock checkpoint.height) checkpoint.height nodes frontier r)
    (hp : Persistent c confirmations checkpoint.height (nodes ++ later)) :
    effectiveStart startBlock checkpoint.height ≤
      max startBlock (effectiveStart startBlock r.1.height) := by
  cases frontier with
  | zero =>
    rw [h.idle rfl]
    exact le_max_right _ _
  | succ w =>
    cases hstored : checkpoint.height with
    | none => exact le_max_left _ _
    | some stored =>
      obtain ⟨last,hlast,-,hfrontier⟩ := h.reached (Nat.succ_ne_zero w)
      have hahead := hp.ahead stored hstored last (by simp [List.mem_of_getLast? hlast])
      rw [h.persisted w rfl]
      change stored+1 ≤ max startBlock (w+1)
      omega

theorem Ran.floor_le (h : Ran c events confirmations
      (effectiveStart startBlock checkpoint.height) checkpoint.height nodes frontier r)
    (hp : Persistent c confirmations checkpoint.height (nodes ++ later))
    (hfloor : startBlock ≤ effectiveStart startBlock checkpoint.height)
    (hpast : PastFloor confirmations startBlock nodes) :
    startBlock ≤ effectiveStart startBlock r.1.height := by
  cases frontier with
  | zero => rwa [h.idle rfl]
  | succ w =>
    obtain ⟨last,hlast,hstart,hfrontier⟩ := h.reached (Nat.succ_ne_zero w)
    rw [h.persisted w rfl]
    change startBlock ≤ w+1
    -- a cold run is held to the floor by the condition, a resumed one by what is persisted
    cases hstored : checkpoint.height with
    | none =>
      rw [hstored] at hstart
      have hcold : effectiveStart startBlock none = startBlock := rfl
      have hdeep := hpast last hlast (by omega) (by omega)
      omega
    | some stored =>
      have hahead := hp.ahead stored hstored last (by simp [List.mem_of_getLast? hlast])
      rw [hstored] at hfloor
      change startBlock ≤ stored+1 at hfloor
      omega

end Ran

theorem Persistent.start_le {height : Option ℕ} {nodes : List Node}
    (h : Persistent c confirmations height nodes) (startBlock : ℕ) :
    effectiveStart startBlock height ≤ startBlock ∨ effectiveStart startBlock height ≤ c.height+1 := by
  cases height with
  | none => exact .inl (le_refl _)
  | some stored => exact .inr (Nat.succ_le_succ (h.below stored rfl))

/-- Runs that stay past the floor, and one more run, emit the chain from the floor on. -/
theorem sessions_steady (h : confirmations < window) {startBlock : ℕ} (source : Node)
    {earlier : List (List Node)} {last : List Node} {checkpoint : InMemoryCheckpoint}
    (hnodes : ∀ run ∈ earlier ++ [last], ∀ s ∈ run, ServesChain c events s)
    (hmono : (earlier ++ [last]).flatten.Pairwise fun a b => a.head ≤ b.head)
    (hpast : ∀ run ∈ earlier, PastFloor confirmations startBlock run)
    (hfloor : startBlock ≤ effectiveStart startBlock checkpoint.height)
    (hp : Persistent c confirmations checkpoint.height (earlier ++ [last]).flatten) :
    Steady c events (effectiveStart startBlock checkpoint.height)
      (Machine.outputs (session confirmations window h startBlock source) checkpoint
        (earlier ++ [last])).flatten := by
  have hc := c.height_lt
  induction earlier generalizing checkpoint with
  | nil =>
    have hlast : last.Pairwise fun a b => a.head ≤ b.head := by simpa using hmono
    obtain ⟨frontier,hran⟩ := session_ran h startBlock source
      (fun height hs => Nat.lt_of_le_of_lt (hp.below height hs) hc) (hnodes last (by simp)) hlast
    have hout : (Machine.outputs (session confirmations window h startBlock source) checkpoint
        ([]++[last])).flatten =
        (session confirmations window h startBlock source checkpoint last).2 := by
      simp
    rw [hout,hran.emitted]
    exact steady_upTo hran.frontier_le
  | cons run earlier ih =>
    have hmono' : (run ++ (earlier ++ [last]).flatten).Pairwise fun a b => a.head ≤ b.head := by
      simpa using hmono
    have hp' : Persistent c confirmations checkpoint.height
        (run ++ (earlier ++ [last]).flatten) := by simpa using hp
    obtain ⟨frontier,hran⟩ := session_ran h startBlock source
      (fun height hs => Nat.lt_of_le_of_lt (hp.below height hs) hc) (hnodes run (by simp))
      (List.pairwise_append.mp hmono').1
    have hnext := hran.persistent hp' hmono'
    have hfloor' := hran.floor_le hp' hfloor (hpast run (by simp))
    have hgrows := hran.grows hp'
    have hrest := ih (fun r hr => hnodes r (by simp [hr])) (List.pairwise_append.mp hmono').2.1
      (fun r hr => hpast r (by simp [hr])) hfloor' hnext
    rw [List.cons_append,Machine.outputs_cons,List.flatten_cons,hran.emitted_upTo]
    exact hrest.prepend (by omega) ((hnext.start_le startBlock).imp_left fun hle => hle.trans hfloor)

/-- From a cold checkpoint, however many runs there are and wherever each is stopped, they
emit together the chain from the configured floor on, in order and each block once,
if every run but the last ends past the floor. -/
theorem restarts_steady (confirmations window : ℕ) (h : confirmations < window) (startBlock : ℕ)
    (source : Node) (earlier : List (List Node)) (last : List Node)
    (hnodes : ∀ run ∈ earlier ++ [last], ∀ s ∈ run, ServesChain c events s)
    (hmono : (earlier ++ [last]).flatten.Pairwise fun a b => a.head ≤ b.head)
    (hpast : ∀ run ∈ earlier, PastFloor confirmations startBlock run) :
    Steady c events startBlock (Machine.outputs (session confirmations window h startBlock source)
      ⟨none⟩ (earlier ++ [last])).flatten := by
  have hcold : startBlock ≤ effectiveStart startBlock (InMemoryCheckpoint.mk none).height :=
    le_refl startBlock
  exact sessions_steady h source hnodes hmono hpast hcold (persistent_cold c confirmations _)

theorem restarts_steady_twice :
    Steady (.linear 5 (by decide)) World.linear.events 1
      (Machine.outputs (session 1 3 (by decide) 1 (World.linearAt 0 (by decide))) ⟨none⟩
        ([[World.linearAt 2 (by decide),World.linearAt 3 (by decide)]] ++
          [[World.linearAt 3 (by decide),World.linearAt 5 (by decide)]])).flatten := by
  refine restarts_steady 1 3 (by decide) 1 _ _ _ ?_ (by simp [World.linearAt]) (by decide)
  intro run hrun s hs
  simp only [List.mem_append,List.mem_singleton] at hrun
  rcases hrun with rfl | rfl <;>
    · simp only [List.mem_cons,List.not_mem_nil,or_false] at hs
      rcases hs with rfl | rfl <;> exact ⟨rfl,rfl⟩

/-- The first run is stopped at head 2: it persists height 0, below its floor of 2, and the
second run emits the transfer of block 1. -/
theorem restarts_below_floor :
    ¬Steady (.linear 5 (by decide)) World.linear.events 2
      (Machine.outputs (session 2 3 (by decide) 2 (World.linearAt 0 (by decide))) ⟨none⟩
        ([[World.linearAt 2 (by decide)]] ++ [[World.linearAt 3 (by decide)]])).flatten := by
  intro h
  obtain ⟨next,hnext,hmsgs⟩ := h.inOrder
  have hmem : IndexerMessage.confirmed ⟨0,0,0,1,1,1,0⟩ ∈
      (Machine.outputs (session 2 3 (by decide) 2 (World.linearAt 0 (by decide))) ⟨none⟩
        ([[World.linearAt 2 (by decide)]] ++ [[World.linearAt 3 (by decide)]])).flatten := by
    decide +kernel
  rw [hmsgs] at hmem
  obtain ⟨e,he,heq⟩ := List.mem_map.mp hmem
  obtain ⟨b,hb,he⟩ := List.mem_flatMap.mp he
  obtain ⟨n,hn,hlt,rfl⟩ := Chain.mem_upTo.mp hb
  have hnumber := World.linear.events_number _ e he
  rw [(Chain.linear 5 (by decide)).number_block n (by omega),IndexerMessage.confirmed.inj heq]
    at hnumber
  have hone : 1 = n := hnumber
  omega

end Poller
end Fintrails
