import Fintrails.AppendOnly

/-! Calls of `advance` that fail midway, over a chain that only grows.  A failed call
leaves its blocks in the tracker and drops their messages: what it had confirmed is
never handed down again.  Nothing is lost if no block so confirmed holds a
transfer. -/
namespace Fintrails

/-- The calls one `advance` makes of its source and its checkpoint. -/
inductive Call
  | headNumber
  | blockRef (number : ℕ)
  | transfers (first last : ℕ)
  | save
  deriving DecidableEq, Repr

/-- One call of `advance`: the node as it is by then, and the call of it that fails, if
any.  The failure of one call ends the `advance`. -/
structure Attempt where
  node : Node
  fault : Option Call

def Attempt.clean (a : Attempt) : Attempt := ⟨a.node,none⟩

def unavailable : SourceError := .rpc "unavailable"

instance : BlockSource Attempt where
  headNumber a := if a.fault = some .headNumber then (.error unavailable,a) else (.ok a.node.head,a)
  blockRef number a :=
    if a.fault = some (.blockRef number) then (.error unavailable,a)
    else ((BlockSource.blockRef number a.node).1,a)
  transfers first last a :=
    if a.fault = some (.transfers first last) then (.error unavailable,a)
    else ((BlockSource.transfers first last a.node).1,a)

structure FaultyCheckpoint where
  height : Option ℕ
  fails : Bool
  deriving DecidableEq, Repr

instance : Checkpoint FaultyCheckpoint where
  load c := .ok c.height
  save height c := if c.fails then (.error (.store "unavailable"),c) else (.ok (),⟨some height,false⟩)

namespace Poller

abbrev FaultyPoller := Poller Attempt FaultyCheckpoint

def attempt (p : FaultyPoller) (a : Attempt) :
    FaultyPoller × Except PollerError (List IndexerMessage) :=
  poll { p with source := a, checkpoint := { p.checkpoint with fails := a.fault = some .save } }

variable {c : Chain} {events : BlockRef → List ChainEvent} {start : ℕ}

def withTracker (p : FaultyPoller) (t : Tracker) (reports : List TrackerUpdate) : FaultyPoller :=
  { p with tracker := t, reports := reports }

/-- Where a catch-up loop that has reached `t` fails: at the next block, or at the transfers
of the block it has just confirmed. -/
def Breaks (start limit : ℕ) (fault : Option Call) (t : Tracker) : Prop :=
  (fault = some (.blockRef (t.nextNumber start)) ∧ t.nextNumber start < limit) ∨
    ∃ n, fault = some (.transfers n n) ∧ t.frontier = n+1 ∧ n+t.confirmations < limit

/-- What feeding the chain can come to: it has fed every block below `reach` and hands down
what they confirm, or a call has failed and the blocks fed by then stay in the tracker. -/
def Outcome (c : Chain) (start reach limit : ℕ) (t₀ : Tracker) (p : FaultyPoller)
    (r : EStateM.Result PollerError FaultyPoller (List IndexerMessage)) : Prop :=
  ∃ us t reports, t₀.Advances c start us t ∧ t.nextNumber start ≤ reach ∧
    ((r = .ok (us.flatMap p.source.node.messages) (p.withTracker t reports) ∧
        t.nextNumber start = reach) ∨
      ((∃ e, r = .error e (p.withTracker t reports)) ∧ p.source.fault ≠ none ∧
        (t = t₀ ∨ Breaks start limit p.source.fault t)))

theorem confirmed_next {t : Tracker} (h : t.Grown c start) (hn : t.nextNumber start ≤ c.height) :
    (t.observe (c.block (t.nextNumber start))).2.confirmed = [] ∨
    ∃ n ≤ c.height, (t.observe (c.block (t.nextNumber start))).2.confirmed = [c.block n] ∧
      (t.observe (c.block (t.nextNumber start))).1.frontier = n+1 ∧
      n+t.confirmations = t.nextNumber start := by
  have hfrontier := (h.observe_frontier hn).1
  have hlow : t.nextNumber start ≤ max start t.frontier+t.confirmations := by
    cases htop : t.head with
    | none =>
      simp only [Tracker.nextNumber,htop]
      omega
    | some top =>
      rw [Tracker.nextNumber_of_head htop,h.frontier_eq top htop]
      omega
  rw [h.observe_confirmed hn,hfrontier]
  by_cases hle : t.nextNumber start+1-t.confirmations ≤ max start t.frontier
  · exact .inl (Chain.upTo_nil hle)
  · refine .inr ⟨max start t.frontier,by omega,?_,by omega,by omega⟩
    rw [Chain.upTo,show t.nextNumber start+1-t.confirmations-max start t.frontier = 1 by omega]
    rfl

theorem walk_next {S C : Type} [BlockSource S] {p : Poller S C} (h : p.tracker.Grown c start)
    {n : ℕ} (hnext : p.tracker.nextNumber start = n) (hn : n ≤ c.height)
    (hnum : (c.block n).number = n) :
    (walk n ⟨c.block n,hnum⟩ [c.block n] : Method S C (List BlockRef)).run p =
      .ok [c.block n] p := by
  cases n with
  | zero => rfl
  | succ n =>
    cases htop : p.tracker.head with
    | none =>
      have hnone : p.tracker.blockAt n = none := by
        simp [Tracker.blockAt,List.getLast?_eq_none_iff.mp htop]
      simp [walk,hnone]
    | some top =>
      obtain ⟨heq,_⟩ := h.head_on_chain htop
      have hat := h.sound.blockAt_mem (List.mem_of_getLast? htop)
      rw [Tracker.nextNumber_of_head htop] at hnext
      obtain rfl : n = top.number := by omega
      have hlink : top.hash = (c.block (top.number+1)).parentHash := by
        rw [c.linked top.number (by omega),← heq]
      simp [walk,hat,hlink]

theorem fetch_headNumber_faulty (p : FaultyPoller) :
    (fetch BlockSource.headNumber : Method Attempt FaultyCheckpoint ℕ).run p =
      if p.source.fault = some .headNumber then .error (.source unavailable) p
      else .ok p.source.node.head p := by
  by_cases h : p.source.fault = some .headNumber <;>
    simp [fetch,EStateM.run,BlockSource.headNumber,h]

theorem fetch_blockRef_faulty {p : FaultyPoller} {n : ℕ} (h : n ≤ p.source.node.chain.height) :
    (fetch (BlockSource.blockRef n) : Method Attempt FaultyCheckpoint (BlockAt n)).run p =
      if p.source.fault = some (.blockRef n) then .error (.source unavailable) p
      else .ok ⟨p.source.node.chain.block n,p.source.node.chain.number_block n h⟩ p := by
  by_cases hf : p.source.fault = some (.blockRef n) <;>
    simp [fetch,EStateM.run,BlockSource.blockRef,h,hf]

theorem fetch_transfers_faulty (p : FaultyPoller) (first last : ℕ) :
    (fetch (BlockSource.transfers first last) :
        Method Attempt FaultyCheckpoint (List ChainEvent)).run p =
      if p.source.fault = some (.transfers first last) then .error (.source unavailable) p
      else .ok ((p.source.node.chain.segment first last).flatMap p.source.node.events) p := by
  by_cases h : p.source.fault = some (.transfers first last) <;>
    simp [fetch,EStateM.run,BlockSource.transfers,h]

theorem feed_faulty {p : FaultyPoller} (h : p.tracker.Grown c start)
    (hs : ServesChain c events p.source.node) (hn : p.tracker.nextNumber start ≤ c.height)
    (msgs : List IndexerMessage) :
    (feed (c.block (p.tracker.nextNumber start)) msgs :
        Method Attempt FaultyCheckpoint (List IndexerMessage)).run p =
      .ok (msgs ++ p.source.node.messages
          (p.tracker.observe (c.block (p.tracker.nextNumber start))).2)
        (p.observed [c.block (p.tracker.nextNumber start)]) ∨
    (∃ e, (feed (c.block (p.tracker.nextNumber start)) msgs :
        Method Attempt FaultyCheckpoint (List IndexerMessage)).run p =
      .error e (p.observed [c.block (p.tracker.nextNumber start)])) ∧
      ∃ n, p.source.fault = some (.transfers n n) ∧
        (p.tracker.observe (c.block (p.tracker.nextNumber start))).1.frontier = n+1 ∧
        n+p.tracker.confirmations = p.tracker.nextNumber start := by
  obtain ⟨rfl,rfl⟩ := hs
  have hnum := p.source.node.chain.number_block _ hn
  have hwalk := walk_next h rfl hn hnum
  rw [feed_eq hnum,EStateM.run_bind,hwalk]
  simp only [handOverAll,handOver,EStateM.run_bind,observed_singleton]
  rcases confirmed_next h hn with hnil | ⟨n,hle,hone,hfrontier,hdeep⟩
  · left
    simp [confirmedRange,hnil,Node.messages,Node.confirmedEvents]
  · have hrange : confirmedRange (p.tracker.observe
        (p.source.node.chain.block (p.tracker.nextNumber start))).2 = some (n,n) := by
      simp [confirmedRange,hone,p.source.node.chain.number_block n hle]
    have hsource : ∀ bs, (p.observed bs).source = p.source := fun _ => rfl
    simp only [hrange,EStateM.run_bind,fetch_transfers_faulty,hsource]
    by_cases hfault : p.source.fault = some (.transfers n n)
    · right
      simp only [hfault,if_true]
      exact ⟨⟨.source unavailable,rfl⟩,n,rfl,hfrontier,hdeep⟩
    · left
      simp only [hfault,if_false,EStateM.run_pure,Node.messages,Node.confirmedEvents,hrange,
        List.append_assoc]

/-- A catch-up loop from the next block on reaches its end, or breaks off on the way. -/
theorem feedNumbers_faulty {t₀ : Tracker} {us : List TrackerUpdate} {p : FaultyPoller}
    (h : t₀.Advances c start us p.tracker) (hs : ServesChain c events p.source.node) {n k : ℕ}
    (hnext : p.tracker.nextNumber start = n) (hk : n+k ≤ c.height+1) :
    Outcome c start (n+k) (n+k) t₀ p
      ((feedNumbers (List.range' n k) (us.flatMap p.source.node.messages) :
        Method Attempt FaultyCheckpoint (List IndexerMessage)).run p) := by
  induction k generalizing p us n with
  | zero => exact ⟨us,p.tracker,p.reports,h,hnext.le,.inl ⟨rfl,hnext⟩⟩
  | succ k ih =>
    have hle : n ≤ c.height := by omega
    subst hnext
    have hfeed := feed_faulty h.grown hs hle (us.flatMap p.source.node.messages)
    have hadv := h.observe hle
    have hnum := c.number_block _ hle
    obtain ⟨rfl,rfl⟩ := id hs
    have hfetch := fetch_blockRef_faulty hle
    have hnext' : (p.tracker.observe (p.source.node.chain.block
        (p.tracker.nextNumber start))).1.nextNumber start = p.tracker.nextNumber start+1 := by
      rw [Tracker.nextNumber_of_head (Tracker.observe_head _ _),hnum]
    rw [List.range'_succ]
    simp only [feedNumbers,EStateM.run_bind,hfetch]
    by_cases hfault : p.source.fault = some (.blockRef (p.tracker.nextNumber start))
    · simp only [hfault,if_true]
      exact ⟨us,p.tracker,p.reports,h,by omega,.inr ⟨⟨.source unavailable,rfl⟩,by simp [hfault],
        .inr (.inl ⟨hfault,by omega⟩)⟩⟩
    · simp only [hfault,if_false]
      rcases hfeed with hok | ⟨⟨e,herr⟩,m,htransfers,hfrontier,hdeep⟩
      · have hrest := ih (p:=p.observed [p.source.node.chain.block (p.tracker.nextNumber start)])
          hadv hs hnext' (by omega)
        rw [List.flatMap_append,List.flatMap_singleton] at hrest
        simp only [hok]
        rw [show p.tracker.nextNumber start+(k+1) = p.tracker.nextNumber start+1+k by omega]
        exact hrest
      · simp only [herr]
        refine ⟨_,_,_,hadv,by omega,.inr ⟨⟨e,rfl⟩,by simp [htransfers],
          .inr (.inr ⟨m,htransfers,hfrontier,?_⟩)⟩⟩
        change m+p.tracker.confirmations < _
        omega

theorem feedNumbers_to_head {p : FaultyPoller} (h : Ahead c events p p.source.node) {n k : ℕ}
    (hnext : p.tracker.nextNumber p.startBlock = n) (hk : n+k = p.source.node.head+1) :
    Outcome c p.startBlock (max n (p.source.node.head+1)) (p.source.node.head+1) p.tracker p
      ((feedNumbers (List.range' n k) [] :
        Method Attempt FaultyCheckpoint (List IndexerMessage)).run p) := by
  obtain ⟨hs,hgrown,_⟩ := h
  have hle : p.source.node.head ≤ c.height := by
    obtain ⟨rfl,_⟩ := hs
    exact p.source.node.head_le
  have hrun := feedNumbers_faulty (k:=k) hgrown.advances_nil hs hnext (by omega)
  rw [max_eq_right (by omega),← hk]
  exact hrun

theorem head_unchanged {p : FaultyPoller} (h : Ahead c events p p.source.node) {top : BlockRef}
    (htop : p.tracker.head = some top) (hgrew : ¬top.number < p.source.node.head) :
    top.number = p.source.node.head ∧
      (p.tracker.blockAt p.source.node.head).any
        (fun b => b.hash == (p.source.node.chain.block p.source.node.head).hash) = true := by
  obtain ⟨⟨rfl,rfl⟩,hgrown,hbehind⟩ := h
  have hsame : top.number = p.source.node.head := le_antisymm (hbehind top htop) (by omega)
  obtain ⟨heq,_⟩ := hgrown.head_on_chain htop
  have hat := hgrown.sound.blockAt_mem (List.mem_of_getLast? htop)
  refine ⟨hsame,?_⟩
  rw [← hsame,hat,← heq]
  simp

theorem collect_faulty {p : FaultyPoller} (h : Ahead c events p p.source.node) :
    Outcome c p.startBlock (max (p.tracker.nextNumber p.startBlock) (p.source.node.head+1))
      (p.source.node.head+1) p.tracker p
      ((collect : Method Attempt FaultyCheckpoint (List IndexerMessage)).run p) := by
  have hgrown := h.2.1
  have hstop : ∀ e, p.source.fault ≠ none → Outcome c p.startBlock
      (max (p.tracker.nextNumber p.startBlock) (p.source.node.head+1)) (p.source.node.head+1)
      p.tracker p (.error e p) := fun e hf =>
    ⟨[],p.tracker,p.reports,hgrown.advances_nil,le_max_left _ _,.inr ⟨⟨e,rfl⟩,hf,.inl rfl⟩⟩
  simp only [collect,EStateM.run_bind,fetch_headNumber_faulty]
  by_cases hfault : p.source.fault = some .headNumber
  · simp only [hfault,if_true]
    exact hstop _ (by simp [hfault])
  simp only [hfault,if_false,EStateM.run_get]
  cases htop : p.tracker.head with
  | none =>
    have hnext : p.tracker.nextNumber p.startBlock = p.startBlock := by
      simp [Tracker.nextNumber,htop]
    simp only [Option.map_none]
    by_cases hstart : p.startBlock ≤ p.source.node.head+1
    · rw [hnext]
      exact feedNumbers_to_head h hnext (by omega)
    · rw [show p.source.node.head+1-p.startBlock = 0 by omega]
      exact ⟨[],p.tracker,p.reports,hgrown.advances_nil,le_max_left _ _,.inl ⟨rfl,by omega⟩⟩
  | some top =>
    have hnext : p.tracker.nextNumber p.startBlock = top.number+1 :=
      Tracker.nextNumber_of_head htop
    simp only [Option.map_some]
    by_cases hgrew : top.number < p.source.node.head
    · rw [hnext]
      simp only [hgrew,if_true]
      exact feedNumbers_to_head h hnext (by omega)
    · obtain ⟨hsame,hunchanged⟩ := head_unchanged h htop hgrew
      have hfetch := fetch_blockRef_faulty p.source.node.head_le
      simp only [hgrew,if_false,EStateM.run_bind,hfetch]
      by_cases hblock : p.source.fault = some (.blockRef p.source.node.head)
      · simp only [hblock,if_true]
        exact hstop _ (by simp [hblock])
      · simp only [hblock,if_false,hunchanged,if_true]
        exact ⟨[],p.tracker,p.reports,hgrown.advances_nil,le_max_left _ _,.inl ⟨rfl,by omega⟩⟩

structure Attempted (c : Chain) (p : FaultyPoller) (a : Attempt) (us : List TrackerUpdate)
    (q : FaultyPoller) : Prop where
  advances : p.tracker.Advances c p.startBlock us q.tracker
  startBlock : q.startBlock = p.startBlock
  next_le : q.tracker.nextNumber p.startBlock ≤
    max (p.tracker.nextNumber p.startBlock) (a.node.head+1)

structure Succeeded (p : FaultyPoller) (a : Attempt) (us : List TrackerUpdate)
    (r : FaultyPoller × Except PollerError (List IndexerMessage)) : Prop where
  messages : r.2 = .ok (us.flatMap a.node.messages)
  next_eq : r.1.tracker.nextNumber p.startBlock =
    max (p.tracker.nextNumber p.startBlock) (a.node.head+1)
  height : r.1.checkpoint.height = p.checkpoint.height ∨
    r.1.checkpoint.height = r.1.tracker.confirmedHeight

structure Failed (p : FaultyPoller) (a : Attempt)
    (r : FaultyPoller × Except PollerError (List IndexerMessage)) : Prop where
  error : ∃ e, r.2 = .error e
  fault : a.fault ≠ none
  height : r.1.checkpoint.height = p.checkpoint.height
  stage : r.1.tracker = p.tracker ∨ Breaks p.startBlock (a.node.head+1) a.fault r.1.tracker ∨
    a.fault = some .save

theorem save_faulty (p : FaultyPoller) (height : ℕ) :
    (save height : Method Attempt FaultyCheckpoint Unit).run p =
      if p.checkpoint.fails then .error (.checkpoint (.store "unavailable")) p
      else .ok () { p with
        checkpoint := ⟨some height,false⟩
        lastSaved := some height
        effects := p.effects ++ [.save height] } := by
  cases h : p.checkpoint.fails <;> simp [save,EStateM.run,Checkpoint.save,h]

theorem attempt_cases {p : FaultyPoller} {a : Attempt} (h : Ahead c events p a.node) :
    ∃ us, Attempted c p a us (p.attempt a).1 ∧
      (Succeeded p a us (p.attempt a) ∨ Failed p a (p.attempt a)) := by
  obtain ⟨us,t,reports,hadv,hle,hcases⟩ := collect_faulty (p:={ p with
    source := a, checkpoint := { p.checkpoint with fails := a.fault = some .save } }) h
  refine ⟨us,?_⟩
  simp only [attempt,poll,advance,EStateM.run_bind]
  rcases hcases with ⟨hrun,hnext⟩ | ⟨⟨e,hrun⟩,hfault,hwhere⟩
  · simp only [hrun,EStateM.run_get]
    cases hdue : (withTracker _ t reports).dueSave with
    | none => exact ⟨⟨hadv,rfl,hle⟩,.inl ⟨rfl,hnext,.inl rfl⟩⟩
    | some height =>
      have hheight : t.confirmedHeight = some height := confirmedHeight_of_dueSave hdue
      simp only [EStateM.run_bind,save_faulty]
      by_cases hsave : a.fault = some .save
      · simp only [withTracker,hsave,decide_true,if_true]
        exact ⟨⟨hadv,rfl,hle⟩,.inr ⟨⟨_,rfl⟩,by simp [hsave],rfl,.inr (.inr hsave)⟩⟩
      · simp only [withTracker,hsave,decide_false,Bool.false_eq_true,if_false,EStateM.run_pure]
        exact ⟨⟨hadv,rfl,hle⟩,.inl ⟨rfl,hnext,.inr hheight.symm⟩⟩
  · simp only [hrun]
    exact ⟨⟨hadv,rfl,hle⟩,.inr ⟨⟨e,rfl⟩,hfault,rfl,hwhere.imp_right .inl⟩⟩

/-- The failing call comes after block `n` has been confirmed. -/
def Loses (fault : Option Call) (confirmations head n : ℕ) : Prop :=
  match fault with
  | some (.blockRef number) => number ≤ head ∧ n+confirmations < number
  | some (.transfers first last) => first = last ∧ n ≤ first ∧ first+confirmations ≤ head
  | some .save => n+confirmations ≤ head
  | some .headNumber => False
  | none => False

instance losesDecidable (fault : Option Call) (confirmations head n : ℕ) :
    Decidable (Loses fault confirmations head n) :=
  match fault with
  | some (.blockRef number) => inferInstanceAs (Decidable (number ≤ head ∧ n+confirmations < number))
  | some (.transfers first last) =>
    inferInstanceAs (Decidable (first = last ∧ n ≤ first ∧ first+confirmations ≤ head))
  | some .save => inferInstanceAs (Decidable (n+confirmations ≤ head))
  | some .headNumber => isFalse id
  | none => isFalse id

/-- No block that the call confirms before it fails holds a transfer. -/
def Harmless (c : Chain) (events : BlockRef → List ChainEvent) (p : FaultyPoller) (a : Attempt) :
    Prop :=
  ∀ n ≤ a.node.head, p.startBlock ≤ n → p.tracker.frontier ≤ n →
    Loses a.fault p.tracker.confirmations a.node.head n → events (c.block n) = []

instance harmlessDecidable (c : Chain) (events : BlockRef → List ChainEvent) (p : FaultyPoller)
    (a : Attempt) :
    Decidable (Harmless c events p a) :=
  inferInstanceAs (Decidable (∀ n ≤ a.node.head, p.startBlock ≤ n → p.tracker.frontier ≤ n →
    Loses a.fault p.tracker.confirmations a.node.head n → events (c.block n) = []))

theorem Failed.loses {p : FaultyPoller} {a : Attempt} {us : List TrackerUpdate}
    (h : Failed p a (p.attempt a)) (hatt : Attempted c p a us (p.attempt a).1)
    (hbehind : (p.attempt a).1.tracker.Behind a.node.head) {n : ℕ}
    (hold : p.tracker.frontier ≤ n) (hn : n < (p.attempt a).1.tracker.frontier) :
    Loses a.fault p.tracker.confirmations a.node.head n ∧ n ≤ a.node.head := by
  have hconf := hatt.advances.confirmations
  obtain ⟨top,htop⟩ : ∃ top, (p.attempt a).1.tracker.head = some top := by
    cases htop : (p.attempt a).1.tracker.head with
    | none =>
      have hidle := hatt.advances.grown.idle (List.getLast?_eq_none_iff.mp htop)
      omega
    | some top => exact ⟨top,rfl⟩
  have hfrontier := hatt.advances.grown.frontier_eq top htop
  have hle := hbehind top htop
  rcases h.stage with hsame | (⟨hfault,hlt⟩ | ⟨m,hfault,hm,hlt⟩) | hsave
  · rw [hsame] at hn
    omega
  · rw [Tracker.nextNumber_of_head htop] at hfault hlt
    rw [hfault]
    exact ⟨⟨by omega,by omega⟩,by omega⟩
  · rw [hfault]
    exact ⟨⟨rfl,by omega,by omega⟩,by omega⟩
  · rw [hsave]
    exact ⟨show _ ≤ _ by omega,by omega⟩

/-- Over failing and succeeding calls: what has been returned are the transfers of all
blocks confirmed, and no height at or above the frontier is persisted. -/
structure Recovers (c : Chain) (events : BlockRef → List ChainEvent)
    (results : List (Except PollerError (List IndexerMessage))) (p : FaultyPoller) : Prop where
  emits : Emits c events results p
  covered : ∀ height ∈ p.checkpoint.height, height < max p.startBlock p.tracker.frontier

theorem Recovers.attempt {results : List (Except PollerError (List IndexerMessage))}
    {p : FaultyPoller} {a : Attempt} (h : Recovers c events results p)
    (ha : Ahead c events p a.node) (hh : Harmless c events p a) :
    Recovers c events (results ++ [(Poller.attempt p a).2]) (Poller.attempt p a).1 := by
  obtain ⟨us,hatt,hcases⟩ := attempt_cases ha
  have hadv := hatt.advances
  have hold := hadv.frontier_le
  have hgrown : (Poller.attempt p a).1.tracker.Grown c (Poller.attempt p a).1.startBlock := by
    rw [hatt.startBlock]
    exact hadv.grown
  rcases hcases with hok | hfail
  · obtain ⟨rfl,rfl⟩ := id ha.1
    refine ⟨⟨hgrown,?_⟩,?_⟩
    · rw [hok.messages,returned_ok,h.emits.emitted,Node.messages_advances hadv,hatt.startBlock,
        ← List.map_append,← List.flatMap_append,Chain.upTo_append (hold.trans (le_max_right _ _))]
    · intro height hheight
      rw [hatt.startBlock]
      rcases hok.height with hsame | hnew
      · rw [hsame] at hheight
        have hlt := h.covered height hheight
        omega
      · rw [hnew] at hheight
        have hw := Tracker.confirmedHeight_some_iff.mp hheight
        omega
  · obtain ⟨e,he⟩ := hfail.error
    have hbehind := hadv.grown.behind_of_next ha.2.2 hatt.next_le
    have hlost : (c.upTo (max p.startBlock p.tracker.frontier)
        (Poller.attempt p a).1.tracker.frontier).flatMap events = [] := by
      refine List.flatMap_eq_nil_iff.mpr fun b hb => ?_
      obtain ⟨n,hlow,hn,rfl⟩ := Chain.mem_upTo.mp hb
      obtain ⟨hloses,hle⟩ := hfail.loses hatt hbehind (n:=n) (by omega) hn
      exact hh n hle (by omega) (by omega) hloses
    refine ⟨⟨hgrown,?_⟩,?_⟩
    · rw [he,returned_error,h.emits.emitted,hatt.startBlock,← Chain.upTo_append (hold.trans (le_max_right _ _)),
        List.flatMap_append,hlost,List.append_nil]
    · intro height hheight
      rw [hfail.height] at hheight
      have hlt := h.covered height hheight
      rw [hatt.startBlock]
      omega

theorem Ahead.attempt {p : FaultyPoller} {a b : Attempt} (ha : Ahead c events p a.node)
    (hb : Ahead c events p b.node) (hle : a.node.head ≤ b.node.head) :
    Ahead c events (Poller.attempt p a).1 b.node := by
  obtain ⟨us,hatt,_⟩ := attempt_cases ha
  have hbehind := hatt.advances.grown.behind_of_next ha.2.2 hatt.next_le
  refine ⟨hb.1,?_,fun top htop => (hbehind top htop).trans hle⟩
  rw [hatt.startBlock]
  exact hatt.advances.grown

theorem Recovers.returned_of_ok {results : List (Except PollerError (List IndexerMessage))}
    {p : FaultyPoller} {a : Attempt} (h : Recovers c events results p)
    (ha : Ahead c events p a.node) (hh : Harmless c events p a) {msgs : List IndexerMessage}
    (hok : (Poller.attempt p a).2 = .ok msgs) :
    returned (results ++ [(Poller.attempt p a).2]) = ((c.upTo p.startBlock
      (if p.startBlock ≤ a.node.head then a.node.head+1-p.tracker.confirmations else 0)).flatMap
      events).map .confirmed := by
  obtain ⟨us,hatt,hcases⟩ := attempt_cases ha
  have hsucc : Succeeded p a us (Poller.attempt p a) := by
    refine hcases.resolve_right fun hfail => ?_
    obtain ⟨e,he⟩ := hfail.error
    rw [hok] at he
    cases he
  have hfrontier := ha.2.1.frontier_reached hatt.advances.grown ha.2.2 hsucc.next_eq
  rw [hatt.advances.confirmations] at hfrontier
  rw [(h.attempt ha hh).emits.emitted,hatt.startBlock,hfrontier]

/-- Every block from the start block to the persisted height is one whose transfers have
been returned. -/
def Covered (c : Chain) (events : BlockRef → List ChainEvent)
    (results : List (Except PollerError (List IndexerMessage))) (p : FaultyPoller) : Prop :=
  ∀ height ∈ p.checkpoint.height, ∀ n, p.startBlock ≤ n → n ≤ height →
    ∀ e ∈ events (c.block n), IndexerMessage.confirmed e ∈ returned results

theorem Recovers.covered_returned {results : List (Except PollerError (List IndexerMessage))}
    {p : FaultyPoller} (h : Recovers c events results p) : Covered c events results p := by
  intro height hheight n hstart hn e he
  have hlt := h.covered height hheight
  rw [h.emits.emitted]
  refine List.mem_map_of_mem (List.mem_flatMap.mpr ⟨c.block n,?_,he⟩)
  exact Chain.mem_upTo.mpr ⟨n,hstart,by omega,rfl⟩

def Recoverable (c : Chain) (events : BlockRef → List ChainEvent) (p : FaultyPoller)
    (a : Attempt) : Prop :=
  Ahead c events p a.node ∧ Harmless c events p a

theorem recovers_run {p : FaultyPoller} {attempts : List Attempt} (h : Recovers c events [] p)
    (hg : Machine.Guarded attempt (Recoverable c events) p attempts) :
    Recovers c events (Machine.outputs attempt p attempts) (Machine.final attempt p attempts) ∧
      (Machine.final attempt p attempts).startBlock = p.startBlock ∧
      (Machine.final attempt p attempts).tracker.confirmations = p.tracker.confirmations := by
  refine Machine.outputs_run (P:=fun results (q : FaultyPoller) => Recovers c events results q ∧
    q.startBlock = p.startBlock ∧ q.tracker.confirmations = p.tracker.confirmations)
    ?_ ⟨h,rfl,rfl⟩ hg
  rintro results q a ⟨hq,hstart,hconf⟩ ⟨ha,hh⟩
  obtain ⟨us,hatt,_⟩ := attempt_cases ha
  exact ⟨hq.attempt ha hh,hatt.startBlock.trans hstart,hatt.advances.confirmations.trans hconf⟩

/-- A run whose last call succeeds has handed down everything up to the last head. -/
theorem returned_run {p : FaultyPoller} {init : List Attempt} {last : Attempt}
    (h : Recovers c events [] p)
    (hg : Machine.Guarded attempt (Recoverable c events) p (init ++ [last]))
    {msgs : List IndexerMessage}
    (hok : (attempt (Machine.final attempt p init) last).2 = .ok msgs) :
    returned (Machine.outputs attempt p (init ++ [last])) = ((c.upTo p.startBlock
      (if p.startBlock ≤ last.node.head then last.node.head+1-p.tracker.confirmations
        else 0)).flatMap events).map .confirmed := by
  rw [Machine.guarded_append] at hg
  obtain ⟨hrun,hstart,hconf⟩ := recovers_run h hg.1
  have hreturned := hrun.returned_of_ok hg.2.1.1 hg.2.1.2 hok
  rw [hstart,hconf] at hreturned
  rw [Machine.outputs_append]
  exact hreturned

theorem recoverable_of_sorted {p : FaultyPoller} {attempts : List Attempt}
    (h : ∀ a ∈ attempts, Ahead c events p a.node)
    (hmono : attempts.Pairwise fun a b => a.node.head ≤ b.node.head)
    (hharmless : Machine.Guarded attempt (Harmless c events) p attempts) :
    Machine.Guarded attempt (Recoverable c events) p attempts :=
  (Machine.guarded_of_pairwise (fun _ _ _ ha hb hle => ha.attempt hb hle) h hmono).and hharmless

theorem clean_succeeds {p : FaultyPoller} {a : Attempt} (h : Ahead c events p a.node) :
    ∃ msgs, (attempt p a.clean).2 = .ok msgs := by
  obtain ⟨us,_,hok | hfail⟩ := attempt_cases (a:=a.clean) h
  · exact ⟨_,hok.messages⟩
  · exact absurd rfl hfail.fault

/-- However often `advance` fails over a chain that only grows, and at whichever of its
calls: if no failing call has confirmed a transfer, then once a call succeeds the
successful calls have returned what they return when nothing fails, and nothing
unreturned is ever persisted. -/
theorem retries_lose_nothing (confirmations window : ℕ) (h : confirmations < window)
    (source : Attempt) (startBlock : ℕ) (resumedFrom : Option ℕ)
    (hresumed : ∀ height ∈ resumedFrom, height < 2^64-1) (p : FaultyPoller)
    (hp : resume source ⟨resumedFrom,false⟩ (Tracker.fresh confirmations window h) startBlock =
      .ok p)
    (attempts : List Attempt) (hserves : ∀ a ∈ attempts, ServesChain c events a.node)
    (hmono : attempts.Pairwise fun a b => a.node.head ≤ b.node.head)
    (hharmless : Machine.Guarded attempt (Harmless c events) p attempts) :
    Covered c events (Machine.outputs attempt p attempts) (Machine.final attempt p attempts) ∧
      ∀ msgs, (Machine.outputs attempt p attempts).getLast? = some (.ok msgs) →
        returned (Machine.outputs attempt p attempts) =
          returned (Machine.outputs attempt p (attempts.map Attempt.clean)) := by
  rw [resume_eq source _ startBlock rfl hresumed,Except.ok.injEq] at hp
  have htracker : p.tracker = Tracker.fresh confirmations window h := by rw [← hp]
  have h0 : Recovers c events [] p := by
    refine ⟨fresh_emits c events htracker,?_⟩
    subst hp
    intro height hheight
    cases hheight
    exact Nat.lt_of_lt_of_le (Nat.lt_succ_self height) (le_max_left _ _)
  have hahead : ∀ a : Attempt, ServesChain c events a.node → Ahead c events p a.node := by
    intro a ha
    refine ⟨ha,h0.emits.grown,?_⟩
    rw [htracker]
    exact Tracker.fresh_behind _ _ _ _
  have hg := recoverable_of_sorted (fun a ha => hahead a (hserves a ha)) hmono hharmless
  refine ⟨(recovers_run h0 hg).1.covered_returned,fun msgs hlast => ?_⟩
  rcases List.eq_nil_or_concat' attempts with hnil | ⟨init,last,hconcat⟩
  · subst hnil
    cases hlast
  · have hclean : Machine.Guarded attempt (Recoverable c events) p (attempts.map Attempt.clean) := by
      refine recoverable_of_sorted ?_ (List.pairwise_map.mpr hmono) ?_
      · intro a ha
        obtain ⟨b,hb,rfl⟩ := List.mem_map.mp ha
        exact hahead b.clean (hserves b hb)
      · refine Machine.guarded_of_forall fun a ha q n _ _ _ hloses => ?_
        obtain ⟨b,_,rfl⟩ := List.mem_map.mp ha
        exact absurd hloses id
    subst hconcat
    rw [List.map_append,List.map_singleton] at hclean ⊢
    have hahead' := ((Machine.guarded_append _ _ _).mp hclean).2.1.1
    obtain ⟨msgs',hok'⟩ := clean_succeeds (a:=last) hahead'
    rw [Machine.outputs_append] at hlast
    have hok : (attempt (Machine.final attempt p init) last).2 = .ok msgs := by
      simpa using hlast
    rw [returned_run h0 hg hok,returned_run h0 hclean hok']
    rfl

/-- The second call has fed block 0 when it fails; that confirms nothing yet. -/
theorem retries_lose_nothing_unconfirmed :
    let p : FaultyPoller := ⟨⟨World.linearAt 0 (by decide),none⟩,⟨none,false⟩,
      Tracker.fresh 1 3 (by decide),0,none,[],[]⟩
    let attempts : List Attempt := [⟨World.linearAt 3 (by decide),some .headNumber⟩,
      ⟨World.linearAt 4 (by decide),some (.blockRef 1)⟩,⟨World.linearAt 5 (by decide),none⟩]
    Covered (.linear 5 (by decide)) World.linear.events (Machine.outputs attempt p attempts)
        (Machine.final attempt p attempts) ∧
      ∀ msgs, (Machine.outputs attempt p attempts).getLast? = some (.ok msgs) →
        returned (Machine.outputs attempt p attempts) =
          returned (Machine.outputs attempt p (attempts.map Attempt.clean)) :=
  retries_lose_nothing 1 3 (by decide) ⟨World.linearAt 0 (by decide),none⟩ 0 none
    (by simp) _ rfl _ (by
      intro a ha
      simp only [List.mem_cons,List.not_mem_nil,or_false] at ha
      rcases ha with rfl | rfl | rfl <;> exact ⟨rfl,rfl⟩) (by simp [World.linearAt])
      (by decide +kernel)

/-- Block 0 is confirmed when the first call fails at block 1.  The second call succeeds,
and its checkpoint covers block 0, whose transfer neither has returned. -/
theorem retries_lose_confirmed :
    let p : FaultyPoller := ⟨⟨World.linearAt 0 (by decide),none⟩,⟨none,false⟩,
      Tracker.fresh 0 3 (by decide),0,none,[],[]⟩
    let attempts : List Attempt := [⟨World.linearAt 1 (by decide),some (.blockRef 1)⟩,
      ⟨World.linearAt 1 (by decide),none⟩]
    resume ⟨World.linearAt 0 (by decide),none⟩ ⟨none,false⟩ (Tracker.fresh 0 3 (by decide)) 0 =
        .ok p ∧
      (∃ msgs, (Machine.outputs attempt p attempts).getLast? = some (.ok msgs)) ∧
      returned (Machine.outputs attempt p attempts) ≠
        returned (Machine.outputs attempt p (attempts.map Attempt.clean)) ∧
      ¬Covered (.linear 5 (by decide)) World.linear.events (Machine.outputs attempt p attempts)
        (Machine.final attempt p attempts) := by
  refine ⟨rfl,⟨[.confirmed ⟨0,0,0,1,1,1,0⟩],by decide +kernel⟩,by decide +kernel,?_⟩
  intro h
  have hlost := h 1 (by decide +kernel) 0 (by decide +kernel) (by decide) ⟨0,0,0,1,0,0,0⟩
    (by decide +kernel)
  exact absurd hlost (by decide +kernel)

end Poller
end Fintrails
