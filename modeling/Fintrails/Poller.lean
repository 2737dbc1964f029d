import Fintrails.Source

/-! The poller, translated method by method.  A method is a computation that may
fail and whose effects on the poller before the failure stay, as those of a Rust
method on `&mut self` do. -/
namespace Fintrails

/-- What `run` does that is seen from outside: it persists a height, or sends one
message to the consumer. -/
inductive Effect
  | save (height : ℕ)
  | send (message : IndexerMessage)
  deriving DecidableEq, Repr

/-- `reports` and `effects` are ghosts that no code reads: every update the tracker
has returned, and every effect of `run` so far. -/
structure Poller (S C : Type) where
  source : S
  checkpoint : C
  tracker : Tracker
  startBlock : ℕ
  lastSaved : Option ℕ
  reports : List TrackerUpdate
  effects : List Effect

namespace Poller

variable {S C : Type}

abbrev Method (S C α : Type) := EStateM PollerError (Poller S C) α

/-- A poller that persists nothing. -/
def new (source : S) (tracker : Tracker) (startBlock : ℕ) : Poller S NoCheckpoint :=
  ⟨source,⟨⟩,tracker,startBlock,none,[],[]⟩

/-- Continue past the persisted height, or at `startBlock` on a cold checkpoint. -/
def resume [Checkpoint C] (source : S) (checkpoint : C) (tracker : Tracker) (startBlock : ℕ) :
    Except PollerError (Poller S C) :=
  match Checkpoint.load checkpoint with
  | .error e => .error (.checkpoint e)
  | .ok resumedFrom =>
    .ok ⟨source,checkpoint,tracker,resumedFrom.elim startBlock succU64,resumedFrom,[],[]⟩

/-- The first block a run may index: past the height it resumes from, or the configured
floor. -/
def effectiveStart (startBlock : ℕ) (resumedFrom : Option ℕ) : ℕ :=
  (resumedFrom.map fun height => height+1).getD startBlock

theorem resume_eq [Checkpoint C] (source : S) {checkpoint : C} (t : Tracker)
    (startBlock : ℕ) {resumedFrom : Option ℕ} (hload : Checkpoint.load checkpoint = .ok resumedFrom)
    (hresumed : ∀ height ∈ resumedFrom, height < 2^64-1) :
    resume source checkpoint t startBlock =
      .ok ⟨source,checkpoint,t,effectiveStart startBlock resumedFrom,resumedFrom,[],[]⟩ := by
  rw [resume,hload]
  cases resumedFrom with
  | none => rfl
  | some height =>
    have hlt := hresumed height rfl
    have hsucc : succU64 height = height+1 := succU64_of_lt (by omega)
    simp [effectiveStart,hsucc]

def fetch {α : Type} (call : S → Except SourceError α × S) : Method S C α := fun p =>
  match call p.source with
  | (.ok a,s) => .ok a { p with source := s }
  | (.error e,s) => .error (.source e) { p with source := s }

def observe (block : BlockRef) : Method S C TrackerUpdate := fun p =>
  let r := p.tracker.observe block
  .ok r.2 { p with tracker := r.1, reports := p.reports ++ [r.2] }

section Inversion

variable {α β : Type}

theorem bind_ok {x : Method S C α} {f : α → Method S C β} {p r : Poller S C} {b : β}
    (h : (x >>= f).run p = .ok b r) : ∃ a q, x.run p = .ok a q ∧ (f a).run q = .ok b r := by
  rw [EStateM.run_bind] at h
  cases hx : x.run p with
  | ok a q =>
    rw [hx] at h
    exact ⟨a,q,rfl,h⟩
  | error e q =>
    rw [hx] at h
    cases h

theorem fetch_ok {call : S → Except SourceError α × S} {p q : Poller S C} {a : α}
    (h : (fetch call : Method S C α).run p = .ok a q) :
    (call p.source).1 = .ok a ∧ q = { p with source := (call p.source).2 } := by
  rcases hcall : call p.source with ⟨e | b,s⟩
  · simp [fetch,EStateM.run,hcall] at h
  · simp only [fetch,EStateM.run,hcall,EStateM.Result.ok.injEq] at h
    exact ⟨by rw [h.1],h.2.symm⟩

theorem fetch_of_ok {call : S → Except SourceError α × S} {p : Poller S C} {a : α}
    (h : (call p.source).1 = .ok a) :
    (fetch call : Method S C α).run p = .ok a { p with source := (call p.source).2 } := by
  rcases hcall : call p.source with ⟨e | c,s⟩
  · simp [hcall] at h
  · simp only [fetch,EStateM.run,hcall]
    rw [hcall] at h
    cases h
    rfl

theorem pure_ok {a b : α} {p r : Poller S C} (h : (pure a : Method S C α).run p = .ok b r) :
    b = a ∧ r = p := by
  cases h
  exact ⟨rfl,rfl⟩

end Inversion

section Collect

variable [BlockSource S]

/-- The loop of `feed`: fetch ancestors of `tip` until the tracker agrees with the
parent or does not retain its height.  Each ancestor is put in front, so that
`branch` is in the order in which it is fed. -/
def walk : (number : ℕ) → BlockAt number → List BlockRef → Method S C (List BlockRef)
  | 0, _, branch => pure branch
  | parentNum+1, tip, branch => do
    match (← get).tracker.blockAt parentNum with
    | some known =>
      if known.hash = tip.val.parentHash then pure branch
      else
        let parent ← fetch (BlockSource.blockRef parentNum)
        walk parentNum parent (parent.val::branch)
    | none => pure branch

def confirmedRange (u : TrackerUpdate) : Option (ℕ × ℕ) := do
  let first ← u.confirmed.head?
  let last ← u.confirmed.getLast?
  pure (first.number,last.number)

def orphanNotice (u : TrackerUpdate) : List IndexerMessage :=
  if u.reorged.isEmpty then [] else [.reorged u.reorged]

/-- Observe one block of the branch, and turn the update into messages. -/
def handOver (block : BlockRef) (msgs : List IndexerMessage) :
    Method S C (List IndexerMessage) := do
  let update ← observe block
  match confirmedRange update with
  | some (first,last) =>
    let events ← fetch (BlockSource.transfers first last)
    pure (msgs ++ orphanNotice update ++ events.map .confirmed)
  | none => pure (msgs ++ orphanNotice update)

def handOverAll : List BlockRef → List IndexerMessage → Method S C (List IndexerMessage)
  | [], msgs => pure msgs
  | b::bs, msgs => do
    let msgs ← handOver b msgs
    handOverAll bs msgs

def feed (block : BlockRef) (msgs : List IndexerMessage) : Method S C (List IndexerMessage) := do
  let branch ← walk block.number ⟨block,rfl⟩ [block]
  handOverAll branch msgs

/-- The body of the two catch-up loops of `advance`. -/
def feedNumbers : List ℕ → List IndexerMessage → Method S C (List IndexerMessage)
  | [], msgs => pure msgs
  | n::ns, msgs => do
    let block ← fetch (BlockSource.blockRef n)
    let msgs ← feed block.val msgs
    feedNumbers ns msgs

/-- Everything `advance` does before it persists. -/
def collect : Method S C (List IndexerMessage) := do
  let headNum ← fetch BlockSource.headNumber
  let p ← get
  match p.tracker.head.map BlockRef.number with
  | none => feedNumbers (List.range' p.startBlock (headNum+1-p.startBlock)) []
  | some th =>
    if th < headNum then feedNumbers (List.range' (th+1) (headNum-th)) []
    else
      let head ← fetch (BlockSource.blockRef headNum)
      let unchanged := (p.tracker.blockAt headNum).any fun b => b.hash == head.val.hash
      if unchanged then pure [] else feed head.val []

end Collect

/-- The height `advance` persists at the end of a tick, if any. -/
def dueSave (p : Poller S C) : Option ℕ :=
  match p.tracker.confirmedHeight with
  | some height => if p.lastSaved ≠ some height then some height else none
  | none => none

theorem confirmedHeight_of_dueSave {p : Poller S C} {height : ℕ} (h : p.dueSave = some height) :
    p.tracker.confirmedHeight = some height := by
  unfold dueSave at h
  cases hw : p.tracker.confirmedHeight with
  | none => simp [hw] at h
  | some w =>
    by_cases hlast : p.lastSaved = some w <;> simp_all

def save [Checkpoint C] (height : ℕ) : Method S C Unit := fun p =>
  match Checkpoint.save height p.checkpoint with
  | (.ok (),c) => .ok () { p with
      checkpoint := c
      lastSaved := some height
      effects := p.effects ++ [.save height] }
  | (.error e,c) => .error (.checkpoint e) { p with checkpoint := c }

section Advance

variable [BlockSource S] [Checkpoint C]

/-- Poll once. -/
def advance : Method S C (List IndexerMessage) := do
  let msgs ← collect
  match (← get).dueSave with
  | some height => save height
  | none => pure ()
  pure msgs

/-- One poll as a step: the poller afterwards, and what the call returned. -/
def poll (p : Poller S C) : Poller S C × Except PollerError (List IndexerMessage) :=
  match advance.run p with
  | .ok msgs p' => (p',.ok msgs)
  | .error e p' => (p',.error e)

def send (message : IndexerMessage) : Method S C Unit := fun p =>
  .ok () { p with effects := p.effects ++ [.send message] }

def sendAll : List IndexerMessage → Method S C Unit
  | [] => pure ()
  | m::ms => do
    send m
    sendAll ms

/-- One round of the loop of `run`, for a consumer that keeps receiving. -/
def round : Method S C Unit := do
  let msgs ← advance
  sendAll msgs

end Advance

def sentOf (effects : List Effect) : List IndexerMessage :=
  effects.filterMap fun e => match e with
    | .send m => some m
    | .save _ => none

theorem sentOf_append (l l' : List Effect) : sentOf (l++l') = sentOf l ++ sentOf l' :=
  List.filterMap_append

theorem sentOf_sends (msgs : List IndexerMessage) : sentOf (msgs.map .send) = msgs := by
  induction msgs with
  | nil => rfl
  | cons m msgs ih => exact congrArg (m :: ·) ih

theorem sentOf_saves (saves : List ℕ) : sentOf (saves.map .save) = [] := by
  induction saves with
  | nil => rfl
  | cons height saves ih => exact ih

def returned (results : List (Except PollerError (List IndexerMessage))) : List IndexerMessage :=
  results.flatMap fun r => match r with
    | .ok msgs => msgs
    | .error _ => []

@[simp] theorem returned_nil : returned [] = [] := rfl

theorem returned_ok (results : List (Except PollerError (List IndexerMessage)))
    (msgs : List IndexerMessage) : returned (results ++ [.ok msgs]) = returned results ++ msgs := by
  simp [returned]

theorem returned_error (results : List (Except PollerError (List IndexerMessage)))
    (e : PollerError) : returned (results ++ [.error e]) = returned results := by
  simp [returned]

end Poller
end Fintrails
