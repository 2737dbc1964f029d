import Fintrails.Checkpoints

/-! The loop of `run`.  It sends what a poll returned message by message, and ends at the
first message the consumer no longer takes, or at the first poll that fails.  What becomes
of the source while the loop sleeps is up to the source. -/
namespace Fintrails

/-- The receiving end of the channel takes so many messages more before the consumer drops
it; with `none` it is never dropped. -/
structure Receiver where
  room : Option ℕ
  deriving DecidableEq, Repr

namespace Receiver

variable {α : Type}

def take (rx : Receiver) : Option Receiver :=
  match rx.room with
  | none => some rx
  | some 0 => none
  | some (room+1) => some ⟨some room⟩

def accepted (rx : Receiver) (msgs : List α) : List α :=
  match rx.room with
  | none => msgs
  | some room => msgs.take room

def after (rx : Receiver) (n : ℕ) : Option Receiver :=
  match rx.room with
  | none => some rx
  | some room => if n ≤ room then some ⟨some (room-n)⟩ else none

theorem accepted_nil (rx : Receiver) : rx.accepted ([] : List α) = [] := by
  cases h : rx.room <;> simp [accepted,h]

theorem after_zero (rx : Receiver) : rx.after 0 = some rx := by
  obtain ⟨_ | room⟩ := rx <;> simp [after]

theorem accepted_of_after {rx rx' : Receiver} {msgs : List α} (h : rx.after msgs.length = some rx') :
    rx.accepted msgs = msgs := by
  obtain ⟨_ | room⟩ := rx
  · rfl
  · simp only [after] at h
    split at h
    · rename_i hle
      exact List.take_of_length_le hle
    · cases h

theorem accepted_append_of_after {rx rx' : Receiver} {msgs more : List α}
    (h : rx.after msgs.length = some rx') :
    rx.accepted (msgs++more) = msgs ++ rx'.accepted more := by
  obtain ⟨_ | room⟩ := rx
  · cases h
    rfl
  · simp only [after] at h
    split at h
    · rename_i hle
      cases h
      simp only [accepted]
      rw [List.take_append,List.take_of_length_le hle]
    · cases h

theorem exists_accepted_append (rx : Receiver) (msgs : List α) :
    ∃ rest, rx.accepted msgs ++ rest = msgs := by
  obtain ⟨_ | room⟩ := rx
  · exact ⟨[],List.append_nil _⟩
  · exact ⟨msgs.drop room,List.take_append_drop _ _⟩

theorem accepted_append_of_dropped {rx : Receiver} {msgs : List α} (more : List α)
    (h : rx.after msgs.length = none) : rx.accepted (msgs++more) = rx.accepted msgs := by
  obtain ⟨_ | room⟩ := rx
  · cases h
  · simp only [after] at h
    split at h
    · cases h
    · exact List.take_append_of_le_length (by omega)

theorem after_add (rx : Receiver) (n m : ℕ) :
    rx.after (n+m) = (rx.after n).bind fun rx' => rx'.after m := by
  obtain ⟨_ | room⟩ := rx
  · rfl
  · simp only [after]
    by_cases hn : n ≤ room
    · simp only [hn,if_true,Option.bind_some,show m ≤ room-n ↔ n+m ≤ room by omega,
        Nat.sub_add_eq]
    · simp only [hn,if_false,show ¬n+m ≤ room by omega,Option.bind_none]

theorem take_eq_after (rx : Receiver) : rx.take = rx.after 1 := by
  obtain ⟨_ | _ | room⟩ := rx <;> simp [take,after]

end Receiver

namespace Poller

variable {S C α β : Type}

/-- The inner loop of `run`: `none` once a message was not taken. -/
def forward : List IndexerMessage → Receiver → Method S C (Option Receiver)
  | [], rx => pure (some rx)
  | m::ms, rx =>
    match rx.take with
    | none => pure none
    | some rx => do
      send m
      forward ms rx

theorem forward_run (p : Poller S C) (msgs : List IndexerMessage) (rx : Receiver) :
    (forward msgs rx : Method S C (Option Receiver)).run p =
      .ok (rx.after msgs.length)
        { p with effects := p.effects ++ (rx.accepted msgs).map .send } := by
  induction msgs generalizing p rx with
  | nil => simp [forward,Receiver.accepted_nil,Receiver.after_zero]
  | cons m msgs ih =>
    have hsend : (send m : Method S C Unit).run p =
        .ok () { p with effects := p.effects ++ [.send m] } := rfl
    have hafter := rx.after_add 1 msgs.length
    rw [Nat.add_comm,← Receiver.take_eq_after] at hafter
    rw [List.length_cons,hafter]
    cases htake : rx.take with
    | none =>
      have hdropped := @Receiver.accepted_append_of_dropped _ rx [m] msgs
        (rx.take_eq_after.symm.trans htake)
      have hnone : rx.accepted [m] = [] := by
        obtain ⟨_ | _ | room⟩ := rx <;> simp_all [Receiver.take,Receiver.accepted]
      rw [List.singleton_append,hnone] at hdropped
      simp [forward,htake,hdropped]
    | some rx' =>
      have hmore := @Receiver.accepted_append_of_after _ rx rx' [m] msgs
        (rx.take_eq_after.symm.trans htake)
      rw [List.singleton_append,List.singleton_append] at hmore
      simp [forward,htake,hsend,ih,hmore]

def ended : EStateM.Result PollerError (Poller S C) α → (α ⊕ PollerError) × Poller S C
  | .ok a q => (.inl a,q)
  | .error e q => (.inr e,q)

theorem returned_cons (msgs : List IndexerMessage)
    (results : List (Except PollerError (List IndexerMessage))) :
    returned (.ok msgs :: results) = msgs ++ returned results := rfl

section Run

variable [BlockSource S] [Checkpoint C]

/-- The loop of `run`, for as many rounds as there are moves of the source between them.
`none` is the return that a dropped receiver causes. -/
def run : List (S → S) → Receiver → Method S C (Option Receiver)
  | [], rx => pure (some rx)
  | move::moves, rx => do
    modify fun p => { p with source := move p.source }
    let msgs ← advance
    match ← forward msgs rx with
    | none => pure none
    | some rx => run moves rx

theorem pollAfter_withEffects (p : Poller S C) (move : S → S) : ∃ saves : List ℕ, ∀ l,
    pollAfter { p with effects := l } move =
      ({ (pollAfter p move).1 with effects := l ++ saves.map .save },(pollAfter p move).2) :=
  poll_withEffects { p with source := move p.source }

theorem polls_withEffects (p : Poller S C) (l : List Effect) (moves : List (S → S)) :
    Machine.outputs pollAfter { p with effects := l } moves = Machine.outputs pollAfter p moves ∧
      ∃ l', Machine.final pollAfter { p with effects := l } moves =
        { Machine.final pollAfter p moves with effects := l' } := by
  have hstep : ∀ (q q' : Poller S C) (move : S → S), (∃ l, q' = { q with effects := l }) → True →
      (pollAfter q move).2 = (pollAfter q' move).2 ∧
        ∃ l, (pollAfter q' move).1 = { (pollAfter q move).1 with effects := l } := by
    rintro q _ move ⟨l,rfl⟩ -
    obtain ⟨saves,hsaves⟩ := pollAfter_withEffects q move
    rw [hsaves l]
    exact ⟨rfl,_,rfl⟩
  have hguarded : Machine.Guarded (pollAfter (S:=S) (C:=C)) (fun _ _ => True) p moves :=
    Machine.guarded_of_forall fun _ _ _ => trivial
  have hrun := Machine.simulation hstep (t:={ p with effects := l }) ⟨l,rfl⟩ hguarded
  exact ⟨hrun.1.symm,hrun.2⟩

def AllReturned (results : List (Except PollerError (List IndexerMessage))) : Prop :=
  ∀ r ∈ results, ∃ msgs, r = .ok msgs

/-- How a call of `run` stands that has polled after the moves `begun` and not yet after
those that are `left`: it goes on, the last poll returned more than was taken, or the last
poll failed. -/
inductive Stands (p : Poller S C) (rx : Receiver) :
    (begun left : List (S → S)) → Option Receiver ⊕ PollerError → Prop
  | goesOn {begun : List (S → S)} {rx' : Receiver}
    (hall : AllReturned (Machine.outputs pollAfter p begun))
    (htaken : rx.after (returned (Machine.outputs pollAfter p begun)).length = some rx') :
    Stands p rx begun [] (.inl (some rx'))
  | dropped {init left : List (S → S)} {last : S → S} {rx' : Receiver}
    (hall : AllReturned (Machine.outputs pollAfter p (init ++ [last])))
    (htaken : rx.after (returned (Machine.outputs pollAfter p init)).length = some rx')
    (hdropped : rx.after (returned (Machine.outputs pollAfter p (init ++ [last]))).length = none) :
    Stands p rx (init ++ [last]) left (.inl none)
  | failed {init left : List (S → S)} {last : S → S} {rx' : Receiver} {e : PollerError}
    (hall : AllReturned (Machine.outputs pollAfter p init))
    (htaken : rx.after (returned (Machine.outputs pollAfter p init)).length = some rx')
    (hfailed : (pollAfter (Machine.final pollAfter p init) last).2 = .error e) :
    Stands p rx (init ++ [last]) left (.inr e)

theorem sentOf_pollAfter (p : Poller S C) (move : S → S) :
    sentOf (pollAfter p move).1.effects = sentOf p.effects := by
  obtain ⟨saves,hsaves⟩ := pollAfter_withEffects p move
  have hnew : (pollAfter p move).1.effects = p.effects ++ saves.map .save :=
    congrArg (fun r => r.1.effects) (hsaves p.effects)
  rw [hnew,sentOf_append,sentOf_saves,List.append_nil]

theorem Stands.cons {p p₁ : Poller S C} {rx rx₁ : Receiver} {move : S → S}
    {msgs : List IndexerMessage} {begun left : List (S → S)}
    {r : Option Receiver ⊕ PollerError} {l : List Effect}
    (hpoll : pollAfter p move = (p₁,.ok msgs)) (htaken : rx.after msgs.length = some rx₁)
    (h : Stands { p₁ with effects := l } rx₁ begun left r) :
    Stands p rx (move::begun) left r := by
  have houtputs : ∀ moves, Machine.outputs pollAfter p (move::moves) =
      .ok msgs :: Machine.outputs pollAfter { p₁ with effects := l } moves := by
    intro moves
    rw [Machine.outputs_cons,hpoll,(polls_withEffects p₁ l moves).1]
  have hall : ∀ {moves}, AllReturned (Machine.outputs pollAfter { p₁ with effects := l } moves) →
      AllReturned (Machine.outputs pollAfter p (move::moves)) := by
    intro moves hmoves r hr
    rw [houtputs] at hr
    rcases List.mem_cons.mp hr with rfl | hr
    · exact ⟨msgs,rfl⟩
    · exact hmoves r hr
  have hafter : ∀ moves, rx.after (returned (Machine.outputs pollAfter p (move::moves))).length =
      rx₁.after (returned (Machine.outputs pollAfter { p₁ with effects := l } moves)).length := by
    intro moves
    rw [houtputs,returned_cons,List.length_append,rx.after_add,htaken]
    rfl
  cases h with
  | goesOn hreturned htaken' => exact .goesOn (hall hreturned) ((hafter _).trans htaken')
  | @dropped init _ last rx' hreturned htaken' hdropped =>
    have hthen : (move::init) ++ [last] = move::(init ++ [last]) := rfl
    rw [← hthen]
    exact .dropped (hall hreturned) ((hafter _).trans htaken') ((hafter _).trans hdropped)
  | @failed init _ last rx' e hreturned htaken' hfailed =>
    have hthen : (move::init) ++ [last] = move::(init ++ [last]) := rfl
    rw [← hthen]
    refine .failed (hall hreturned) ((hafter _).trans htaken') ?_
    obtain ⟨l',hfinal⟩ := (polls_withEffects p₁ l init).2
    obtain ⟨saves,hsaves⟩ := pollAfter_withEffects (Machine.final pollAfter p₁ init) last
    rw [hfinal,hsaves l'] at hfailed
    rw [Machine.final,hpoll]
    exact hfailed

theorem run_cons (p : Poller S C) (move : S → S) (moves : List (S → S)) (rx : Receiver) :
    (run (move::moves) rx : Method S C (Option Receiver)).run p =
      match pollAfter p move with
      | (q,.error e) => .error e q
      | (q,.ok msgs) =>
        match rx.after msgs.length with
        | none => .ok none { q with effects := q.effects ++ (rx.accepted msgs).map .send }
        | some rx' => (run moves rx' : Method S C (Option Receiver)).run
          { q with effects := q.effects ++ (rx.accepted msgs).map .send } := by
  have hmove : (modify fun p => { p with source := move p.source } : Method S C PUnit).run p =
      .ok ⟨⟩ { p with source := move p.source } := rfl
  simp only [run,EStateM.run_bind,hmove,pollAfter,poll]
  cases (advance : Method S C (List IndexerMessage)).run { p with source := move p.source } with
  | ok msgs q =>
    simp only [forward_run]
    cases rx.after msgs.length <;> rfl
  | error e q => rfl

theorem run_cons_error {p q : Poller S C} {move : S → S} {e : PollerError}
    (h : pollAfter p move = (q,.error e)) (moves : List (S → S)) (rx : Receiver) :
    (run (move::moves) rx : Method S C (Option Receiver)).run p = .error e q := by
  rw [run_cons,h]

theorem run_cons_ok {p q : Poller S C} {move : S → S} {msgs : List IndexerMessage}
    (h : pollAfter p move = (q,.ok msgs)) (moves : List (S → S)) (rx : Receiver) :
    (run (move::moves) rx : Method S C (Option Receiver)).run p =
      match rx.after msgs.length with
      | none => .ok none { q with effects := q.effects ++ (rx.accepted msgs).map .send }
      | some rx' => (run moves rx' : Method S C (Option Receiver)).run
        { q with effects := q.effects ++ (rx.accepted msgs).map .send } := by
  rw [run_cons,h]

/-- Over any source and any checkpoint, and whatever becomes of the source between its
rounds: `run` goes on as long as polls succeed and their messages are taken, and what the
consumer has received is what it took of all that the polls returned, in order. -/
theorem run_law (p : Poller S C) (moves : List (S → S)) (rx : Receiver) :
    ∃ begun left l, moves = begun ++ left ∧
      Stands p rx begun left
        (ended ((run moves rx : Method S C (Option Receiver)).run p)).1 ∧
      (ended ((run moves rx : Method S C (Option Receiver)).run p)).2 =
        { Machine.final pollAfter p begun with effects := l } ∧
      sentOf l = sentOf p.effects ++
        rx.accepted (returned (Machine.outputs pollAfter p begun)) := by
  induction moves generalizing p rx with
  | nil =>
    refine ⟨[],[],p.effects,rfl,.goesOn (by simp [AllReturned]) rx.after_zero,rfl,?_⟩
    simp [Receiver.accepted_nil]
  | cons move moves ih =>
    have hsent := sentOf_pollAfter p move
    rcases hpoll : pollAfter p move with ⟨p₁,answer⟩
    rw [hpoll] at hsent
    cases answer with
    | error e =>
      rw [run_cons_error hpoll]
      have hstands : Stands p rx ([]++[move]) moves (.inr e) := .failed (by simp [AllReturned])
        rx.after_zero (by rw [Machine.final,hpoll])
      refine ⟨[move],moves,p₁.effects,rfl,hstands,by rw [Machine.final,hpoll]; rfl,?_⟩
      simp [hpoll,returned,Receiver.accepted_nil,hsent]
    | ok msgs =>
      have houtputs : Machine.outputs pollAfter p [move] = [.ok msgs] := by simp [hpoll]
      rw [run_cons_ok hpoll]
      cases hafter : rx.after msgs.length with
      | none =>
        have hstands : Stands p rx ([]++[move]) moves (.inl none) := by
          refine .dropped ?_ rx.after_zero ?_ <;> rw [List.nil_append,houtputs]
          · simp [AllReturned]
          · simpa [returned] using hafter
        refine ⟨[move],moves,_,rfl,hstands,by rw [Machine.final,hpoll]; rfl,?_⟩
        rw [sentOf_append,sentOf_sends,hsent,houtputs]
        simp [returned]
      | some rx₁ =>
        obtain ⟨begun,left,l,rfl,hstands,hfinal,hsentl⟩ := ih
          { p₁ with effects := p₁.effects ++ (rx.accepted msgs).map .send } rx₁
        have hpolls := polls_withEffects p₁ (p₁.effects ++ (rx.accepted msgs).map .send) begun
        refine ⟨move::begun,left,l,rfl,hstands.cons hpoll hafter,?_,?_⟩
        · obtain ⟨l',hl'⟩ := hpolls.2
          simp only [hfinal]
          rw [hl',Machine.final,hpoll]
        · rw [hsentl,sentOf_append,sentOf_sends,hsent,hpolls.1,Machine.outputs_cons,hpoll,
            returned_cons,Receiver.accepted_append_of_after hafter,
            Receiver.accepted_of_after hafter,List.append_assoc]

end Run

end Poller
end Fintrails
