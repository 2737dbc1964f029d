import Fintrails.Reorgs

/-! The loop of `run` as the sequence of its visible effects.  A round persists before
it sends, and after a reorg it confirms anew below what is persisted.  So a process
that stops inside a round may have persisted a height whose transfers it has not sent,
and a process that resumes there never sends them.  Between rounds the transfers of the
blocks that stand reported are those that stand sent. -/
namespace Fintrails
namespace Poller

variable {C : Type}

theorem sendAll_run {S : Type} (p : Poller S C) (msgs : List IndexerMessage) :
    (sendAll msgs : Method S C Unit).run p =
      .ok () { p with effects := p.effects ++ msgs.map .send } := by
  induction msgs generalizing p with
  | nil => simp [sendAll]
  | cons m msgs ih =>
    have hsend : (send m : Method S C Unit).run p =
        .ok () { p with effects := p.effects ++ [.send m] } := rfl
    simp only [sendAll,EStateM.run_bind,hsend,ih,List.append_assoc,List.singleton_append,
      List.map_cons]

section Rounds

variable [Checkpoint C]

/-- One round of `run` over what the node has become by then, with its visible effects
in the order in which they happen. -/
def runRound (p : Poller Node C) (s : Node) : Poller Node C × List Effect :=
  match (round : Method Node C Unit).run { p with source := s } with
  | .ok _ q => (q,q.effects.drop p.effects.length)
  | .error _ q => (q,q.effects.drop p.effects.length)

def roundMessages (p : Poller Node C) (s : Node) : List IndexerMessage :=
  (p.updates (p.tracker.plan s p.startBlock)).flatMap s.messages

def saves (p : Poller Node C) (s : Node) : List Effect :=
  match (p.observed (p.tracker.plan s p.startBlock)).dueSave with
  | some height => [.save height]
  | none => []

theorem settled_effects (p : Poller Node C) (s : Node) :
    (settled { p with source := s } (p.tracker.plan s p.startBlock)).effects =
      p.effects ++ p.saves s := by
  have hdue : (observed { p with source := s } (p.tracker.plan s p.startBlock)).dueSave =
      (p.observed (p.tracker.plan s p.startBlock)).dueSave := rfl
  simp only [settled,saves,hdue]
  cases (p.observed (p.tracker.plan s p.startBlock)).dueSave <;> simp [observed]

theorem runRound_eq (p : Poller Node C) (s : Node) (hs : p.tracker.Sound)
    (hsave : ∀ height (c : C), (Checkpoint.save height c).1 = .ok ()) :
    p.runRound s =
      ({ settled { p with source := s } (p.tracker.plan s p.startBlock) with
          effects := p.effects ++ (p.saves s ++ (p.roundMessages s).map .send) },
        p.saves s ++ (p.roundMessages s).map .send) := by
  have hrun := advance_run { p with source := s } hs hsave
  have heffects := settled_effects p s
  simp only [runRound,round,EStateM.run_bind,hrun,sendAll_run,heffects,List.append_assoc,
    List.drop_left]
  rfl

/-- What a stopped process leaves: the updates its tracker had returned, and its effects. -/
structure Stopped where
  reports : List TrackerUpdate
  effects : List Effect

/-- Where in a round a process stops: inside `advance`, with so many blocks fed and nothing
persisted yet, or after it, with so many messages still to send. -/
inductive Halt
  | feeding (fed : ℕ)
  | sending (left : ℕ)
  deriving DecidableEq, Repr

def Halt.fed (plan : List BlockRef) : Halt → List BlockRef
  | .feeding fed => plan.take fed
  | .sending _ => plan

def stopAt (p : Poller Node C) (s : Node) : Halt → Stopped
  | .feeding fed => ⟨(p.tick s).1.reports.take (p.reports.length+fed),p.effects⟩
  | .sending left =>
    let msgs := returned [(p.tick s).2]
    ⟨(p.tick s).1.reports,(p.tick s).1.effects ++ (msgs.take (msgs.length-left)).map .send⟩

theorem stopAt_feeding {p : Poller Node C} (hs : p.tracker.Sound)
    (hsave : ∀ height (c : C), (Checkpoint.save height c).1 = .ok ()) (s : Node) (fed : ℕ) :
    p.stopAt s (.feeding fed) =
      ⟨p.reports ++ p.updates ((p.tracker.plan s p.startBlock).take fed),p.effects⟩ := by
  rw [stopAt,tick_eq p s hs hsave,settled_reports,List.take_length_add_append]
  congr 2
  exact Machine.outputs_take _ _ _

theorem stopAt_sending {p : Poller Node C} (hs : p.tracker.Sound)
    (hsave : ∀ height (c : C), (Checkpoint.save height c).1 = .ok ()) (s : Node) (left : ℕ) :
    p.stopAt s (.sending left) =
      ⟨p.reports ++ p.updates (p.tracker.plan s p.startBlock),p.effects ++ (p.saves s ++
        ((p.roundMessages s).take ((p.roundMessages s).length-left)).map .send)⟩ := by
  have hmsgs : returned [(p.tick s).2] = p.roundMessages s := by
    rw [tick_eq p s hs hsave]
    exact List.append_nil _
  rw [stopAt,hmsgs,tick_eq p s hs hsave,settled_reports,settled_effects,List.append_assoc]
  rfl

/-- After any number of its effects a round can be stopped. -/
theorem exists_stopAt {p : Poller Node C} (hs : p.tracker.Sound)
    (hsave : ∀ height (c : C), (Checkpoint.save height c).1 = .ok ()) (s : Node) (k : ℕ) :
    ∃ halt, p.stopAt s halt =
      ⟨(p.runRound s).1.reports,p.effects ++ (p.runRound s).2.take k⟩ := by
  have hreports : (p.runRound s).1.reports =
      p.reports ++ p.updates (p.tracker.plan s p.startBlock) := by
    rw [runRound_eq p s hs hsave]
    exact settled_reports _ _
  have htake : ∀ k, (p.roundMessages s).take
      ((p.roundMessages s).length-((p.roundMessages s).length-k)) = (p.roundMessages s).take k := by
    intro k
    rw [List.take_eq_take_min,@List.take_eq_take_min _ _ k]
    congr 1
    omega
  rw [hreports,runRound_eq p s hs hsave]
  cases k with
  | zero =>
    refine ⟨.feeding (p.tracker.plan s p.startBlock).length,?_⟩
    rw [stopAt_feeding hs hsave,List.take_length,List.take_zero,List.append_nil]
  | succ k =>
    have hsaves : p.saves s = [] ∨ ∃ height, p.saves s = [.save height] := by
      unfold saves
      split
      · exact .inr ⟨_,rfl⟩
      · exact .inl rfl
    rcases hsaves with hnone | ⟨height,hsome⟩
    · refine ⟨.sending ((p.roundMessages s).length-(k+1)),?_⟩
      rw [stopAt_sending hs hsave,htake,hnone,List.nil_append,List.nil_append,List.map_take]
    · refine ⟨.sending ((p.roundMessages s).length-k),?_⟩
      rw [stopAt_sending hs hsave,htake,hsome,List.singleton_append,List.singleton_append,
        List.take_succ_cons,List.map_take]

/-- By then the round has confirmed the block numbered `n`, and the height persisted covers it.
Once the round has saved, that needs no saying. -/
def AtRisk (p : Poller Node C) (startBlock : ℕ) (s : Node) (halt : Halt) (n : ℕ) : Prop :=
  startBlock ≤ n ∧ (∃ first ∈ (p.tracker.plan s p.startBlock).head?, p.tracker.pulled first ≤ n) ∧
    (∃ top ∈ (halt.fed (p.tracker.plan s p.startBlock)).getLast?,
      n+p.tracker.confirmations ≤ top.number) ∧
    match halt with
    | .feeding _ => ∃ height ∈ p.lastSaved, n ≤ height
    | .sending _ => True

instance atRiskDecidable (p : Poller Node C) (startBlock : ℕ) (s : Node) (halt : Halt) (n : ℕ) :
    Decidable (p.AtRisk startBlock s halt n) := by
  cases halt <;> unfold AtRisk <;> infer_instance

/-- The round is over, or no block at risk holds a transfer. -/
def NothingAtRisk (p : Poller Node C) (startBlock : ℕ) (s : Node) (halt : Halt) : Prop :=
  halt = .sending 0 ∨
    ∀ n ≤ s.chain.height, p.AtRisk startBlock s halt n → s.events (s.chain.block n) = []

instance nothingAtRiskDecidable (p : Poller Node C) (startBlock : ℕ) (s : Node) (halt : Halt) :
    Decidable (p.NothingAtRisk startBlock s halt) :=
  inferInstanceAs (Decidable (_ ∨ ∀ n ≤ s.chain.height, p.AtRisk startBlock s halt n →
    s.events (s.chain.block n) = []))

end Rounds

/-- The height persisted after some effects. -/
def persisted (before : Option ℕ) (effects : List Effect) : Option ℕ :=
  effects.foldl (fun height e => match e with
    | .save new => some new
    | .send _ => height) before

theorem persisted_append (before : Option ℕ) (effects new : List Effect) :
    persisted before (effects++new) = persisted (persisted before effects) new := by
  simp [persisted]

theorem persisted_sends (before : Option ℕ) (msgs : List IndexerMessage) :
    persisted before (msgs.map .send) = before := by
  induction msgs with
  | nil => rfl
  | cons m msgs ih => exact ih

/-- The blocks from the start block to the persisted height. -/
def Stopped.Covers (startBlock : ℕ) (before : Option ℕ) (stop : Stopped) (b : BlockRef) : Prop :=
  startBlock ≤ b.number ∧ ∃ height ∈ persisted before stop.effects, b.number ≤ height

section Safety

variable [Checkpoint C]

variable (C)

end Safety

theorem sent_round {W : World} {p : Poller Node C} (h : p.tracker.Inhabits W)
    {s : Node} (hs : W.Serves s) :
    ∀ u ∈ p.updates (p.tracker.plan s p.startBlock), ∀ b ∈ u.confirmed, ∀ e ∈ W.events b,
      Effect.send (.confirmed e) ∈ (p.roundMessages s).map .send := by
  intro u hu b hb e he
  have hserved := ((h.plan hs p.startBlock).2 u hu).1
  refine List.mem_map_of_mem (List.mem_flatMap.mpr ⟨u,hu,List.mem_append_right _ ?_⟩)
  refine List.mem_map_of_mem ?_
  rw [hserved,hs.1]
  exact List.mem_flatMap.mpr ⟨b,hb,he⟩

section Runs

variable {W : World} {before : Option ℕ} {p : Poller Node C}

/-- Between rounds every transfer of every reported block has been sent, the transfers of the
blocks that stand reported are those that stand, and what is persisted is what the poller has
last saved. -/
structure Sends (W : World) (before : Option ℕ) (p : Poller Node C) : Prop where
  inhabits : p.tracker.Inhabits W
  sent : ∀ u ∈ p.reports, ∀ b ∈ u.confirmed, ∀ e ∈ W.events b,
    Effect.send (.confirmed e) ∈ p.effects
  stands : standingEvents (sentOf p.effects) = (reported p.reports).flatMap W.events
  saved : persisted before p.effects = p.lastSaved

theorem sentOf_round (p : Poller Node C) (s : Node) (msgs : List IndexerMessage) :
    sentOf (p.effects ++ (p.saves s ++ msgs.map .send)) = sentOf p.effects ++ msgs := by
  have hsaves : sentOf (p.saves s) = [] := by
    unfold saves
    split <;> rfl
  rw [sentOf_append,sentOf_append,sentOf_sends,hsaves,List.nil_append]

variable [Checkpoint C]

theorem lastSaved_settled (p : Poller Node C) (s : Node) :
    (settled { p with source := s } (p.tracker.plan s p.startBlock)).lastSaved =
      persisted p.lastSaved (p.saves s) := by
  have hdue : (observed { p with source := s } (p.tracker.plan s p.startBlock)).dueSave =
      (p.observed (p.tracker.plan s p.startBlock)).dueSave := rfl
  simp only [settled,saves,hdue]
  cases (p.observed (p.tracker.plan s p.startBlock)).dueSave <;> rfl

theorem Sends.runRound (h : Sends W before p)
    (hsave : ∀ height (c : C), (Checkpoint.save height c).1 = .ok ()) {s : Node}
    (hs : W.Serves s) : Sends W before (Poller.runRound p s).1 := by
  have hround := sent_round h.inhabits hs
  obtain ⟨hinhabits,hserved⟩ := h.inhabits.plan hs p.startBlock
  rw [runRound_eq p s h.inhabits.sound hsave]
  refine ⟨by simpa using hinhabits,?_,?_,?_⟩
  · intro u hu b hb e he
    rw [settled_reports] at hu
    rcases List.mem_append.mp hu with hu | hu
    · exact List.mem_append_left _ (h.sent u hu b hb e he)
    · exact List.mem_append_right _ (List.mem_append_right _ (hround u hu b hb e he))
  · have hmsgs := standingFrom_updates (fun u hu => (hserved u hu).1)
      (standingEvents (sentOf p.effects))
    rw [settled_reports,← standing_transfers_eq,sentOf_round,standingEvents_append,List.map_append,
      Standing.standing_append,standing_transfers_eq,← h.stands,← hs.1]
    exact hmsgs
  · change persisted before (p.effects ++ (p.saves s ++ (p.roundMessages s).map .send)) = _
    rw [persisted_append,persisted_append,persisted_sends,h.saved]
    exact (lastSaved_settled p s).symm

end Runs

end Poller
end Fintrails
