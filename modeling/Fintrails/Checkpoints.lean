import Fintrails.TwoSources

/-! What `advance` keeps of its progress: the checkpoint, the height it was last given, and the
effects of that.  All of it is written at the end of a poll and none of it is read before,
so pollers that differ in it alone return the same. -/
namespace Fintrails
namespace Poller

variable {S C C' α : Type}

def withStore (p : Poller S C) (checkpoint : C') (lastSaved : Option ℕ) (effects : List Effect) :
    Poller S C' :=
  ⟨p.source,checkpoint,p.tracker,p.startBlock,lastSaved,p.reports,effects⟩

def resultWithStore (checkpoint : C') (lastSaved : Option ℕ) (effects : List Effect) :
    EStateM.Result PollerError (Poller S C) α → EStateM.Result PollerError (Poller S C') α
  | .ok a q => .ok a (q.withStore checkpoint lastSaved effects)
  | .error e q => .error e (q.withStore checkpoint lastSaved effects)

theorem fetch_withStore (call : S → Except SourceError α × S) (p : Poller S C) (c : C')
    (lastSaved : Option ℕ) (l : List Effect) :
    (fetch call : Method S C' α).run (p.withStore c lastSaved l) =
      resultWithStore c lastSaved l ((fetch call : Method S C α).run p) := by
  simp only [fetch,EStateM.run,withStore]
  rcases call p.source with ⟨_ | _,_⟩ <;> rfl

section Source

variable [BlockSource S]

theorem relates_withStore (c : C') (lastSaved : Option ℕ) (l : List Effect) :
    @Relates S S C C' _ _ (fun p p' => p' = p.withStore c lastSaved l)
      fun p p' x x' => p' = p.withStore c lastSaved l →
        x'.run p' = resultWithStore c lastSaved l (x.run p) where
  same := by
    rintro p _ rfl
    exact ⟨rfl,rfl⟩
  pure a _ hp := by
    subst hp
    rfl
  bind := by
    intro α β p p' x x' f f' h hf hp
    rw [EStateM.run_bind,EStateM.run_bind,h hp]
    cases x.run p with
    | ok a q => exact hf a q _ rfl rfl
    | error e q => rfl
  get h hp := by
    subst hp
    exact h rfl
  headNumber := by
    rintro p _ - rfl
    exact fetch_withStore _ _ _ _ _
  blockRef := by
    rintro p _ n - rfl
    exact fetch_withStore _ _ _ _ _
  transfers := by
    rintro p _ first last - rfl
    exact fetch_withStore _ _ _ _ _
  observe b _ hp := by
    subst hp
    rfl

/-- Before it persists, `advance` neither reads nor changes what it has persisted. -/
theorem collect_withStore (p : Poller S C) (c : C') (lastSaved : Option ℕ) (l : List Effect) :
    (collect : Method S C' (List IndexerMessage)).run (p.withStore c lastSaved l) =
      resultWithStore c lastSaved l ((collect : Method S C (List IndexerMessage)).run p) :=
  (relates_withStore c lastSaved l).collect rfl rfl

variable {p q : Poller S C} {msgs : List IndexerMessage} {e : PollerError}

theorem collect_ok (h : (collect : Method S C (List IndexerMessage)).run p = .ok msgs q) :
    q = q.withStore p.checkpoint p.lastSaved p.effects := by
  have hsame := collect_withStore p p.checkpoint p.lastSaved p.effects
  rw [h] at hsame
  exact (EStateM.Result.ok.inj (h.symm.trans hsame)).2

theorem collect_error (h : (collect : Method S C (List IndexerMessage)).run p = .error e q) :
    q = q.withStore p.checkpoint p.lastSaved p.effects := by
  have hsame := collect_withStore p p.checkpoint p.lastSaved p.effects
  rw [h] at hsame
  exact (EStateM.Result.error.inj (h.symm.trans hsame)).2

end Source

section Polls

variable [BlockSource S] [Checkpoint C] {p q : Poller S C} {msgs : List IndexerMessage}

theorem poll_of_error {e : PollerError}
    (h : (collect : Method S C (List IndexerMessage)).run p = .error e q) :
    poll p = (q,.error e) := by
  simp only [poll,advance,EStateM.run_bind,h]

theorem poll_of_unsaved (h : (collect : Method S C (List IndexerMessage)).run p = .ok msgs q)
    (hdue : q.dueSave = none) : poll p = (q,.ok msgs) := by
  simp only [poll,advance,EStateM.run_bind,h,EStateM.run_get,hdue,EStateM.run_pure]

theorem poll_of_saved (h : (collect : Method S C (List IndexerMessage)).run p = .ok msgs q)
    {height : ℕ} (hdue : q.dueSave = some height) {c : C}
    (hsave : Checkpoint.save height q.checkpoint = (.ok (),c)) :
    poll p = ({ q with
      checkpoint := c
      lastSaved := some height
      effects := q.effects ++ [.save height] },.ok msgs) := by
  have hrun : (save height : Method S C Unit).run q = .ok () { q with
      checkpoint := c
      lastSaved := some height
      effects := q.effects ++ [.save height] } := by
    simp only [save,EStateM.run,hsave]
  simp only [poll,advance,EStateM.run_bind,h,EStateM.run_get,hdue,hrun,EStateM.run_pure]

theorem poll_of_save_error (h : (collect : Method S C (List IndexerMessage)).run p = .ok msgs q)
    {height : ℕ} (hdue : q.dueSave = some height) {e : CheckpointError} {c : C}
    (hsave : Checkpoint.save height q.checkpoint = (.error e,c)) :
    poll p = ({ q with checkpoint := c },.error (.checkpoint e)) := by
  have hrun : (save height : Method S C Unit).run q =
      .error (.checkpoint e) { q with checkpoint := c } := by
    simp only [save,EStateM.run,hsave]
  simp only [poll,advance,EStateM.run_bind,h,EStateM.run_get,hdue,hrun]

theorem poll_withEffects (p : Poller S C) : ∃ saves : List ℕ, ∀ l,
    poll { p with effects := l } =
      ({ (poll p).1 with effects := l ++ saves.map .save },(poll p).2) := by
  have hcollect := collect_withStore p p.checkpoint p.lastSaved
  cases hrun : (collect : Method S C (List IndexerMessage)).run p with
  | error e q =>
    have hrun' : ∀ l, (collect : Method S C (List IndexerMessage)).run { p with effects := l } =
        .error e { q with effects := l } := fun l => by
      have hl := hcollect l
      rw [hrun] at hl
      rw [collect_error hrun]
      exact hl
    refine ⟨[],fun l => ?_⟩
    rw [poll_of_error hrun,poll_of_error (hrun' l)]
    simp
  | ok msgs q =>
    have hrun' : ∀ l, (collect : Method S C (List IndexerMessage)).run { p with effects := l } =
        .ok msgs { q with effects := l } := fun l => by
      have hl := hcollect l
      rw [hrun] at hl
      rw [collect_ok hrun]
      exact hl
    cases hdue : q.dueSave with
    | none =>
      refine ⟨[],fun l => ?_⟩
      rw [poll_of_unsaved hrun hdue,poll_of_unsaved (hrun' l) hdue]
      simp
    | some height =>
      rcases hsave : Checkpoint.save height q.checkpoint with ⟨e | ⟨⟩,c⟩
      · refine ⟨[],fun l => ?_⟩
        rw [poll_of_save_error hrun hdue hsave,poll_of_save_error (hrun' l) hdue hsave]
        simp
      · refine ⟨[height],fun l => ?_⟩
        rw [poll_of_saved hrun hdue hsave,poll_of_saved (hrun' l) hdue hsave]
        rfl

/-- One poll of the loop of `run`: the source has moved since the last. -/
def pollAfter (p : Poller S C) (move : S → S) :
    Poller S C × Except PollerError (List IndexerMessage) :=
  poll { p with source := move p.source }

theorem poll_of_ok (hsave : ∀ height (c : C), (Checkpoint.save height c).1 = .ok ())
    (h : (collect : Method S C (List IndexerMessage)).run p = .ok msgs q) :
    ∃ (c : C) (lastSaved : Option ℕ) (l : List Effect),
      poll p = (q.withStore c lastSaved l,.ok msgs) := by
  cases hdue : q.dueSave with
  | none => exact ⟨q.checkpoint,q.lastSaved,q.effects,poll_of_unsaved h hdue⟩
  | some height =>
    have hstored : Checkpoint.save height q.checkpoint =
        (.ok (),(Checkpoint.save height q.checkpoint).2) := Prod.ext (hsave height _) rfl
    exact ⟨_,_,_,poll_of_saved h hdue hstored⟩

theorem poll_withStore [Checkpoint C']
    (hsave : ∀ height (c : C), (Checkpoint.save height c).1 = .ok ())
    (hsave' : ∀ height (c : C'), (Checkpoint.save height c).1 = .ok ()) (p : Poller S C) (c : C')
    (lastSaved : Option ℕ) (l : List Effect) :
    ∃ (c' : C') (lastSaved' : Option ℕ) (l' : List Effect),
      poll (p.withStore c lastSaved l) =
        ((poll p).1.withStore c' lastSaved' l',(poll p).2) := by
  have hcollect := collect_withStore p c lastSaved l
  cases hrun : (collect : Method S C (List IndexerMessage)).run p with
  | error e q =>
    rw [hrun] at hcollect
    exact ⟨c,lastSaved,l,by rw [poll_of_error hrun,poll_of_error hcollect]⟩
  | ok msgs q =>
    rw [hrun] at hcollect
    obtain ⟨c₁,saved₁,l₁,hpoll⟩ := poll_of_ok hsave hrun
    obtain ⟨c₂,saved₂,l₂,hpoll'⟩ := poll_of_ok hsave' hcollect
    exact ⟨c₂,saved₂,l₂,by rw [hpoll,hpoll']; rfl⟩

theorem polls_withStore [Checkpoint C']
    (hsave : ∀ height (c : C), (Checkpoint.save height c).1 = .ok ())
    (hsave' : ∀ height (c : C'), (Checkpoint.save height c).1 = .ok ()) (p : Poller S C) (c : C')
    (lastSaved : Option ℕ) (l : List Effect) (moves : List (S → S)) :
    Machine.outputs pollAfter p moves =
        Machine.outputs pollAfter (p.withStore c lastSaved l) moves ∧
      ∃ (c' : C') (lastSaved' : Option ℕ) (l' : List Effect),
        Machine.final pollAfter (p.withStore c lastSaved l) moves =
          (Machine.final pollAfter p moves).withStore c' lastSaved' l' := by
  have hstep : ∀ (q : Poller S C) (q' : Poller S C') (move : S → S),
      (∃ (c : C') (lastSaved : Option ℕ) (l : List Effect), q' = q.withStore c lastSaved l) → True →
      (pollAfter q move).2 = (pollAfter q' move).2 ∧
        ∃ (c : C') (lastSaved : Option ℕ) (l : List Effect),
          (pollAfter q' move).1 = (pollAfter q move).1.withStore c lastSaved l := by
    rintro q _ move ⟨c,lastSaved,l,rfl⟩ -
    obtain ⟨c',lastSaved',l',hpoll⟩ :=
      poll_withStore hsave hsave' { q with source := move q.source } c lastSaved l
    have hmoved : pollAfter (q.withStore c lastSaved l) move = _ := hpoll
    rw [hmoved]
    exact ⟨rfl,c',lastSaved',l',rfl⟩
  have hguarded : Machine.Guarded (pollAfter (S:=S) (C:=C)) (fun _ _ => True) p moves :=
    Machine.guarded_of_forall fun _ _ _ => trivial
  exact Machine.simulation hstep ⟨c,lastSaved,l,rfl⟩ hguarded

/-- Which checkpoint a poller persists to, and what it holds, makes no difference to what any
number of polls return, as long as it stores what it is given.  So a poller that resumes
returns what one returns that starts above the persisted height and persists nothing. -/
theorem checkpoints_unobservable [Checkpoint C']
    (hsave : ∀ height (c : C), (Checkpoint.save height c).1 = .ok ())
    (hsave' : ∀ height (c : C'), (Checkpoint.save height c).1 = .ok ()) :
    (∀ (p : Poller S C) (c : C') (lastSaved : Option ℕ) (l : List Effect) (moves : List (S → S)),
      Machine.outputs pollAfter p moves =
          Machine.outputs pollAfter (p.withStore c lastSaved l) moves ∧
        ∃ (c' : C') (lastSaved' : Option ℕ) (l' : List Effect),
          Machine.final pollAfter (p.withStore c lastSaved l) moves =
            (Machine.final pollAfter p moves).withStore c' lastSaved' l') ∧
    ∀ (source : S) (checkpoint : C) (t : Tracker) (startBlock height : ℕ),
      Checkpoint.load checkpoint = .ok (some height) → height < 2^64-1 →
        ∃ p, resume source checkpoint t startBlock = .ok p ∧ ∀ moves,
          Machine.outputs pollAfter p moves =
            Machine.outputs pollAfter (new source t (height+1)) moves := by
  refine ⟨polls_withStore hsave hsave',fun source checkpoint t startBlock height hload hlt => ?_⟩
  have hresume := resume_eq source t startBlock hload (by simpa using hlt)
  refine ⟨_,hresume,fun moves => ?_⟩
  have hsame := polls_withStore (fun _ _ => rfl) hsave (new source t (height+1)) checkpoint
    (some height) [] moves
  exact hsame.1.symm

end Polls

/-- A poller that persists nothing, beside one over a checkpoint that has polled before, and one
that resumes from height 1: the chain grows and then loses its two newest blocks. -/
theorem checkpoints_unobservable_resumed :
    Machine.outputs pollAfter (new (Node.quiet (.linear 3 (by decide)))
        (Tracker.fresh 1 3 (by decide)) 2)
        [id,fun _ => Node.quiet (.linear 5 (by decide)),fun _ => Node.quiet (.linear 3 (by decide))] =
      Machine.outputs pollAfter ((new (Node.quiet (.linear 3 (by decide)))
        (Tracker.fresh 1 3 (by decide)) 2).withStore (InMemoryCheckpoint.mk (some 1)) (some 1) [])
        [id,fun _ => Node.quiet (.linear 5 (by decide)),fun _ => Node.quiet (.linear 3 (by decide))] ∧
    ∃ p, resume (Node.quiet (.linear 3 (by decide))) (InMemoryCheckpoint.mk (some 1))
        (Tracker.fresh 1 3 (by decide)) 0 = .ok p ∧ ∀ moves,
      Machine.outputs pollAfter p moves = Machine.outputs pollAfter
        (new (Node.quiet (.linear 3 (by decide))) (Tracker.fresh 1 3 (by decide)) 2) moves :=
  ⟨((checkpoints_unobservable (fun _ _ => rfl) (fun _ _ => rfl)).1 _ _ _ _ _).1,
    (checkpoints_unobservable (fun _ _ => rfl) (fun _ (_ : NoCheckpoint) => rfl)).2 _ _ _ 0 1 rfl
      (by decide)⟩

end Poller
end Fintrails
