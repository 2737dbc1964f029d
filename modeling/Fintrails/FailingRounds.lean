import Fintrails.RunEffects
import Fintrails.TwoSources

/-! A round of `run` whose source fails at one of its calls.  Beside the same round over a
node that answers every call, it takes the same steps up to that call; so the places
where it leaves the process are among those where a process can stop. -/
namespace Fintrails

/-- A node that answers a number of calls, and then none. -/
structure FailingNode where
  node : Node
  answers : ℕ

def FailingNode.answer {α : Type} (call : Node → Except SourceError α × Node) (s : FailingNode) :
    Except SourceError α × FailingNode :=
  match s.answers with
  | 0 => (.error (.rpc "unavailable"),s)
  | answers+1 => ((call s.node).1,⟨s.node,answers⟩)

instance : BlockSource FailingNode where
  headNumber := FailingNode.answer BlockSource.headNumber
  blockRef number := FailingNode.answer (BlockSource.blockRef number)
  transfers first last := FailingNode.answer (BlockSource.transfers first last)

namespace Poller

variable {C α β : Type}

def failing (p : Poller Node C) (answers : ℕ) : Poller FailingNode C :=
  ⟨⟨p.source,answers⟩,p.checkpoint,p.tracker,p.startBlock,p.lastSaved,p.reports,p.effects⟩

/-- Where `x` succeeds over a node, `y` over the failing node returns the same, or it fails
with some of the updates and none of the effects. -/
def CutsShort (p : Poller Node C) (answers : ℕ) (x : Method Node C α)
    (y : Method FailingNode C α) : Prop :=
  ∀ a q, x.run p = .ok a q → ∃ new, q.reports = p.reports ++ new ∧ q.effects = p.effects ∧
    ((∃ answers', y.run (p.failing answers) = .ok a (q.failing answers')) ∨
      ∃ e r, y.run (p.failing answers) = .error e r ∧ r.effects = p.effects ∧
        ∃ k, r.reports = p.reports ++ new.take k)

theorem cutsShort_pure (p : Poller Node C) (answers : ℕ) (a : α) :
    CutsShort p answers (pure a) (pure a) := by
  intro b q h
  obtain ⟨rfl,rfl⟩ := pure_ok h
  exact ⟨[],by simp,rfl,.inl ⟨answers,rfl⟩⟩

theorem CutsShort.bind {p : Poller Node C} {answers : ℕ} {x : Method Node C α}
    {y : Method FailingNode C α} {f : α → Method Node C β} {g : α → Method FailingNode C β}
    (h : CutsShort p answers x y)
    (hf : ∀ a q answers', CutsShort q answers' (f a) (g a)) :
    CutsShort p answers (x >>= f) (y >>= g) := by
  intro b r hrun
  obtain ⟨a,q,hx,hfa⟩ := bind_ok hrun
  obtain ⟨first,hreports,heffects,hy | ⟨e,s,hy,hs,k,hk⟩⟩ := h a q hx
  · obtain ⟨answers',hy⟩ := hy
    obtain ⟨rest,hreports',heffects',hcases⟩ := hf a q answers' b r hfa
    refine ⟨first ++ rest,by rw [hreports',hreports,List.append_assoc],
      heffects'.trans heffects,?_⟩
    rcases hcases with ⟨answers'',hg⟩ | ⟨e,s,hg,hs,k,hk⟩
    · exact .inl ⟨answers'',by rw [EStateM.run_bind,hy]; exact hg⟩
    · refine .inr ⟨e,s,by rw [EStateM.run_bind,hy]; exact hg,hs.trans heffects,first.length+k,?_⟩
      rw [hk,hreports,List.append_assoc,List.take_length_add_append]
  · obtain ⟨rest,hreports',heffects',_⟩ := hf a q 0 b r hfa
    refine ⟨first ++ rest,by rw [hreports',hreports,List.append_assoc],
      heffects'.trans heffects,.inr ⟨e,s,by rw [EStateM.run_bind,hy],hs,min k first.length,?_⟩⟩
    rw [hk,List.take_append_of_le_length (min_le_right _ _),← List.take_eq_take_min]

theorem cutsShort_get {p : Poller Node C} {answers : ℕ} {f : Poller Node C → Method Node C β}
    {g : Poller FailingNode C → Method FailingNode C β}
    (h : CutsShort p answers (f p) (g (p.failing answers))) :
    CutsShort p answers (get >>= f) (get >>= g) := h

theorem cutsShort_fetch (p : Poller Node C) (answers : ℕ)
    {call : Node → Except SourceError α × Node} (hcall : ∀ s, (call s).2 = s) :
    CutsShort p answers (fetch call) (fetch (FailingNode.answer call)) := by
  intro a q h
  obtain ⟨hanswer,rfl⟩ := fetch_ok h
  rw [hcall]
  refine ⟨[],by simp,rfl,?_⟩
  cases answers with
  | zero => exact .inr ⟨_,_,rfl,rfl,0,by simp [failing]⟩
  | succ answers =>
    refine .inl ⟨answers,?_⟩
    simp [fetch,EStateM.run,FailingNode.answer,failing,hanswer]

theorem cutsShort_observe (p : Poller Node C) (answers : ℕ) (b : BlockRef) :
    CutsShort p answers (observe b) (observe b) := by
  intro u q h
  rw [observed_singleton] at h
  cases h
  exact ⟨[(p.tracker.observe b).2],rfl,rfl,.inl ⟨answers,rfl⟩⟩

theorem relates_cutsShort : Relates (fun (p : Poller Node C) p' => ∃ answers, p' = p.failing answers)
    fun p p' x y => ∀ answers, p' = p.failing answers → CutsShort p answers x y where
  same := by
    rintro p _ ⟨answers,rfl⟩
    exact ⟨rfl,rfl⟩
  pure a _ answers _ := cutsShort_pure _ answers a
  bind h hf answers hp := (h answers hp).bind fun a q answers' => hf a q _ ⟨answers',rfl⟩ answers' rfl
  get h answers hp := by
    subst hp
    exact cutsShort_get (h answers rfl)
  headNumber _ answers _ := cutsShort_fetch _ answers fun _ => rfl
  blockRef n _ answers _ := by
    refine cutsShort_fetch _ answers fun s => ?_
    simp only [BlockSource.blockRef]
    split <;> rfl
  transfers _ _ _ answers _ := cutsShort_fetch _ answers fun _ => rfl
  observe b _ answers _ := cutsShort_observe _ answers b

theorem cutsShort_collect (p : Poller Node C) (answers : ℕ) :
    CutsShort p answers collect collect :=
  relates_cutsShort.collect ⟨answers,rfl⟩ answers rfl

section Rounds

variable [Checkpoint C]

/-- Where a failing source ends a round, the round could have been stopped. -/
theorem failing_round_stops {p : Poller Node C} (hs : p.tracker.Sound)
    (hsave : ∀ height (c : C), (Checkpoint.save height c).1 = .ok ()) (s : Node) (answers : ℕ)
    {e : PollerError} {r : Poller FailingNode C}
    (h : (round : Method FailingNode C Unit).run (failing { p with source := s } answers) =
      .error e r) :
    ∃ fed ≤ (p.tracker.plan s p.startBlock).length,
      p.stopAt s (.feeding fed) = ⟨r.reports,r.effects⟩ := by
  obtain ⟨new,hnew,_,hcases⟩ := cutsShort_collect { p with source := s } answers _ _
    (collect_run { p with source := s } hs)
  have hupdates : new = p.updates (p.tracker.plan s p.startBlock) :=
    (List.append_cancel_left hnew).symm
  rcases hcases with ⟨answers',hok⟩ | ⟨e',r',herr,heffects,k,hk⟩
  · -- the source has answered every call of the round, and nothing else can fail
    simp only [round,advance,EStateM.run_bind,hok,EStateM.run_get] at h
    cases hdue : (failing (observed { p with source := s } (p.tracker.plan s p.startBlock))
        answers').dueSave with
    | none =>
      simp only [hdue,EStateM.run_pure,sendAll_run] at h
      cases h
    | some height =>
      simp only [hdue,EStateM.run_bind,save_run hsave,EStateM.run_pure,sendAll_run] at h
      cases h
  · simp only [round,advance,EStateM.run_bind,herr] at h
    cases h
    refine ⟨min k (p.tracker.plan s p.startBlock).length,min_le_right _ _,?_⟩
    have hfed : new.take k =
        p.updates ((p.tracker.plan s p.startBlock).take (min k (p.tracker.plan s p.startBlock).length)) := by
      rw [hupdates,← List.take_eq_take_min]
      exact Machine.outputs_take _ _ _
    rw [stopAt_feeding hs hsave,hk,heffects,hfed]

end Rounds

end Poller
end Fintrails
