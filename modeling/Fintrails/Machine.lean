import Mathlib.Data.List.Basic
import Mathlib.Tactic.Common

/-! Deterministic machines that take one input and give one output a step, and
the two rules by which a fact about one step becomes a fact about a whole run:
an invariant over the history so far, and a simulation between two machines fed
the same inputs.  A run may be guarded by a condition on each input in the state
it arrives in. -/
namespace Fintrails
namespace Machine

variable {σ τ ι ω : Type*}

def final (step : σ → ι → σ × ω) : σ → List ι → σ
  | s, [] => s
  | s, i::is => final step (step s i).1 is

def trace (step : σ → ι → σ × ω) : σ → List ι → List (ι × ω)
  | _, [] => []
  | s, i::is => (i,(step s i).2) :: trace step (step s i).1 is

def outputs (step : σ → ι → σ × ω) (s : σ) (is : List ι) : List ω :=
  (trace step s is).map Prod.snd

/-- Each input of the run meets `ok` in the state in which it arrives. -/
def Guarded (step : σ → ι → σ × ω) (ok : σ → ι → Prop) : σ → List ι → Prop
  | _, [] => True
  | s, i::is => ok s i ∧ Guarded step ok (step s i).1 is

instance guardedDecidable (step : σ → ι → σ × ω) (ok : σ → ι → Prop)
    [∀ s i, Decidable (ok s i)] (s : σ) (is : List ι) : Decidable (Guarded step ok s is) :=
  match is with
  | [] => .isTrue trivial
  | i::is => @instDecidableAnd _ _ inferInstance (guardedDecidable step ok (step s i).1 is)

section Rules

variable {step : σ → ι → σ × ω} {ok : σ → ι → Prop}

@[simp] theorem final_append (s : σ) (is js : List ι) :
    final step s (is++js) = final step (final step s is) js := by
  induction is generalizing s with
  | nil => rfl
  | cons i is ih => exact ih (step s i).1

@[simp] theorem trace_append (s : σ) (is js : List ι) :
    trace step s (is++js) = trace step s is ++ trace step (final step s is) js := by
  induction is generalizing s with
  | nil => rfl
  | cons i is ih => simp [trace,final,ih]

@[simp] theorem trace_map_fst (step : σ → ι → σ × ω) (s : σ) (is : List ι) : (trace step s is).map Prod.fst = is := by
  induction is generalizing s with
  | nil => rfl
  | cons i is ih => simp [trace,ih]

@[simp] theorem outputs_nil (s : σ) : outputs step s [] = [] := rfl

@[simp] theorem outputs_cons (s : σ) (i : ι) (is : List ι) :
    outputs step s (i::is) = (step s i).2 :: outputs step (step s i).1 is := rfl

@[simp] theorem outputs_append (s : σ) (is js : List ι) :
    outputs step s (is++js) = outputs step s is ++ outputs step (final step s is) js := by
  simp [outputs]

@[simp] theorem outputs_length (s : σ) (is : List ι) : (outputs step s is).length = is.length := by
  induction is generalizing s with
  | nil => rfl
  | cons i is ih => simp [ih]

theorem outputs_take (s : σ) (is : List ι) (k : ℕ) :
    (outputs step s is).take k = outputs step s (is.take k) := by
  induction is generalizing s k with
  | nil => simp
  | cons i is ih => cases k <;> simp [ih]

theorem guarded_append (s : σ) (is js : List ι) :
    Guarded step ok s (is++js) ↔ Guarded step ok s is ∧ Guarded step ok (final step s is) js := by
  induction is generalizing s with
  | nil => simp [Guarded,final]
  | cons i is ih => simp [Guarded,final,ih,and_assoc]

theorem guarded_of_forall {s : σ} {is : List ι} (h : ∀ i ∈ is, ∀ s, ok s i) :
    Guarded step ok s is := by
  induction is generalizing s with
  | nil => trivial
  | cons i is ih => exact ⟨h i (by simp) s,ih fun j hj => h j (by simp [hj])⟩

/-- Inputs in a given order, where receiving one keeps the state ready for those that may
follow it. -/
theorem guarded_of_pairwise {rel : ι → ι → Prop}
    (hstep : ∀ s i j, ok s i → ok s j → rel i j → ok (step s i).1 j) {s : σ} {is : List ι}
    (h0 : ∀ i ∈ is, ok s i) (hp : is.Pairwise rel) : Guarded step ok s is := by
  induction is generalizing s with
  | nil => trivial
  | cons i is ih =>
    obtain ⟨hi,hp⟩ := List.pairwise_cons.mp hp
    exact ⟨h0 i (by simp),ih (fun j hj => hstep s i j (h0 i (by simp)) (h0 j (by simp [hj])) (hi j hj))
      hp⟩

theorem Guarded.and {ok' : σ → ι → Prop} {s : σ} {is : List ι} (h : Guarded step ok s is)
    (h' : Guarded step ok' s is) : Guarded step (fun s i => ok s i ∧ ok' s i) s is := by
  induction is generalizing s with
  | nil => trivial
  | cons i is ih => exact ⟨⟨h.1,h'.1⟩,ih h.2 h'.2⟩

/-- What every guarded step preserves, a guarded run preserves.  The invariant
may speak about the whole history. -/
theorem trace_invariant {P : List (ι × ω) → σ → Prop}
    (hstep : ∀ h s i, P h s → ok s i → P (h ++ [(i,(step s i).2)]) (step s i).1)
    {h : List (ι × ω)} {s : σ} {is : List ι} (h0 : P h s) (hg : Guarded step ok s is) :
    P (h ++ trace step s is) (final step s is) := by
  induction is generalizing h s with
  | nil => simpa [trace,final] using h0
  | cons i is ih =>
    have hh := ih (hstep h s i h0 hg.1) hg.2
    simpa [trace,final,List.append_assoc] using hh

theorem outputs_invariant {P : List ω → σ → Prop}
    (hstep : ∀ os s i, P os s → ok s i → P (os ++ [(step s i).2]) (step s i).1)
    {os : List ω} {s : σ} {is : List ι} (h0 : P os s) (hg : Guarded step ok s is) :
    P (os ++ outputs step s is) (final step s is) := by
  have hh := trace_invariant (P:=fun h t => P (os ++ h.map Prod.snd) t) (h:=[])
    (fun h t i ht hi => by simpa using hstep _ t i ht hi) (by simpa using h0) hg
  simpa [outputs] using hh

theorem outputs_run {P : List ω → σ → Prop}
    (hstep : ∀ os s i, P os s → ok s i → P (os ++ [(step s i).2]) (step s i).1)
    {s : σ} {is : List ι} (h0 : P [] s) (hg : Guarded step ok s is) :
    P (outputs step s is) (final step s is) := by
  simpa using outputs_invariant hstep h0 hg

theorem state_invariant {P : σ → Prop}
    (hstep : ∀ s i, P s → ok s i → P (step s i).1)
    {s : σ} {is : List ι} (h0 : P s) (hg : Guarded step ok s is) :
    P (final step s is) :=
  trace_invariant (P:=fun _ t => P t) (h:=[]) (fun _ t i ht hi => hstep t i ht hi) h0 hg

theorem simulation {step' : τ → ι → τ × ω} {R : σ → τ → Prop}
    (hstep : ∀ s t i, R s t → ok s i →
      (step s i).2 = (step' t i).2 ∧ R (step s i).1 (step' t i).1)
    {s : σ} {t : τ} {is : List ι} (h0 : R s t) (hg : Guarded step ok s is) :
    outputs step s is = outputs step' t is ∧ R (final step s is) (final step' t is) := by
  induction is generalizing s t with
  | nil => exact ⟨rfl,h0⟩
  | cons i is ih =>
    obtain ⟨ho,hr⟩ := hstep s t i h0 hg.1
    obtain ⟨hos,hrs⟩ := ih hr hg.2
    exact ⟨by simp [ho,hos],hrs⟩

/-- Unwinding: if the inputs that `own` leaves out do not move the part of the state that a run
without them has, the others are answered as if those had not been there. -/
theorem unwinding {own : ι → Bool} {R : σ → σ → Prop}
    (hown : ∀ s t i, R s t → ok s i → own i = true →
      (step s i).2 = (step t i).2 ∧ R (step s i).1 (step t i).1)
    (hother : ∀ s t i, R s t → ok s i → own i = false → R (step s i).1 t)
    {s t : σ} {is : List ι} (h0 : R s t) (hg : Guarded step ok s is) :
    (trace step s is).filter (fun x => own x.1) = trace step t (is.filter own) ∧
      R (final step s is) (final step t (is.filter own)) := by
  induction is generalizing s t with
  | nil => exact ⟨rfl,h0⟩
  | cons i is ih =>
    cases hi : own i with
    | true =>
      obtain ⟨hanswer,hnext⟩ := hown s t i h0 hg.1 hi
      obtain ⟨htrace,hfinal⟩ := ih hnext hg.2
      rw [List.filter_cons_of_pos hi,trace,List.filter_cons_of_pos (by simpa using hi),trace,htrace,
        hanswer]
      exact ⟨rfl,hfinal⟩
    | false =>
      obtain ⟨htrace,hfinal⟩ := ih (hother s t i h0 hg.1 hi) hg.2
      rw [List.filter_cons_of_neg (by simp [hi]),trace,List.filter_cons_of_neg (by simp [hi])]
      exact ⟨htrace,hfinal⟩

end Rules

end Machine
end Fintrails
