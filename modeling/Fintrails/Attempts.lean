import Mathlib.Data.List.Basic
import Mathlib.Data.Nat.Find
import Mathlib.Logic.Function.Iterate
import Mathlib.Tactic.Common

/-! Calling an operation over and over.  The state it is left in decides what the next call
returns, so that an operation and a state are an infinite sequence of outcomes.  With a
budget of extra calls the one that ends the calling is the first that is not to be tried
again, or the last one the budget allows. -/
namespace Fintrails
namespace Attempts

variable {σ ω : Type*}

def after (op : σ → ω × σ) (s : σ) (n : ℕ) : σ := (fun t => (op t).2)^[n] s

def outcome (op : σ → ω × σ) (s : σ) (n : ℕ) : ω := (op (after op s n)).1

/-- The operation that gives the outcomes of a sequence one after another; its state is the
number of calls. -/
def replay (outcomes : ℕ → ω) (n : ℕ) : ω × ℕ := (outcomes n,n+1)

section Sequences

variable (op : σ → ω × σ) (s : σ)

theorem after_succ (n : ℕ) : after op s (n+1) = after op (op s).2 n := rfl

theorem after_replay (outcomes : ℕ → ω) (first n : ℕ) :
    after (replay outcomes) first n = first+n := by
  induction n generalizing first with
  | zero => rfl
  | succ n ih =>
    rw [after_succ,ih]
    simp only [replay]
    omega

theorem outcome_replay (outcomes : ℕ → ω) : outcome (replay outcomes) 0 = outcomes := by
  funext n
  rw [outcome,after_replay,Nat.zero_add]
  rfl

end Sequences

/-- After `k` tries again the calling ends: every outcome before is to be tried again, and the
last one is not, or the budget is spent. -/
structure EndsAt (again : ω → Prop) (budget : ℕ) (outcomes : ℕ → ω) (k : ℕ) : Prop where
  within : k ≤ budget
  before : ∀ j < k, again (outcomes j)
  stops : k < budget → ¬again (outcomes k)

variable {again : ω → Prop} {budget : ℕ} {outcomes : ℕ → ω} {k : ℕ}

theorem exists_endsAt (again : ω → Prop) (budget : ℕ) (outcomes : ℕ → ω) :
    ∃ k, EndsAt again budget outcomes k := by
  classical
  have hsome : ∃ k, k = budget ∨ ¬again (outcomes k) := ⟨budget,.inl rfl⟩
  refine ⟨Nat.find hsome,Nat.find_min' hsome (.inl rfl),fun j hj => ?_,fun hlt => ?_⟩
  · have hmin := Nat.find_min hsome hj
    rw [not_or,not_not] at hmin
    exact hmin.2
  · exact (Nat.find_spec hsome).resolve_left (Nat.ne_of_lt hlt)

theorem EndsAt.tail (h : EndsAt again (budget+1) outcomes (k+1)) :
    EndsAt again budget (fun n => outcomes (n+1)) k where
  within := Nat.le_of_succ_le_succ h.within
  before j hj := h.before (j+1) (Nat.succ_lt_succ hj)
  stops hlt := h.stops (Nat.succ_lt_succ hlt)

end Attempts
end Fintrails
