import Mathlib.Algebra.Order.Floor.Div
import Mathlib.Data.List.Basic
import Mathlib.Tactic.Common

/-! Cutting an interval of natural numbers into consecutive windows of one span, the last
of which may be shorter. -/
namespace Fintrails
namespace Windows

def interval (first last : ℕ) : List ℕ := List.range' first (last+1-first)

theorem interval_append {first mid last : ℕ} (h : first ≤ mid+1) (hmid : mid ≤ last) :
    interval first mid ++ interval (mid+1) last = interval first last := by
  have hh := List.range'_append_1 (s:=first) (m:=mid+1-first) (n:=last-mid)
  rw [interval,interval,interval,show last+1-(mid+1) = last-mid by omega]
  rw [show first+(mid+1-first) = mid+1 by omega] at hh
  rw [hh]
  congr 1
  omega

/-- `count` windows of `span` numbers each from `first` on, cut off at `last`. -/
def cut (span last : ℕ) : (count : ℕ) → ℕ → List (ℕ × ℕ)
  | 0, _ => []
  | count+1, first => (first,min (first+(span-1)) last) :: cut span last count (first+span)

/-- As many windows as it takes to get to `last`. -/
def windows (span first last : ℕ) : List (ℕ × ℕ) :=
  cut span last ((last+1-first) ⌈/⌉ span) first

theorem length_cut (span last count first : ℕ) : (cut span last count first).length = count := by
  induction count generalizing first with
  | zero => rfl
  | succ count ih => rw [cut,List.length_cons,ih]

theorem length_windows (span first last : ℕ) :
    (windows span first last).length = (last+1-first) ⌈/⌉ span :=
  length_cut _ _ _ _

variable {span first last : ℕ}

theorem windows_of_lt (h : last < first) : windows span first last = [] := by
  rw [windows,show last+1-first = 0 by omega,zero_ceilDiv]
  rfl

theorem ceilDiv_succ {n : ℕ} (hspan : 0 < span) (hn : 0 < n) :
    n ⌈/⌉ span = (n-span) ⌈/⌉ span + 1 := by
  rw [Nat.ceilDiv_eq_add_pred_div,Nat.ceilDiv_eq_add_pred_div]
  by_cases hle : span ≤ n
  · rw [show n+span-1 = (n-span+span-1)+span by omega,Nat.add_div_right _ hspan]
  · rw [show n-span+span-1 = span-1 by omega,Nat.div_eq_of_lt (show span-1 < span by omega),
      show n+span-1 = (n-1)+span by omega,Nat.add_div_right _ hspan,
      Nat.div_eq_of_lt (show n-1 < span by omega)]

theorem windows_cons (hspan : 0 < span) (h : first ≤ last) : windows span first last =
    (first,min (first+(span-1)) last) :: windows span (first+span) last := by
  rw [windows,ceilDiv_succ hspan (by omega),cut,windows,
    show last+1-first-span = last+1-(first+span) by omega]

@[elab_as_elim] theorem windows_induction (last : ℕ) {span : ℕ} (hspan : 0 < span) {P : ℕ → Prop}
    (done : ∀ first, last < first → P first)
    (step : ∀ first, first ≤ last → P (first+span) → P first) (first : ℕ) : P first := by
  obtain ⟨rest,hrest⟩ : ∃ rest, rest = last+1-first := ⟨_,rfl⟩
  induction rest using Nat.strong_induction_on generalizing first with
  | _ rest ih =>
    by_cases hle : first ≤ last
    · exact step first hle (ih _ (by omega) _ rfl)
    · exact done first (by omega)

theorem size_of_mem (hspan : 0 < span) :
    ∀ w ∈ windows span first last, w.1 ≤ w.2 ∧ w.2+1-w.1 ≤ span := by
  induction first using windows_induction last hspan with
  | done first h => simp [windows_of_lt h]
  | step first h ih =>
    intro w hw
    rw [windows_cons hspan h] at hw
    rcases List.mem_cons.mp hw with rfl | hw
    · simp only
      omega
    · exact ih w hw

/-- Laid end to end the windows are the interval. -/
theorem flatMap_windows (hspan : 0 < span) :
    (windows span first last).flatMap (fun w => interval w.1 w.2) = interval first last := by
  induction first using windows_induction last hspan with
  | done first h =>
    rw [windows_of_lt h,interval,show last+1-first = 0 by omega]
    rfl
  | step first h ih =>
    rw [windows_cons hspan h,List.flatMap_cons,ih]
    by_cases hlast : first+(span-1) ≤ last
    · rw [Nat.min_eq_left hlast,show first+span = first+(span-1)+1 by omega]
      exact interval_append (by omega) hlast
    · rw [Nat.min_eq_right (by omega),interval,interval,show last+1-(first+span) = 0 by omega,
        List.range'_zero,List.append_nil]

end Windows
end Fintrails
