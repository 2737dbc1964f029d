import Fintrails.Tally

/-! Unsigned machine words of any width: comparing, adding, subtracting and multiplying them,
with and without checks.  Everything is specified by the natural number that a word stands
for. -/
namespace Fintrails
namespace Unsigned

variable {w : ℕ}

protected def min (a b : BitVec w) : BitVec w := if a ≤ b then a else b

protected def max (a b : BitVec w) : BitVec w := if a ≤ b then b else a

/-- `a.checked_add(b)`. -/
def checkedAdd (a b : BitVec w) : Option (BitVec w) :=
  if a.uaddOverflow b then none else some (a+b)

def checkedSub (a b : BitVec w) : Option (BitVec w) :=
  if a.usubOverflow b then none else some (a-b)

def checkedMul (a b : BitVec w) : Option (BitVec w) :=
  if a.umulOverflow b then none else some (a*b)

/-- `a + b`, where `none` is the panic. -/
def add (build : Build) (a b : BitVec w) : Option (BitVec w) :=
  match build with
  | .checked => checkedAdd a b
  | .wrapping => some (a+b)

def sub (build : Build) (a b : BitVec w) : Option (BitVec w) :=
  match build with
  | .checked => checkedSub a b
  | .wrapping => some (a-b)

/-- `a.saturating_add(b)`. -/
def saturatingAdd (a b : BitVec w) : BitVec w := (checkedAdd a b).getD (.allOnes w)

def saturatingPow (a : BitVec w) (exp : BitVec 32) : BitVec w :=
  if a.toNat^exp.toNat < 2^w then .ofNat w (a.toNat^exp.toNat) else .allOnes w

theorem toNat_min (a b : BitVec w) : (Unsigned.min a b).toNat = min a.toNat b.toNat := by
  simp only [Unsigned.min,BitVec.le_def,Nat.min_def]
  split <;> rfl

theorem toNat_max (a b : BitVec w) : (Unsigned.max a b).toNat = max a.toNat b.toNat := by
  simp only [Unsigned.max,BitVec.le_def,Nat.max_def]
  split <;> rfl

theorem checkedAdd_of_lt {a b : BitVec w} (h : a.toNat+b.toNat < 2^w) :
    checkedAdd a b = some (a+b) ∧ (a+b).toNat = a.toNat+b.toNat := by
  refine ⟨if_neg ?_,BitVec.toNat_add_of_lt h⟩
  simpa [BitVec.uaddOverflow] using h

theorem checkedAdd_of_le {a b : BitVec w} (h : 2^w ≤ a.toNat+b.toNat) : checkedAdd a b = none :=
  if_pos (by simpa [BitVec.uaddOverflow] using h)

theorem checkedSub_of_le {a b : BitVec w} (h : b.toNat ≤ a.toNat) :
    checkedSub a b = some (a-b) ∧ (a-b).toNat = a.toNat-b.toNat := by
  refine ⟨if_neg ?_,BitVec.toNat_sub_of_le h⟩
  simpa [BitVec.usubOverflow] using h

theorem checkedMul_of_lt {a b : BitVec w} (h : a.toNat*b.toNat < 2^w) :
    checkedMul a b = some (a*b) ∧ (a*b).toNat = a.toNat*b.toNat := by
  refine ⟨if_neg ?_,?_⟩
  · simpa [BitVec.umulOverflow] using h
  · rw [BitVec.toNat_mul,Nat.mod_eq_of_lt h]

theorem checkedMul_of_le {a b : BitVec w} (h : 2^w ≤ a.toNat*b.toNat) : checkedMul a b = none :=
  if_pos (by simpa [BitVec.umulOverflow] using h)

theorem add_of_lt (build : Build) {a b : BitVec w} (h : a.toNat+b.toNat < 2^w) :
    add build a b = some (a+b) ∧ (a+b).toNat = a.toNat+b.toNat := by
  refine ⟨?_,BitVec.toNat_add_of_lt h⟩
  cases build with
  | checked => exact (checkedAdd_of_lt h).1
  | wrapping => rfl

theorem sub_of_le (build : Build) {a b : BitVec w} (h : b.toNat ≤ a.toNat) :
    sub build a b = some (a-b) ∧ (a-b).toNat = a.toNat-b.toNat := by
  refine ⟨?_,BitVec.toNat_sub_of_le h⟩
  cases build with
  | checked => exact (checkedSub_of_le h).1
  | wrapping => rfl

theorem toNat_saturatingAdd (a b : BitVec w) :
    (saturatingAdd a b).toNat = min (a.toNat+b.toNat) (2^w-1) := by
  by_cases h : a.toNat+b.toNat < 2^w
  · obtain ⟨hsum,hnat⟩ := checkedAdd_of_lt h
    rw [saturatingAdd,hsum,Option.getD_some,hnat]
    omega
  · rw [saturatingAdd,checkedAdd_of_le (Nat.le_of_not_lt h),Option.getD_none,BitVec.toNat_allOnes]
    omega

theorem toNat_saturatingPow (a : BitVec w) (exp : BitVec 32) :
    (saturatingPow a exp).toNat = min (a.toNat^exp.toNat) (2^w-1) := by
  by_cases h : a.toNat^exp.toNat < 2^w
  · rw [saturatingPow,if_pos h,BitVec.toNat_ofNat,Nat.mod_eq_of_lt h]
    omega
  · rw [saturatingPow,if_neg h,BitVec.toNat_allOnes]
    omega

end Unsigned
end Fintrails
