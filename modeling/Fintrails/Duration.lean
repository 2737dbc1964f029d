import Fintrails.Unsigned

/-! Spans of time as whole seconds and nanoseconds, in machine words.  Multiplying one by a
word saturates at the longest span there is; everything is specified by the number of
nanoseconds, an exact natural number. -/
namespace Fintrails

/-- Whole seconds, and nanoseconds that do not make another one. -/
@[ext] structure Duration where
  secs : BitVec 64
  nanos : BitVec 32
  nanos_lt : nanos.toNat < 1000000000
  deriving DecidableEq, Repr

namespace Duration

def toNanos (d : Duration) : ℕ := d.secs.toNat*1000000000+d.nanos.toNat

/-- `Duration::MAX`. -/
def longest : Duration := ⟨.allOnes 64,999999999,by decide⟩

def fromSecs (secs : BitVec 64) : Duration := ⟨secs,0,by decide⟩

theorem toNat_subsec (total : BitVec 64) :
    ((total % 1000000000).setWidth 32).toNat = total.toNat % 1000000000 := by
  rw [BitVec.toNat_setWidth,BitVec.toNat_umod]
  change total.toNat % 1000000000 % 2^32 = _
  omega

theorem subsec_lt (total : BitVec 64) :
    ((total % 1000000000).setWidth 32).toNat < 1000000000 := by
  rw [toNat_subsec]
  exact Nat.mod_lt _ (by decide)

def fromMillis (millis : BitVec 64) : Duration where
  secs := millis/1000
  nanos := (millis % 1000).setWidth 32 * 1000000
  nanos_lt := by
    have hlt : (millis % 1000).toNat < 1000 := by
      rw [BitVec.toNat_umod]
      exact Nat.mod_lt _ (by decide)
    have hproduct : (millis % 1000).toNat % 2^32 * 1000000 % 2^32 =
        (millis % 1000).toNat * 1000000 := by
      rw [Nat.mod_eq_of_lt (a:=(millis % 1000).toNat) (by omega),Nat.mod_eq_of_lt (by omega)]
    rw [BitVec.toNat_mul,BitVec.toNat_setWidth]
    exact hproduct.trans_lt (by omega)

/-- `d.checked_mul(rhs)`.  The nanoseconds are multiplied first, and carry into the seconds. -/
def checkedMul (d : Duration) (rhs : BitVec 32) : Option Duration :=
  let totalNanos := d.nanos.setWidth 64 * rhs.setWidth 64
  let extraSecs := totalNanos/1000000000
  (Unsigned.checkedMul d.secs (rhs.setWidth 64)).bind fun product =>
    (Unsigned.checkedAdd product extraSecs).map fun secs =>
      ⟨secs,(totalNanos % 1000000000).setWidth 32,subsec_lt totalNanos⟩

/-- `d.saturating_mul(rhs)`. -/
def saturatingMul (d : Duration) (rhs : BitVec 32) : Duration := (d.checkedMul rhs).getD longest

instance : LE Duration where
  le a b := a.secs < b.secs ∨ a.secs = b.secs ∧ a.nanos ≤ b.nanos

instance (a b : Duration) : Decidable (a ≤ b) :=
  inferInstanceAs (Decidable (_ ∨ _))

theorem le_iff {a b : Duration} : a ≤ b ↔ a.toNanos ≤ b.toNanos := by
  have ha := a.nanos_lt
  have hb := b.nanos_lt
  change a.secs < b.secs ∨ a.secs = b.secs ∧ a.nanos ≤ b.nanos ↔ _
  rw [BitVec.lt_def,BitVec.le_def,← BitVec.toNat_inj,toNanos,toNanos]
  omega

theorem toNanos_injective : Function.Injective toNanos := by
  intro a b h
  have ha := a.nanos_lt
  have hb := b.nanos_lt
  simp only [toNanos] at h
  ext1
  · exact BitVec.eq_of_toNat_eq (by omega)
  · exact BitVec.eq_of_toNat_eq (by omega)

instance : LinearOrder Duration where
  le_refl a := le_iff.mpr (le_refl a.toNanos)
  le_trans a b c hab hbc := le_iff.mpr ((le_iff.mp hab).trans (le_iff.mp hbc))
  le_antisymm a b hab hba := toNanos_injective ((le_iff.mp hab).antisymm (le_iff.mp hba))
  le_total a b := by simpa only [le_iff] using Nat.le_total a.toNanos b.toNanos
  toDecidableLE := inferInstance

theorem toNanos_mono : Monotone toNanos := fun _ _ => le_iff.mp

theorem toNanos_le_longest (d : Duration) : d.toNanos ≤ longest.toNanos := by
  have hsecs := d.secs.isLt
  have hnanos := d.nanos_lt
  change _ ≤ (2^64-1)*1000000000+999999999
  rw [toNanos]
  omega

theorem toNanos_min (a b : Duration) : (min a b).toNanos = min a.toNanos b.toNanos :=
  toNanos_mono.map_min

theorem toNat_totalNanos (d : Duration) (rhs : BitVec 32) :
    (d.nanos.setWidth 64 * rhs.setWidth 64).toNat = d.nanos.toNat*rhs.toNat := by
  have hd := d.nanos_lt
  have hrhs := rhs.isLt
  have hprod : d.nanos.toNat*rhs.toNat < 1000000000*2^32 :=
    Nat.mul_lt_mul'' hd hrhs
  rw [BitVec.toNat_mul,BitVec.toNat_setWidth_of_le (by decide),
    BitVec.toNat_setWidth_of_le (by decide),Nat.mod_eq_of_lt (by omega)]

theorem toNanos_mul (d : Duration) (n : ℕ) :
    d.toNanos*n = (d.secs.toNat*n+d.nanos.toNat*n/1000000000)*1000000000 +
      d.nanos.toNat*n % 1000000000 := by
  have hsplit := Nat.div_add_mod (d.nanos.toNat*n) 1000000000
  rw [toNanos,Nat.add_mul,Nat.mul_right_comm]
  omega

/-- A product that can be represented is exact, and any other is beyond the longest span. -/
theorem checkedMul_spec (d : Duration) (rhs : BitVec 32) :
    (∃ e, d.checkedMul rhs = some e ∧ e.toNanos = d.toNanos*rhs.toNat) ∨
      (d.checkedMul rhs = none ∧ longest.toNanos < d.toNanos*rhs.toNat) := by
  have hrhs : (rhs.setWidth 64).toNat = rhs.toNat := BitVec.toNat_setWidth_of_le (by decide)
  have htotal := d.toNat_totalNanos rhs
  have hextra : (d.nanos.setWidth 64 * rhs.setWidth 64 / 1000000000).toNat =
      d.nanos.toNat*rhs.toNat/1000000000 := by
    rw [BitVec.toNat_udiv,htotal]
    rfl
  have hmul := d.toNanos_mul rhs.toNat
  have hmax : longest.toNanos = (2^64-1)*1000000000+999999999 := rfl
  by_cases hsecs : d.secs.toNat*rhs.toNat < 2^64
  · obtain ⟨product,hproduct,hp⟩ : ∃ product, Unsigned.checkedMul d.secs (rhs.setWidth 64) =
        some product ∧ product.toNat = d.secs.toNat*(rhs.setWidth 64).toNat :=
      ⟨_,Unsigned.checkedMul_of_lt (by rwa [hrhs])⟩
    rw [hrhs] at hp
    by_cases hsum : product.toNat+d.nanos.toNat*rhs.toNat/1000000000 < 2^64
    · obtain ⟨hsecs,hs⟩ := Unsigned.checkedAdd_of_lt (a:=product)
        (b:=d.nanos.setWidth 64 * rhs.setWidth 64 / 1000000000) (by rwa [hextra])
      rw [hextra,hp] at hs
      refine .inl ⟨_,by rw [checkedMul,hproduct,Option.bind_some,hsecs]; rfl,?_⟩
      rw [toNanos,toNat_subsec,htotal,hs,hmul]
    · have hnone := Unsigned.checkedAdd_of_le (a:=product)
        (b:=d.nanos.setWidth 64 * rhs.setWidth 64 / 1000000000)
        (by rw [hextra]; exact Nat.not_lt.mp hsum)
      exact .inr ⟨by rw [checkedMul,hproduct,Option.bind_some,hnone]; rfl,by omega⟩
  · have hnone := Unsigned.checkedMul_of_le (a:=d.secs) (b:=rhs.setWidth 64)
      (by rw [hrhs]; exact Nat.not_lt.mp hsecs)
    exact .inr ⟨by rw [checkedMul,hnone]; rfl,by omega⟩

theorem toNanos_saturatingMul (d : Duration) (rhs : BitVec 32) :
    (d.saturatingMul rhs).toNanos = min (d.toNanos*rhs.toNat) longest.toNanos := by
  rw [saturatingMul]
  rcases d.checkedMul_spec rhs with ⟨e,he,hexact⟩ | ⟨hnone,hbeyond⟩
  · rw [he,Option.getD_some,← hexact]
    exact (Nat.min_eq_left e.toNanos_le_longest).symm
  · rw [hnone,Option.getD_none]
    exact (Nat.min_eq_right hbeyond.le).symm

end Duration
end Fintrails
