import Mathlib.Data.List.AList
import Mathlib.Algebra.BigOperators.Group.List.Basic
import Mathlib.Tactic.Ring

/-! Sums of signed machine words, kept by key.  A build decides what `+` does when the
exact sum leaves the range; whatever it does, a sum that is returned is the exact one
modulo the word size, and with overflow checks one is returned exactly if no running
sum leaves the range. -/
namespace Fintrails

/-- What `+` does on overflow: it panics, or it wraps. -/
inductive Build
  | checked
  | wrapping
  deriving DecidableEq, Repr

namespace Signed

variable {w : ℕ}

def InRange (w : ℕ) (x : ℤ) : Prop := -2^(w-1) ≤ x ∧ x < 2^(w-1)

instance inRangeDecidable (w : ℕ) (x : ℤ) : Decidable (InRange w x) :=
  inferInstanceAs (Decidable (_ ∧ _))

theorem inRange_toInt (a : BitVec w) : InRange w a.toInt :=
  ⟨BitVec.le_toInt a,BitVec.toInt_lt⟩

def checkedAdd (a b : BitVec w) : Option (BitVec w) :=
  if a.saddOverflow b then none else some (a+b)

theorem saddOverflow_iff (a b : BitVec w) :
    a.saddOverflow b = true ↔ ¬InRange w (a.toInt+b.toInt) := by
  simp only [BitVec.saddOverflow,InRange,Bool.or_eq_true,decide_eq_true_eq]
  omega

theorem checkedAdd_eq_none_iff {a b : BitVec w} :
    checkedAdd a b = none ↔ ¬InRange w (a.toInt+b.toInt) := by
  rw [← saddOverflow_iff]
  cases h : a.saddOverflow b <;> simp [checkedAdd,h]

theorem checkedAdd_eq_some {a b c : BitVec w} (h : checkedAdd a b = some c) : c = a+b := by
  cases ho : a.saddOverflow b <;> simp_all [checkedAdd]

def add (build : Build) (a b : BitVec w) : Option (BitVec w) :=
  match build with
  | .checked => checkedAdd a b
  | .wrapping => some (a+b)

theorem add_eq_some {build : Build} {a b c : BitVec w} (h : add build a b = some c) :
    c = a+b := by
  cases build with
  | checked => exact checkedAdd_eq_some h
  | wrapping => exact (Option.some.inj h).symm

theorem toInt_ofInt_of_inRange {x : ℤ} (hw : 0 < w) (h : InRange w x) :
    (BitVec.ofInt w x).toInt = x :=
  BitVec.toInt_ofInt_eq_self hw h.1 h.2

theorem ofInt_eq_zero_iff (x : ℤ) : BitVec.ofInt w x = 0 ↔ (2^w : ℤ) ∣ x := by
  have hh := Int.dvd_iff_bmod_eq_zero (a:=2^w) (b:=x)
  rw [← BitVec.toInt_inj,BitVec.toInt_ofInt]
  push_cast at hh
  rw [hh]
  simp

theorem eq_zero_of_dvd {x : ℤ} (hw : 0 < w) (h : InRange w x) (hd : (2^w : ℤ) ∣ x) : x = 0 := by
  rw [← toInt_ofInt_of_inRange hw h,(ofInt_eq_zero_iff x).mpr hd]
  exact BitVec.toInt_zero

def checkedNeg (a : BitVec w) : Option (BitVec w) := if a.negOverflow then none else some (-a)

theorem negOverflow_iff (hw : 0 < w) (a : BitVec w) : a.negOverflow = true ↔ a = .intMin w := by
  simp [BitVec.negOverflow_eq,hw]

theorem negOverflow_neg (a : BitVec w) : (-a).negOverflow = a.negOverflow := by
  rw [Bool.eq_iff_iff,BitVec.negOverflow_eq,BitVec.negOverflow_eq]
  simp only [Bool.and_eq_true,decide_eq_true_eq,beq_iff_eq]
  refine and_congr_right fun _ => ⟨fun h => ?_,fun h => by rw [h,BitVec.neg_intMin]⟩
  rw [← BitVec.neg_neg (x:=a),h,BitVec.neg_intMin]

def neg (build : Build) (a : BitVec w) : Option (BitVec w) :=
  match build with
  | .checked => checkedNeg a
  | .wrapping => some (-a)

theorem neg_of_not_negOverflow {build : Build} {a : BitVec w} (h : a.negOverflow = false) :
    neg build a = some (-a) := by
  cases build <;> simp [neg,checkedNeg,h]

/-- `words.try_fold(acc, checked_add)`. -/
def checkedSum (acc : BitVec w) (words : List (BitVec w)) : Option (BitVec w) :=
  words.foldlM checkedAdd acc

def intSum (words : List (BitVec w)) : ℤ := (words.map BitVec.toInt).sum

@[simp] theorem intSum_nil : intSum ([] : List (BitVec w)) = 0 := rfl

@[simp] theorem intSum_cons (a : BitVec w) (words : List (BitVec w)) :
    intSum (a::words) = a.toInt + intSum words := by
  simp [intSum]

@[simp] theorem intSum_append (xs ys : List (BitVec w)) :
    intSum (xs++ys) = intSum xs + intSum ys := by
  simp [intSum]

/-- No running sum of the words leaves the range, starting from `acc`. -/
def Runs (acc : BitVec w) (words : List (BitVec w)) : Prop :=
  ∀ run, run <+: words → InRange w (acc.toInt + intSum run)

theorem checkedAdd_toInt {a b c : BitVec w} (h : checkedAdd a b = some c) :
    c.toInt = a.toInt+b.toInt := by
  have hover : ¬a.saddOverflow b = true := by
    intro ho
    rw [saddOverflow_iff,← checkedAdd_eq_none_iff,h] at ho
    cases ho
  rw [checkedAdd_eq_some h,BitVec.toInt_add_of_not_saddOverflow hover]

theorem checkedSum_append (acc : BitVec w) (xs ys : List (BitVec w)) :
    checkedSum acc (xs++ys) = (checkedSum acc xs).bind fun mid => checkedSum mid ys :=
  List.foldlM_append

theorem checkedSum_toInt {acc sum : BitVec w} {words : List (BitVec w)}
    (h : checkedSum acc words = some sum) : sum.toInt = acc.toInt + intSum words := by
  induction words generalizing acc with
  | nil =>
    cases h
    simp
  | cons a words ih =>
    obtain ⟨mid,hone,hrest⟩ := Option.bind_eq_some_iff.mp h
    rw [ih hrest,checkedAdd_toInt hone,intSum_cons,Int.add_assoc]

theorem checkedSum_isSome_iff (acc : BitVec w) (words : List (BitVec w)) :
    (∃ sum, checkedSum acc words = some sum) ↔ Runs acc words := by
  induction words generalizing acc with
  | nil =>
    refine ⟨fun _ run hrun => ?_,fun _ => ⟨acc,rfl⟩⟩
    obtain rfl := List.prefix_nil.mp hrun
    simpa using inRange_toInt acc
  | cons a words ih =>
    constructor
    · rintro ⟨sum,h⟩ run hrun
      obtain ⟨mid,hone,hrest⟩ := Option.bind_eq_some_iff.mp h
      cases run with
      | nil => simpa using inRange_toInt acc
      | cons b run =>
        obtain ⟨rfl,hrun'⟩ := List.cons_prefix_cons.mp hrun
        have hh := (ih mid).mp ⟨sum,hrest⟩ run hrun'
        rwa [checkedAdd_toInt hone,Int.add_assoc,← intSum_cons] at hh
    · intro h
      have hfirst := h [a] (List.cons_prefix_cons.mpr ⟨rfl,List.nil_prefix⟩)
      rw [intSum_cons,intSum_nil,Int.add_zero] at hfirst
      cases hone : checkedAdd acc a with
      | none => exact absurd hfirst (checkedAdd_eq_none_iff.mp hone)
      | some mid =>
        obtain ⟨sum,hrest⟩ := (ih mid).mpr fun run hrun => by
          have hh := h (a::run) (List.cons_prefix_cons.mpr ⟨rfl,hrun⟩)
          rwa [checkedAdd_toInt hone,Int.add_assoc,← intSum_cons]
        exact ⟨sum,Option.bind_eq_some_iff.mpr ⟨mid,hone,hrest⟩⟩

theorem checkedSum_eq_none_iff (acc : BitVec w) (words : List (BitVec w)) :
    checkedSum acc words = none ↔ ¬Runs acc words := by
  rw [← checkedSum_isSome_iff]
  cases checkedSum acc words <;> simp

theorem checkedSum_if {p : Prop} [Decidable p] {acc word : BitVec w}
    (h : InRange w (acc.toInt + if p then word.toInt else 0)) :
    ∃ sum, checkedSum acc (if p then [word] else []) = some sum ∧
      sum.toInt = acc.toInt + if p then word.toInt else 0 := by
  by_cases hp : p
  · simp only [hp,if_true] at h ⊢
    have hadd : checkedAdd acc word ≠ none := fun hnone => checkedAdd_eq_none_iff.mp hnone h
    obtain ⟨sum,hsum⟩ := Option.ne_none_iff_exists'.mp hadd
    exact ⟨sum,by simp [checkedSum,hsum],checkedAdd_toInt hsum⟩
  · simp only [hp,if_false,add_zero]
    exact ⟨acc,rfl,rfl⟩

end Signed

abbrev Tally (κ : Type) (w : ℕ) := AList fun _ : κ => BitVec w

namespace Tally

variable {κ α : Type} [DecidableEq κ] {w : ℕ} {key : α → κ} {amount : α → BitVec w}

def total (t : Tally κ w) (k : κ) : BitVec w := (t.lookup k).getD 0

/-- `*t.entry(k).or_insert(0) += amount`. -/
def bump (build : Build) (t : Tally κ w) (k : κ) (amount : BitVec w) : Option (Tally κ w) :=
  (Signed.add build (t.total k) amount).map fun sum => t.insert k sum

def tally (build : Build) (key : α → κ) (amount : α → BitVec w) :
    Tally κ w → List α → Option (Tally κ w)
  | t, [] => some t
  | t, a::as => (t.bump build (key a) (amount a)).bind fun t' => tally build key amount t' as

def exactSum (key : α → κ) (amount : α → BitVec w) (k : κ) (as : List α) : ℤ :=
  ((as.filter fun a => key a = k).map fun a => (amount a).toInt).sum

@[simp] theorem exactSum_nil (k : κ) : exactSum key amount k [] = 0 := rfl

theorem exactSum_cons (k : κ) (a : α) (as : List α) : exactSum key amount k (a::as) =
    (if key a = k then (amount a).toInt else 0) + exactSum key amount k as := by
  by_cases h : key a = k <;> simp [exactSum,h]

@[simp] theorem total_empty (k : κ) : (∅ : Tally κ w).total k = 0 := by
  simp [total]

theorem total_insert (t : Tally κ w) (k j : κ) (sum : BitVec w) :
    total (t.insert k sum) j = if k = j then sum else t.total j := by
  by_cases h : k = j
  · subst h
    simp [total]
  · simp [total,h,AList.lookup_insert_ne (Ne.symm h)]

theorem entries_zero_iff (t : Tally κ w) : (∀ e ∈ t.entries, e.2 = 0) ↔ ∀ k, t.total k = 0 := by
  constructor
  · intro h k
    cases hk : t.lookup k with
    | none => simp [total,hk]
    | some sum => simpa [total,hk] using h ⟨k,sum⟩ (AList.mem_lookup_iff.mp hk)
  · rintro h ⟨k,sum⟩ he
    have hk := h k
    rwa [total,AList.mem_lookup_iff.mpr he] at hk

theorem bump_total {build : Build} {t t' : Tally κ w} {k : κ} {x : BitVec w}
    (h : t.bump build k x = some t') (j : κ) :
    t'.total j = t.total j + BitVec.ofInt w (if k = j then x.toInt else 0) := by
  obtain ⟨sum,hsum,rfl⟩ := Option.map_eq_some_iff.mp h
  rw [total_insert,Signed.add_eq_some hsum]
  by_cases hk : k = j
  · subst hk
    simp
  · simp [hk]

/-- A sum that is returned is the exact one modulo the word size. -/
theorem tally_total {build : Build} {t t' : Tally κ w} {as : List α}
    (h : tally build key amount t as = some t') (k : κ) :
    t'.total k = t.total k + BitVec.ofInt w (exactSum key amount k as) := by
  induction as generalizing t with
  | nil =>
    cases h
    simp
  | cons a as ih =>
    obtain ⟨mid,hone,hrest⟩ := Option.bind_eq_some_iff.mp h
    rw [ih hrest,bump_total hone,exactSum_cons,BitVec.ofInt_add,BitVec.add_assoc]

theorem tally_wrapping (t : Tally κ w) (as : List α) :
    ∃ t', tally .wrapping key amount t as = some t' := by
  induction as generalizing t with
  | nil => exact ⟨t,rfl⟩
  | cons a as ih => exact ih (t.insert (key a) (t.total (key a) + amount a))

def RunsInRange (key : α → κ) (amount : α → BitVec w) (t : Tally κ w) (as : List α) : Prop :=
  ∀ run, run <+: as → ∀ k, Signed.InRange w ((t.total k).toInt + exactSum key amount k run)

theorem bump_checked_toInt {t t' : Tally κ w} {k : κ} {x : BitVec w}
    (h : t.bump .checked k x = some t') (j : κ) :
    (t'.total j).toInt = (t.total j).toInt + if k = j then x.toInt else 0 := by
  obtain ⟨sum,hsum,rfl⟩ := Option.map_eq_some_iff.mp h
  rw [total_insert]
  by_cases hk : k = j
  · subst hk
    simpa using Signed.checkedAdd_toInt hsum
  · simp [hk]

/-- With overflow checks, the sums are returned exactly if no running sum leaves the range. -/
theorem tally_checked_iff (t : Tally κ w) (as : List α) :
    (∃ t', tally .checked key amount t as = some t') ↔ RunsInRange key amount t as := by
  induction as generalizing t with
  | nil =>
    refine ⟨fun _ run hrun k => ?_,fun _ => ⟨t,rfl⟩⟩
    obtain rfl := List.prefix_nil.mp hrun
    simpa using Signed.inRange_toInt (t.total k)
  | cons a as ih =>
    constructor
    · rintro ⟨t',h⟩ run hrun k
      obtain ⟨mid,hone,hrest⟩ := Option.bind_eq_some_iff.mp h
      have hmid := (ih mid).mp ⟨t',hrest⟩
      cases run with
      | nil => simpa using Signed.inRange_toInt (t.total k)
      | cons b run =>
        obtain ⟨rfl,hrun'⟩ := List.cons_prefix_cons.mp hrun
        have hh := hmid run hrun' k
        rwa [bump_checked_toInt hone,Int.add_assoc,← exactSum_cons] at hh
    · intro h
      have hfirst := h [a] (List.cons_prefix_cons.mpr ⟨rfl,List.nil_prefix⟩) (key a)
      rw [exactSum_cons] at hfirst
      simp only [if_true,exactSum_nil,Int.add_zero] at hfirst
      cases hsum : Signed.checkedAdd (t.total (key a)) (amount a) with
      | none => exact absurd hfirst (Signed.checkedAdd_eq_none_iff.mp hsum)
      | some sum =>
        have hone : t.bump .checked (key a) (amount a) = some (t.insert (key a) sum) := by
          simp [bump,Signed.add,hsum]
        obtain ⟨t',hrest⟩ := (ih (t.insert (key a) sum)).mpr fun run hrun k => by
          have hh := h (a::run) (List.cons_prefix_cons.mpr ⟨rfl,hrun⟩) k
          rwa [bump_checked_toInt hone,Int.add_assoc,← exactSum_cons]
        exact ⟨t',Option.bind_eq_some_iff.mpr ⟨_,hone,hrest⟩⟩

end Tally
end Fintrails
