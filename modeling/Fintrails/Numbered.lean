import Mathlib.Data.List.Chain
import Mathlib.Data.List.Range
import Mathlib.Tactic.Common

/-! Lists whose items carry consecutive numbers.  `From num lo l` says that the
items of `l` are numbered `lo, lo+1, …` in order; membership, lookup by number,
cutting by number and equality with a canonical listing all reduce to it. -/
namespace Fintrails
namespace Numbered

variable {α : Type*} {num : α → ℕ}

/-- The items of `l` are numbered `lo, lo+1, …` in order. -/
def From (num : α → ℕ) : ℕ → List α → Prop
  | _, [] => True
  | lo, a::l => num a = lo ∧ From num (lo+1) l

@[simp] theorem from_nil (lo : ℕ) : From num lo [] := trivial

@[simp] theorem from_cons (lo : ℕ) (a : α) (l : List α) :
    From num lo (a::l) ↔ num a = lo ∧ From num (lo+1) l := Iff.rfl

theorem from_append (lo : ℕ) (l m : List α) :
    From num lo (l++m) ↔ From num lo l ∧ From num (lo+l.length) m := by
  induction l generalizing lo with
  | nil => simp
  | cons a l ih =>
    simp only [List.cons_append,from_cons,ih,List.length_cons,and_assoc]
    rw [show lo+1+l.length = lo+(l.length+1) by omega]

theorem From.bounds {lo : ℕ} {l : List α} (h : From num lo l) {a : α} (ha : a ∈ l) :
    lo ≤ num a ∧ num a < lo+l.length := by
  induction l generalizing lo with
  | nil => simp at ha
  | cons b l ih =>
    rcases List.mem_cons.mp ha with rfl | ha
    · simp [h.1]
    · have hb := ih h.2 ha
      simp only [List.length_cons]
      omega

theorem From.lt_of_append {lo : ℕ} {l m : List α} (h : From num lo (l++m)) {a b : α}
    (ha : a ∈ l) (hb : b ∈ m) : num a < num b := by
  obtain ⟨hl,hm⟩ := (from_append lo l m).mp h
  have hlow := hl.bounds ha
  have hhigh := hm.bounds hb
  omega

theorem From.lt_of_split {lo : ℕ} {l m : List α} {a b : α} (h : From num lo (l ++ a::m))
    (hb : b ∈ m) : num a < num b := by
  rw [List.append_cons] at h
  exact h.lt_of_append (List.mem_append_right l (List.mem_singleton_self a)) hb

theorem From.exists_num {lo n : ℕ} {l : List α} (h : From num lo l) (hlo : lo ≤ n)
    (hn : n < lo+l.length) : ∃ a ∈ l, num a = n := by
  induction l generalizing lo with
  | nil => simp at hn; omega
  | cons b l ih =>
    by_cases hb : lo = n
    · exact ⟨b,by simp,h.1.trans hb⟩
    · simp only [List.length_cons] at hn
      obtain ⟨a,ha,hnum⟩ := ih h.2 (by omega) (by omega)
      exact ⟨a,by simp [ha],hnum⟩

theorem From.eq_of_num {lo : ℕ} {l : List α} (h : From num lo l) {a b : α}
    (ha : a ∈ l) (hb : b ∈ l) (hab : num a = num b) : a = b := by
  induction l generalizing lo with
  | nil => simp at ha
  | cons c l ih =>
    have hc := h.1
    rcases List.mem_cons.mp ha with hac | hal <;> rcases List.mem_cons.mp hb with hbc | hbl
    · exact hac.trans hbc.symm
    · have hn := h.2.bounds hbl
      subst hac
      omega
    · have hn := h.2.bounds hal
      subst hbc
      omega
    · exact ih h.2 hal hbl

theorem From.find?_eq {lo : ℕ} {l : List α} (h : From num lo l) {a : α} (ha : a ∈ l) :
    l.find? (fun b => num b == num a) = some a := by
  induction l generalizing lo with
  | nil => simp at ha
  | cons c l ih =>
    rcases List.mem_cons.mp ha with rfl | ha
    · simp
    · have hne : num c ≠ num a := by
        have hb := h.2.bounds ha
        have hc := h.1
        omega
      simp [hne,ih h.2 ha]

theorem From.drop {lo : ℕ} {l : List α} (h : From num lo l) (k : ℕ) :
    From num (lo+k) (l.drop k) := by
  by_cases hk : k ≤ l.length
  · have hh := (from_append lo (l.take k) (l.drop k)).mp (by simpa using h)
    simpa [List.length_take,hk] using hh.2
  · simp [List.drop_of_length_le (Nat.le_of_lt (Nat.lt_of_not_le hk))]

theorem From.map_num {lo : ℕ} {l : List α} (h : From num lo l) :
    l.map num = List.range' lo l.length := by
  induction l generalizing lo with
  | nil => rfl
  | cons a l ih => simp [List.range'_succ,h.1,ih h.2]

theorem From.eq_map {lo : ℕ} {l : List α} {f : ℕ → α} (h : From num lo l)
    (hf : ∀ a ∈ l, a = f (num a)) : l = (List.range' lo l.length).map f := by
  calc l = (l.map num).map f := by
        rw [List.map_map]
        exact (List.map_id l).symm.trans (List.map_congr_left hf)
    _ = _ := by rw [h.map_num]

theorem from_map_range' {f : ℕ → α} {lo k : ℕ} (hf : ∀ n, lo ≤ n → n < lo+k → num (f n) = n) :
    From num lo ((List.range' lo k).map f) := by
  induction k generalizing lo with
  | zero => simp
  | succ k ih =>
    rw [List.range'_succ]
    exact ⟨hf lo (by omega) (by omega),ih fun n h1 h2 => hf n (by omega) (by omega)⟩

/-- The items numbered from `a` up to but not including `b`. -/
def slice (num : α → ℕ) (a b : ℕ) (l : List α) : List α :=
  l.filter fun x => decide (a ≤ num x) && decide (num x < b)

@[simp] theorem mem_slice {a b : ℕ} {l : List α} {x : α} :
    x ∈ slice num a b l ↔ x ∈ l ∧ a ≤ num x ∧ num x < b := by
  simp [slice]

@[simp] theorem slice_nil (a b : ℕ) : slice num a b ([] : List α) = [] := rfl

theorem slice_cons_pos {a b : ℕ} {x : α} (l : List α) (h : a ≤ num x ∧ num x < b) :
    slice num a b (x::l) = x :: slice num a b l := by
  simp [slice,h.1,h.2]

theorem slice_cons_neg {a b : ℕ} {x : α} (l : List α) (h : ¬(a ≤ num x ∧ num x < b)) :
    slice num a b (x::l) = slice num a b l :=
  List.filter_cons_of_neg (by simpa using h)

@[simp] theorem slice_append (a b : ℕ) (l m : List α) :
    slice num a b (l++m) = slice num a b l ++ slice num a b m := by
  simp [slice]

theorem slice_eq_nil {a b : ℕ} {l : List α} (h : ∀ x ∈ l, a ≤ num x → b ≤ num x) :
    slice num a b l = [] := by
  simp only [slice,List.filter_eq_nil_iff,Bool.and_eq_true,decide_eq_true_eq,not_and,not_lt]
  exact h

theorem slice_congr {a b c d : ℕ} {l : List α}
    (h : ∀ x ∈ l, (a ≤ num x ∧ num x < b) ↔ (c ≤ num x ∧ num x < d)) :
    slice num a b l = slice num c d l := by
  apply List.filter_congr
  intro x hx
  rw [Bool.eq_iff_iff]
  simpa using h x hx

theorem From.from_slice {lo a b : ℕ} {l : List α} (h : From num lo l) :
    From num (max lo a) (slice num a b l) := by
  induction l generalizing lo with
  | nil => trivial
  | cons x l ih =>
    have hx := h.1
    have hl := ih h.2
    by_cases hin : a ≤ num x ∧ num x < b
    · rw [slice_cons_pos l hin,show max lo a = lo by omega]
      rw [show max (lo+1) a = lo+1 by omega] at hl
      exact ⟨hx,hl⟩
    · by_cases ha : a ≤ lo
      · have hnil : slice num a b (x::l) = [] := by
          apply slice_eq_nil
          intro y hy _
          have := h.bounds hy
          omega
        rw [hnil]; trivial
      · rw [slice_cons_neg l hin]
        rwa [show max lo a = max (lo+1) a by omega]

theorem From.slice_join {lo a b c : ℕ} {l : List α} (h : From num lo l) (hab : a ≤ b)
    (hbc : b ≤ c) : slice num a b l ++ slice num b c l = slice num a c l := by
  induction l generalizing lo with
  | nil => rfl
  | cons x l ih =>
    have hx := h.1
    have hl := ih h.2
    by_cases hb : lo < b
    · rw [slice_cons_neg (a:=b) l (by omega)]
      by_cases ha : a ≤ lo
      · rw [slice_cons_pos l (by omega),slice_cons_pos l (by omega),List.cons_append,hl]
      · rw [slice_cons_neg l (by omega),slice_cons_neg l (by omega),hl]
    · have hnil : slice num a b (x::l) = [] := by
        apply slice_eq_nil
        intro y hy _
        have := h.bounds hy
        omega
      rw [hnil,List.nil_append]
      apply slice_congr
      intro y hy
      have := h.bounds hy
      omega

theorem From.slice_within {lo : ℕ} {l : List α} (h : From num lo l) (a b : ℕ) :
    slice num a b l <:+: l := by
  by_cases hab : a ≤ b
  · refine ⟨slice num 0 a l,slice num b (max b (lo+l.length)) l,?_⟩
    rw [h.slice_join (Nat.zero_le a) hab,h.slice_join (Nat.zero_le b) (le_max_left _ _)]
    rw [slice,List.filter_eq_self]
    intro x hx
    have hb := h.bounds hx
    simp only [Bool.and_eq_true,decide_eq_true_eq]
    omega
  · rw [slice_eq_nil fun x _ hx => by omega]
    exact ⟨[],l,rfl⟩

theorem From.filter_slice {lo : ℕ} {l m : List α} (h : From num lo (l++m)) (a b : ℕ) :
    (slice num a b (l++m)).filter (fun x => decide (num x ∉ m.map num)) = slice num a b l := by
  have hgone : (slice num a b m).filter (fun x => decide (num x ∉ m.map num)) = [] := by
    rw [List.filter_eq_nil_iff]
    intro x hx
    have hmem := List.mem_map_of_mem (f:=num) (mem_slice.mp hx).1
    simpa using hmem
  have hstays : (slice num a b l).filter (fun x => decide (num x ∉ m.map num)) = slice num a b l := by
    rw [List.filter_eq_self]
    intro x hx
    rw [decide_eq_true_eq]
    intro hnamed
    obtain ⟨y,hy,hxy⟩ := List.mem_map.mp hnamed
    have hlt := h.lt_of_append (mem_slice.mp hx).1 hy
    omega
  rw [slice_append,List.filter_append,hgone,hstays,List.append_nil]

theorem From.length_slice {lo : ℕ} {l : List α} (h : From num lo l) (a b : ℕ) :
    (slice num a b l).length = min (lo+l.length) b - max lo a := by
  induction l generalizing lo with
  | nil =>
    simp only [slice_nil,List.length_nil]
    omega
  | cons x l ih =>
    have hx := h.1
    have hl := ih h.2
    by_cases hin : a ≤ num x ∧ num x < b
    · rw [slice_cons_pos l hin,List.length_cons,List.length_cons,hl]
      omega
    · rw [slice_cons_neg l hin,hl,List.length_cons]
      omega

theorem slice_map_range' {f : ℕ → α} {lo k : ℕ} (a b : ℕ)
    (hf : ∀ n, lo ≤ n → n < lo+k → num (f n) = n) :
    slice num a b ((List.range' lo k).map f) =
      (List.range' (max lo a) (min (lo+k) b - max lo a)).map f := by
  induction k generalizing lo with
  | zero =>
    rw [show min (lo+0) b - max lo a = 0 by omega]
    rfl
  | succ k ih =>
    have hs := @ih (lo+1) fun n h1 h2 => hf n (by omega) (by omega)
    have h0 := hf lo (by omega) (by omega)
    rw [List.range'_succ,List.map_cons]
    by_cases hin : a ≤ lo ∧ lo < b
    · rw [slice_cons_pos _ (by omega),hs,show max lo a = lo by omega,
        show max (lo+1) a = lo+1 by omega,
        show min (lo+(k+1)) b - lo = (min (lo+1+k) b - (lo+1))+1 by omega,
        List.range'_succ,List.map_cons]
    · rw [slice_cons_neg _ (by omega),hs]
      by_cases ha : a ≤ lo
      · rw [show min (lo+1+k) b - max (lo+1) a = 0 by omega,
          show min (lo+(k+1)) b - max lo a = 0 by omega]
        rfl
      · rw [show max (lo+1) a = max lo a by omega,show lo+1+k = lo+(k+1) by omega]

end Numbered
end Fintrails
