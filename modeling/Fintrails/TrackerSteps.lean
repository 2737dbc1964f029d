import Fintrails.Tracker

/-! What one `observe` does to a tracker whose chain is linked: the block either
attaches to a retained block, which keeps everything up to it, or attaches to
none and drains the chain.  Linkage and the window bound hold whatever is fed. -/
namespace Fintrails

/-- Consecutive numbers, each block naming the one before it as its parent. -/
def Linked (l : List BlockRef) : Prop :=
  l.IsChain fun a b => b.number = a.number+1 ∧ b.parentHash = a.hash

def base (l : List BlockRef) : ℕ := (l.head?.map BlockRef.number).getD 0

@[simp] theorem base_cons (b : BlockRef) (l : List BlockRef) : base (b::l) = b.number := rfl

theorem base_append {l m : List BlockRef} (h : l ≠ []) : base (l++m) = base l := by
  cases l with
  | nil => exact absurd rfl h
  | cons b l => rfl

theorem Linked.numbered {l : List BlockRef} (h : Linked l) :
    Numbered.From BlockRef.number (base l) l := by
  induction l with
  | nil => trivial
  | cons b l ih =>
    refine ⟨rfl,?_⟩
    cases l with
    | nil => trivial
    | cons c l =>
      have hc := (List.isChain_cons_cons.mp h).1.1
      have hl := ih (List.isChain_cons_cons.mp h).2
      rwa [base_cons,hc] at hl

theorem Linked.concat {l : List BlockRef} {b : BlockRef} (h : Linked l)
    (hb : ∀ top, l.getLast? = some top → b.number = top.number+1 ∧ b.parentHash = top.hash) :
    Linked (l++[b]) := by
  apply List.IsChain.append h (List.isChain_singleton b)
  intro x hx y hy
  have hy : b = y := by simpa using hy
  subst hy
  exact hb x hx

theorem Linked.append_left {l m : List BlockRef} (h : Linked (l++m)) : Linked l :=
  h.left_of_append

theorem Linked.append_right {l m : List BlockRef} (h : Linked (l++m)) : Linked m :=
  h.right_of_append

theorem Linked.within {l m : List BlockRef} (h : Linked m) (hl : l <:+: m) : Linked l := by
  obtain ⟨before,after,rfl⟩ := hl
  exact h.append_left.append_right

theorem Linked.base_concat {l : List BlockRef} {b : BlockRef} (h : Linked (l++[b])) :
    base (l++[b]) + l.length = b.number := by
  have hn := (Numbered.from_append _ l [b]).mp h.numbered
  exact hn.2.1.symm

theorem Linked.base_add_length {l : List BlockRef} {top : BlockRef} (h : Linked l)
    (htop : l.getLast? = some top) : base l + l.length = top.number+1 := by
  obtain ⟨l,rfl⟩ := List.getLast?_eq_some_iff.mp htop
  have ht := h.base_concat
  simp only [List.length_append,List.length_singleton]
  omega

theorem Linked.number_le {l : List BlockRef} {top x : BlockRef} (h : Linked l)
    (htop : l.getLast? = some top) (hx : x ∈ l) : x.number ≤ top.number := by
  have hb := h.numbered.bounds hx
  have ht := h.base_add_length htop
  omega

theorem Linked.number_of_take {l : List BlockRef} {b x : BlockRef} {window : ℕ}
    (h : Linked (l++[b])) (hx : x ∈ (l++[b]).take ((l++[b]).length-window)) :
    x.number+window ≤ b.number := by
  have hbase := h.base_concat
  have hfrom := h.numbered
  rw [← List.take_append_drop ((l++[b]).length-window) (l++[b])] at hfrom
  have hb := ((Numbered.from_append _ _ _).mp hfrom).1.bounds hx
  rw [List.take_append_drop] at hb
  simp only [List.length_take,List.length_append,List.length_singleton] at hb
  omega

namespace Tracker

/-- The chain is linked, and neither its numbers nor the watermark has reached
`u64::MAX`, so that no successor the code computes overflows. -/
structure Sound (t : Tracker) : Prop where
  linked : Linked t.chain
  below : ∀ b ∈ t.chain, b.number < 2^64-1
  frontier_lt : t.frontier < 2^64

/-- `block` names `top` as its parent, by number and by hash. -/
def Attaches (block top : BlockRef) : Prop :=
  block.number = top.number+1 ∧ block.parentHash = top.hash

instance attachesDecidable (block top : BlockRef) : Decidable (Attaches block top) :=
  inferInstanceAs (Decidable (_ ∧ _))

theorem attaches_iff {block top : BlockRef} (h : top.number < 2^64-1) :
    attaches block top = true ↔ Attaches block top := by
  have hs : succU64 top.number = top.number+1 := succU64_of_lt (by omega)
  simp only [attaches,Attaches,hs,Bool.and_eq_true,beq_iff_eq]
  exact and_congr eq_comm eq_comm

theorem Sound.mem_kept {t : Tracker} {b x : BlockRef} (hx : x ∈ t.kept b) : x ∈ t.chain :=
  (t.kept_prefix b).subset hx

theorem Sound.last_kept {t : Tracker} (h : t.Sound) {b top : BlockRef}
    (htop : (t.kept b).getLast? = some top) : Attaches b top :=
  (attaches_iff (h.below top (Sound.mem_kept (List.mem_of_getLast? htop)))).mp
    (t.attaches_last_kept b htop)

theorem Sound.kept_linked {t : Tracker} (h : t.Sound) (b : BlockRef) : Linked (t.kept b) :=
  Linked.append_left (m:=t.orphaned b) (by simpa [kept_append_orphaned] using h.linked)

theorem Sound.linked_kept {t : Tracker} (h : t.Sound) (b : BlockRef) : Linked (t.kept b ++ [b]) :=
  Linked.concat (h.kept_linked b) fun _ htop => h.last_kept htop

theorem Sound.kept_getLast? {t : Tracker} (h : t.Sound) {b x : BlockRef} (hx : x ∈ t.chain)
    (ha : Attaches b x) : (t.kept b).getLast? = some x := by
  have hne : t.kept b ≠ [] := by
    intro he
    have hall := List.rdropWhile_eq_nil_iff.mp he x hx
    rw [(attaches_iff (h.below x hx)).mpr ha] at hall
    cases hall
  obtain ⟨top,htop⟩ := Option.isSome_iff_exists.mp (List.getLast?_isSome.mpr hne)
  have hb := h.last_kept htop
  have hmem := Sound.mem_kept (List.mem_of_getLast? htop)
  rw [htop,h.linked.numbered.eq_of_num hmem hx (by have := ha.1; have := hb.1; omega)]

/-- The two ways a block can meet a linked chain. -/
theorem Sound.kept_cases {t : Tracker} (h : t.Sound) (b : BlockRef) :
    (∃ top ∈ t.chain, Attaches b top ∧ (t.kept b).getLast? = some top ∧
      Numbered.From BlockRef.number b.number (t.orphaned b)) ∨
    ((∀ x ∈ t.chain, ¬Attaches b x) ∧ t.kept b = [] ∧ t.orphaned b = t.chain) := by
  cases hk : (t.kept b).getLast? with
  | none =>
    have hnil := List.getLast?_eq_none_iff.mp hk
    refine .inr ⟨?_,hnil,by simpa [hnil] using t.kept_append_orphaned b⟩
    intro x hx ha
    rw [h.kept_getLast? hx ha] at hk
    cases hk
  | some top =>
    have hmem := Sound.mem_kept (List.mem_of_getLast? hk)
    have ha := h.last_kept hk
    refine .inl ⟨top,hmem,ha,rfl,?_⟩
    have hn := h.linked.numbered
    rw [← t.kept_append_orphaned b] at hn
    obtain ⟨l,hl⟩ := List.getLast?_eq_some_iff.mp hk
    have hsplit := (Numbered.from_append _ _ _).mp hn
    have htop := ((Numbered.from_append _ l [top]).mp (hl ▸ hsplit.1)).2.1
    rw [hl,List.length_append,List.length_singleton,← Nat.add_assoc,← htop,← ha.1] at hsplit
    exact hsplit.2

theorem Sound.observe {t : Tracker} (h : t.Sound) {b : BlockRef} (hb : b.number < 2^64-1) :
    (observe t b).1.Sound := by
  have hsuffix := trim_suffix t.window (t.kept b ++ [b])
  rw [← observe_chain] at hsuffix
  refine ⟨(h.linked_kept b).suffix hsuffix,?_,?_⟩
  · intro x hx
    rcases List.mem_append.mp (hsuffix.subset hx) with hk | hk
    · exact h.below x (Sound.mem_kept hk)
    · rw [List.mem_singleton.mp hk]
      exact hb
  · have hp := t.pulled_le_frontier b
    have hf := h.frontier_lt
    rw [observe_frontier]
    omega

theorem Sound.confirmed {t : Tracker} (h : t.Sound) (b : BlockRef) :
    (Tracker.observe t b).2.confirmed = Numbered.slice BlockRef.number (t.pulled b)
      (b.number+1-t.confirmations) (t.kept b ++ [b]) :=
  observe_confirmed (Nat.lt_of_le_of_lt (t.pulled_le_frontier b) h.frontier_lt)

theorem pulled_of_attaches {t : Tracker} {b : BlockRef}
    (h : Numbered.From BlockRef.number b.number (t.orphaned b)) :
    t.pulled b = if t.orphaned b = [] then t.frontier else min t.frontier b.number := by
  rw [pulled_eq]
  cases ho : t.orphaned b with
  | nil => rfl
  | cons x l =>
    rw [ho] at h
    simp [h.1]

theorem pulled_of_drained {t : Tracker} {b : BlockRef} (h : t.orphaned b = t.chain) :
    t.pulled b = if t.chain = [] then t.frontier else min t.frontier (base t.chain) := by
  rw [pulled_eq,h]
  cases t.chain <;> rfl

theorem Sound.pulled_le_number {t : Tracker} (h : t.Sound)
    (hhead : ∀ top ∈ t.head, t.frontier ≤ top.number+1) {b x : BlockRef} (hx : x ∈ t.chain)
    (ha : Attaches b x) : t.pulled b ≤ b.number := by
  rcases h.kept_cases b with ⟨top,_,hb,hlast,hfrom⟩ | ⟨hnone,_⟩
  · rw [pulled_of_attaches hfrom]
    split
    · rename_i hnil
      have hchain := t.kept_append_orphaned b
      rw [hnil,List.append_nil] at hchain
      rw [hb.1]
      exact hhead top (by rw [head,← hchain]; exact hlast)
    · exact min_le_right _ _
  · exact absurd ha (hnone x hx)

/-- Nothing at or above the pulled frontier is left by a rollback, ... -/
theorem Sound.pulled_le_orphaned {t : Tracker} (h : t.Sound) {b x : BlockRef}
    (hx : x ∈ t.orphaned b) : t.pulled b ≤ x.number := by
  have hl : Linked (t.orphaned b) :=
    Linked.append_right (l:=t.kept b) (by simpa [kept_append_orphaned] using h.linked)
  have hb := (hl.numbered.bounds hx).1
  rw [pulled_eq]
  cases ho : t.orphaned b with
  | nil => simp [ho] at hx
  | cons y l =>
    rw [ho,base_cons] at hb
    exact (min_le_right _ _).trans hb

/-- ... and every confirmed height at or above it is named as orphaned. -/
theorem Sound.lt_pulled {t : Tracker} (h : t.Sound) {b top : BlockRef} {n : ℕ}
    (htop : t.head = some top) (hhead : t.frontier ≤ top.number+1) (hn : n < t.frontier)
    (hnot : n ∉ (t.orphaned b).map BlockRef.number) : n < t.pulled b := by
  have hl : Linked (t.orphaned b) :=
    Linked.append_right (l:=t.kept b) (by simpa [kept_append_orphaned] using h.linked)
  rw [pulled_eq]
  cases ho : t.orphaned b with
  | nil => exact hn
  | cons y l =>
    refine lt_min hn ?_
    by_contra hle
    have hlast : (t.orphaned b).getLast? = some top := by
      rw [head,← t.kept_append_orphaned b,
        List.getLast?_append_of_ne_nil _ (by simp [ho])] at htop
      exact htop
    have hend := hl.base_add_length hlast
    rw [ho,base_cons] at hend
    rw [ho] at hl hnot
    obtain ⟨x,hx,hnum⟩ := hl.numbered.exists_num (n:=n) (by simp; omega) (by simp at hend ⊢; omega)
    exact hnot (List.mem_map.mpr ⟨x,hx,hnum⟩)

/-- A trimmed block lies at least `window` below the head. -/
theorem Sound.trimmed_number {t : Tracker} (h : t.Sound) {b x : BlockRef}
    (hx : x ∈ t.kept b ++ [b]) (hout : x ∉ (Tracker.observe t b).1.chain) :
    x.number + t.window ≤ b.number := by
  rw [observe_chain,trim_eq_drop] at hout
  rw [← List.take_append_drop ((t.kept b ++ [b]).length-t.window) (t.kept b ++ [b])] at hx
  rcases List.mem_append.mp hx with hx | hx
  · exact (h.linked_kept b).number_of_take hx
  · exact absurd hx hout

def fresh (confirmations window : ℕ) (h : confirmations < window) : Tracker :=
  ⟨confirmations,[],window,none,h⟩

theorem withWindow_eq {confirmations window : ℕ} (h : confirmations < window) :
    withWindow confirmations window = some (fresh confirmations window h) := by
  simp [withWindow,h,fresh]

theorem fresh_sound (confirmations window : ℕ) (h : confirmations < window) :
    (fresh confirmations window h).Sound :=
  ⟨List.isChain_nil,by simp [fresh],by simp [fresh,frontier,nextHeight]⟩

@[simp] theorem fresh_frontier (confirmations window : ℕ) (h : confirmations < window) :
    (fresh confirmations window h).frontier = 0 := rfl

@[simp] theorem fresh_chain (confirmations window : ℕ) (h : confirmations < window) :
    (fresh confirmations window h).chain = [] := rfl

def block (number : ℕ) : BlockRef :=
  ⟨number,BitVec.ofNat 256 number,BitVec.ofNat 256 (number-1)⟩

def alt (number : ℕ) (parentHash : B256) : BlockRef :=
  ⟨number,BitVec.ofNat 256 (2^255+number),parentHash⟩

end Tracker
end Fintrails
