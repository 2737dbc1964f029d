import Mathlib.Data.List.Induction
import Mathlib.Tactic.Common

/-! Streams that add keyed items and later retract every item under some keys.
`standing` is what a consumer holds after a prefix of such a stream.  A stream
may be read at two grains: expanding every added item by a function that keeps
keys expands what stands by the same function. -/
namespace Fintrails
namespace Standing

variable {α β : Type*}

/-- One element of the stream: first the keys it retracts, then what it adds. -/
structure Batch (α : Type*) where
  retracted : List ℕ
  added : List α

def absorb (key : α → ℕ) (held : List α) (b : Batch α) : List α :=
  held.filter (fun a => decide (key a ∉ b.retracted)) ++ b.added

/-- What stands after the stream, for a consumer that already holds `held`. -/
def standingFrom (key : α → ℕ) (held : List α) (bs : List (Batch α)) : List α :=
  bs.foldl (absorb key) held

def standing (key : α → ℕ) (bs : List (Batch α)) : List α := standingFrom key [] bs

variable {key : α → ℕ}

@[simp] theorem standing_nil : standing key [] = [] := rfl

theorem standing_append (bs cs : List (Batch α)) :
    standing key (bs++cs) = standingFrom key (standing key bs) cs := by
  simp [standing,standingFrom]

theorem standing_concat (bs : List (Batch α)) (b : Batch α) :
    standing key (bs++[b]) = absorb key (standing key bs) b := by
  simp [standing,standingFrom]

@[simp] theorem absorb_add (held added : List α) :
    absorb key held ⟨[],added⟩ = held ++ added := by
  simp [absorb]

theorem standingFrom_singles (held l : List α) :
    standingFrom key held (l.map fun a => ⟨[],[a]⟩) = held ++ l := by
  induction l generalizing held with
  | nil => simp [standingFrom]
  | cons a l ih =>
    have hh := ih (held++[a])
    simp only [standingFrom,List.map_cons,List.foldl_cons,absorb_add] at hh ⊢
    simpa using hh

theorem filter_flatMap_key {key' : β → ℕ} {f : α → List β} (retracted : List ℕ) (held : List α)
    (hkey : ∀ a ∈ held, ∀ e ∈ f a, key' e = key a) :
    (held.flatMap f).filter (fun e => decide (key' e ∉ retracted)) =
      (held.filter fun a => decide (key a ∉ retracted)).flatMap f := by
  induction held with
  | nil => rfl
  | cons a held ih =>
    have ha := hkey a (by simp)
    have htail := ih fun b hb => hkey b (by simp [hb])
    rw [List.flatMap_cons,List.filter_append,htail]
    by_cases hr : key a ∈ retracted
    · have hnil : (f a).filter (fun e => decide (key' e ∉ retracted)) = [] := by
        simp only [List.filter_eq_nil_iff,decide_eq_true_eq,not_not]
        intro e he
        rwa [ha e he]
      rw [hnil,List.filter_cons_of_neg (by simpa using hr),List.nil_append]
    · have hall : (f a).filter (fun e => decide (key' e ∉ retracted)) = f a := by
        simp only [List.filter_eq_self,decide_eq_true_eq]
        intro e he
        rwa [ha e he]
      rw [hall,List.filter_cons_of_pos (by simpa using hr),List.flatMap_cons]

theorem standing_flatMap {key' : β → ℕ} {f : α → List β} (bs : List (Batch α))
    (hkey : ∀ b ∈ bs, ∀ a ∈ b.added, ∀ e ∈ f a, key' e = key a) :
    standing key' (bs.map fun b => ⟨b.retracted,b.added.flatMap f⟩) =
      (standing key bs).flatMap f ∧
    ∀ a ∈ standing key bs, ∀ e ∈ f a, key' e = key a := by
  induction bs using List.reverseRecOn with
  | nil => simp
  | append_singleton bs b ih =>
    obtain ⟨heq,hmem⟩ := ih fun c hc => hkey c (by simp [hc])
    have hb := hkey b (by simp)
    rw [List.map_append,List.map_singleton,standing_concat,standing_concat,heq]
    constructor
    · simp only [absorb,List.flatMap_append]
      rw [filter_flatMap_key b.retracted _ hmem]
    · intro a ha
      rcases List.mem_append.mp ha with ha | ha
      · exact hmem a (List.mem_filter.mp ha).1
      · exact hb a ha

end Standing
end Fintrails
