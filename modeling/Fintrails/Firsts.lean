import Mathlib.Data.List.Nodup
import Mathlib.Data.List.Induction

/-! The first item of each key in a list: what is left of a stream once repeats of a key
are dropped. -/
namespace Fintrails

variable {α β κ : Type*} [DecidableEq κ]

/-- Keep an item only if no earlier one has its key. -/
def firsts (key : α → κ) : List α → List α
  | [] => []
  | a::as => a :: (firsts key as).filter fun b => decide (key b ≠ key a)

/-- The items whose key is among `seen` or is that of an earlier item. -/
def repeatsAfter (key : α → κ) (seen : List κ) : List α → List α
  | [] => []
  | a::as =>
    if key a ∈ seen then a :: repeatsAfter key seen as else repeatsAfter key (key a::seen) as

def repeats (key : α → κ) (as : List α) : List α := repeatsAfter key [] as

namespace Firsts

variable {key : α → κ}

@[simp] theorem firsts_nil : firsts key [] = [] := rfl

theorem firsts_sublist (as : List α) : (firsts key as).Sublist as := by
  induction as with
  | nil => exact .slnil
  | cons a as ih => exact (List.filter_sublist.trans ih).cons_cons a

theorem find?_firsts (as : List α) (k : κ) :
    (firsts key as).find? (fun a => decide (key a = k)) = as.find? fun a => decide (key a = k) := by
  induction as with
  | nil => rfl
  | cons a as ih =>
    simp only [firsts,List.find?_cons]
    by_cases hk : key a = k
    · simp [hk]
    · simp only [hk,decide_false]
      rw [← ih,List.find?_filter]
      congr 1
      funext b
      by_cases hb : key b = k
      · subst hb
        simp [Ne.symm hk]
      · simp [hb]

theorem mem_map_firsts {as : List α} {k : κ} : k ∈ (firsts key as).map key ↔ k ∈ as.map key := by
  have hfind : ∀ l : List α, k ∈ l.map key ↔ (l.find? fun a => decide (key a = k)).isSome = true := by
    intro l
    simp
  rw [hfind,hfind,find?_firsts]

theorem nodup_firsts (as : List α) : ((firsts key as).map key).Nodup := by
  induction as with
  | nil => exact List.nodup_nil
  | cons a as ih =>
    refine List.nodup_cons.mpr ⟨fun hmem => ?_,ih.sublist (List.filter_sublist.map key)⟩
    obtain ⟨b,hb,hkey⟩ := List.mem_map.mp hmem
    exact absurd hkey (by simpa using (List.mem_filter.mp hb).2)

theorem firsts_of_nodup {as : List α} (h : (as.map key).Nodup) : firsts key as = as := by
  induction as with
  | nil => rfl
  | cons a as ih =>
    obtain ⟨hfresh,hrest⟩ := List.nodup_cons.mp h
    rw [firsts,ih hrest,List.filter_eq_self.mpr]
    intro b hb
    refine decide_eq_true fun hkey => hfresh ?_
    rw [← hkey]
    exact List.mem_map_of_mem hb

theorem find?_eq_some_of_nodup {l : List α} (hl : (l.map key).Nodup) {a : α} (ha : a ∈ l) :
    l.find? (fun b => decide (key b = key a)) = some a := by
  obtain ⟨b,hb⟩ : ∃ b, l.find? (fun b => decide (key b = key a)) = some b :=
    Option.isSome_iff_exists.mp (List.find?_isSome.mpr ⟨a,ha,decide_eq_true rfl⟩)
  have hkey : key b = key a := by simpa using List.find?_some hb
  rw [hb,List.inj_on_of_nodup_map hl (List.mem_of_find?_eq_some hb) ha hkey]

theorem firsts_concat (as : List α) (a : α) : firsts key (as++[a]) =
    if key a ∈ as.map key then firsts key as else firsts key as ++ [a] := by
  induction as with
  | nil => rfl
  | cons b as ih =>
    rw [List.cons_append,firsts,ih,List.map_cons]
    by_cases hb : key a = key b
    · rw [if_pos (show key a ∈ key b :: as.map key by simp [hb])]
      by_cases has : key a ∈ as.map key
      · rw [if_pos has,firsts]
      · rw [if_neg has,firsts,List.filter_append]
        simp [hb]
    · by_cases has : key a ∈ as.map key
      · rw [if_pos has,if_pos (List.mem_cons_of_mem _ has),firsts]
      · rw [if_neg has,if_neg (by simp [hb,has]),firsts,List.filter_append]
        simp [hb]

theorem firsts_append (as bs : List α) : firsts key (as++bs) =
    firsts key as ++ (firsts key bs).filter fun b => decide (key b ∉ as.map key) := by
  induction as with
  | nil => simp
  | cons a as ih =>
    rw [List.cons_append,firsts,firsts,ih,List.filter_append,List.filter_filter,List.cons_append]
    congr 2
    apply List.filter_congr
    intro b _
    simp [not_or]

theorem firsts_append_congr {as as' : List α} (h : firsts key as = firsts key as') (bs : List α) :
    firsts key (as++bs) = firsts key (as'++bs) := by
  have hkeys : ∀ k, k ∈ as.map key ↔ k ∈ as'.map key := by
    intro k
    rw [← mem_map_firsts,h,mem_map_firsts]
  simp only [firsts_append,h,hkeys]

theorem firsts_append_known {as bs : List α} (h : ∀ b ∈ bs, key b ∈ as.map key) :
    firsts key (as++bs) = firsts key as := by
  rw [firsts_append,List.filter_eq_nil_iff.mpr,List.append_nil]
  intro b hb
  simpa using h b ((firsts_sublist bs).subset hb)

theorem firsts_prefix_append {as bs : List α} (h : as <+: bs) :
    firsts key (as++bs) = firsts key bs := by
  obtain ⟨cs,rfl⟩ := h
  have hknown : firsts key (as++as) = firsts key as :=
    firsts_append_known fun b hb => List.mem_map_of_mem hb
  rw [← List.append_assoc]
  exact firsts_append_congr hknown cs

variable (key) in
theorem exists_longest {l : List α} (q : α → Bool) {ls : List (List α)} (h : ∀ as ∈ ls, as <+: l)
    (hne : ls ≠ []) : ∃ longest ∈ ls, (∀ as ∈ ls, as <+: longest) ∧
      firsts key (ls.flatten.filter q) = firsts key (longest.filter q) := by
  induction ls using List.reverseRecOn with
  | nil => exact absurd rfl hne
  | append_singleton ls bs ih =>
    by_cases hnil : ls = []
    · subst hnil
      exact ⟨bs,by simp,by simp,by simp⟩
    · obtain ⟨longest,hmem,hall,hfirsts⟩ := ih (fun as has => h as (by simp [has])) hnil
      have hsplit : firsts key ((ls++[bs]).flatten.filter q) =
          firsts key (longest.filter q ++ bs.filter q) := by
        rw [List.flatten_append,List.filter_append,firsts_append_congr hfirsts]
        simp
      rcases List.prefix_or_prefix_of_prefix (h longest (by simp [hmem])) (h bs (by simp))
        with hle | hle
      · refine ⟨bs,by simp,fun as has => ?_,?_⟩
        · rcases List.mem_append.mp has with has | has
          · exact (hall as has).trans hle
          · obtain rfl := List.mem_singleton.mp has
            exact List.prefix_rfl
        · rw [hsplit,firsts_prefix_append (hle.filter q)]
      · refine ⟨longest,by simp [hmem],fun as has => ?_,?_⟩
        · rcases List.mem_append.mp has with has | has
          · exact hall as has
          · rw [List.mem_singleton.mp has]
            exact hle
        · rw [hsplit,firsts_append_known fun b hb =>
            List.mem_map_of_mem ((hle.filter q).subset hb)]

theorem firsts_map {κ' : Type*} [DecidableEq κ'] {key' : β → κ'} {f : α → β} {as : List α}
    (h : ∀ a ∈ as, ∀ b ∈ as, key' (f a) = key' (f b) ↔ key a = key b) :
    firsts key' (as.map f) = (firsts key as).map f := by
  induction as with
  | nil => rfl
  | cons a as ih =>
    have hrest := ih fun b hb c hc => h b (by simp [hb]) c (by simp [hc])
    rw [List.map_cons,firsts,hrest,firsts,List.map_cons,List.filter_map]
    congr 2
    apply List.filter_congr
    intro b hb
    have hbm := (firsts_sublist as).subset hb
    simp only [Function.comp_apply,decide_eq_decide]
    exact not_congr (h b (by simp [hbm]) a (by simp))

theorem firsts_filter {q : α → Bool} {as : List α}
    (h : ∀ a ∈ as, ∀ b ∈ as, key a = key b → q a = q b) :
    firsts key (as.filter q) = (firsts key as).filter q := by
  induction as with
  | nil => rfl
  | cons a as ih =>
    have hrest := ih fun b hb c hc => h b (by simp [hb]) c (by simp [hc])
    cases hq : q a with
    | true =>
      rw [List.filter_cons_of_pos hq,firsts,hrest,firsts,List.filter_cons_of_pos hq,
        List.filter_filter,List.filter_filter]
      simp only [Bool.and_comm]
    | false =>
      rw [List.filter_cons_of_neg (by simp [hq]),hrest,firsts,
        List.filter_cons_of_neg (by simp [hq]),List.filter_filter]
      apply List.filter_congr
      intro b hb
      have hbm := (firsts_sublist as).subset hb
      by_cases hkey : key b = key a
      · simp [h b (by simp [hbm]) a (by simp) hkey,hq]
      · simp [hkey]

theorem repeatsAfter_concat (seen : List κ) (as : List α) (a : α) :
    repeatsAfter key seen (as++[a]) = repeatsAfter key seen as ++
      if key a ∈ seen ∨ key a ∈ as.map key then [a] else [] := by
  induction as generalizing seen with
  | nil => by_cases h : key a ∈ seen <;> simp [repeatsAfter,h]
  | cons b as ih =>
    rw [List.cons_append,repeatsAfter,repeatsAfter,List.map_cons]
    by_cases hb : key b ∈ seen
    · have hiff : (key a ∈ seen ∨ key a ∈ as.map key) ↔
          (key a ∈ seen ∨ key a ∈ key b :: as.map key) := by
        rw [List.mem_cons]
        constructor
        · rintro (h | h)
          · exact .inl h
          · exact .inr (.inr h)
        · rintro (h | h | h)
          · exact .inl h
          · exact .inl (h ▸ hb)
          · exact .inr h
      simp only [hb,if_true,ih,hiff,List.cons_append]
    · have hiff : (key a ∈ key b :: seen ∨ key a ∈ as.map key) ↔
          (key a ∈ seen ∨ key a ∈ key b :: as.map key) := by
        rw [List.mem_cons,List.mem_cons]
        tauto
      simp only [hb,if_false,ih,hiff]

theorem repeats_concat (as : List α) (a : α) :
    repeats key (as++[a]) = repeats key as ++ if key a ∈ as.map key then [a] else [] := by
  rw [repeats,repeatsAfter_concat]
  simp [repeats]

end Firsts
end Fintrails
