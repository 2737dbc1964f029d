import Mathlib.Data.List.Nodup
import Mathlib.Data.Prod.Basic
import Fintrails.Firsts
import Fintrails.Machine

/-! A register that is written once under each key.  A later write under a known key
changes nothing, and is told whether the value is the one on record.  Renaming the keys and
the values one to one commutes with writing, so a register of one kind carries over to
another, answers included. -/
namespace Fintrails

/-- The entries in the order in which they were written, no key twice. -/
structure Register (κ ν : Type*) where
  entries : List (κ × ν)
  nodup : (entries.map Prod.fst).Nodup

/-- What a write is told: the key was free, or is on record with this or another value. -/
inductive Written
  | fresh
  | same
  | other
  deriving DecidableEq, Repr

namespace Register

variable {κ ν κ' ν' : Type*}

theorem ext {r r' : Register κ ν} (h : r.entries = r'.entries) : r = r' := by
  cases r
  cases r'
  simp_all

def empty : Register κ ν := ⟨[],List.nodup_nil⟩

section Write

variable [DecidableEq κ]

def lookup (r : Register κ ν) (k : κ) : Option ν :=
  (r.entries.find? fun e => decide (e.1 = k)).map Prod.snd

theorem lookup_eq_none_iff {r : Register κ ν} {k : κ} :
    r.lookup k = none ↔ k ∉ r.entries.map Prod.fst := by
  rw [lookup,Option.map_eq_none_iff,List.find?_eq_none,List.mem_map]
  simp only [decide_eq_true_eq,not_exists,not_and]

def add (r : Register κ ν) (e : κ × ν) (h : e.1 ∉ r.entries.map Prod.fst) : Register κ ν :=
  ⟨r.entries ++ [e],by
    rw [List.map_append,List.map_singleton]
    exact r.nodup.append (List.nodup_singleton _) (List.disjoint_singleton.mpr h)⟩

variable [DecidableEq ν]

def write (r : Register κ ν) (e : κ × ν) : Register κ ν × Written :=
  match h : r.lookup e.1 with
  | some v => (r,if v = e.2 then .same else .other)
  | none => (r.add e (lookup_eq_none_iff.mp h),.fresh)

theorem write_known {r : Register κ ν} {e : κ × ν} {v : ν} (h : r.lookup e.1 = some v) :
    r.write e = (r,if v = e.2 then .same else .other) := by
  rw [write]
  split
  · rename_i w hw
    obtain rfl : v = w := Option.some.inj (h.symm.trans hw)
    rfl
  · rename_i hnone
    cases h.symm.trans hnone

theorem write_free {r : Register κ ν} {e : κ × ν} (h : r.lookup e.1 = none) :
    r.write e = (r.add e (lookup_eq_none_iff.mp h),.fresh) := by
  rw [write]
  split
  · rename_i w hw
    cases h.symm.trans hw
  · rfl

theorem lookup_write (r : Register κ ν) (e : κ × ν) (k : κ) :
    (r.write e).1.lookup k = (r.lookup k).or (if e.1 = k then some e.2 else none) := by
  cases hl : r.lookup e.1 with
  | some v =>
    rw [write_known hl]
    by_cases hk : e.1 = k
    · rw [← hk,hl,Option.some_or]
    · rw [if_neg hk,Option.or_none]
  | none =>
    rw [write_free hl]
    simp only [lookup,add,List.find?_append,Option.map_or,List.find?_singleton]
    by_cases hk : e.1 = k <;> simp [hk]

theorem entries_final (es : List (κ × ν)) :
    (Machine.final write (empty : Register κ ν) es).entries = firsts Prod.fst es := by
  induction es using List.reverseRecOn with
  | nil => rfl
  | append_singleton es e ih =>
    rw [Machine.final_append,Firsts.firsts_concat]
    simp only [Machine.final]
    have hknown : (Machine.final write (empty : Register κ ν) es).lookup e.1 = none ↔
        e.1 ∉ es.map Prod.fst := by
      rw [lookup_eq_none_iff,ih,Firsts.mem_map_firsts]
    by_cases hmem : e.1 ∈ es.map Prod.fst
    · obtain ⟨v,hv⟩ := Option.ne_none_iff_exists'.mp (mt hknown.mp (not_not_intro hmem))
      rw [write_known hv,if_pos hmem,ih]
    · rw [write_free (hknown.mpr hmem),if_neg hmem]
      exact congrArg (· ++ [e]) ih

end Write

section Map

variable {f : κ → κ'} {g : ν → ν'}

def map (r : Register κ ν) (f : κ → κ') (g : ν → ν') (hf : Function.Injective f) : Register κ' ν' :=
  ⟨r.entries.map (Prod.map f g),by
    have hh := r.nodup.map hf
    rwa [List.map_map] at hh ⊢⟩

theorem map_injective (hf : Function.Injective f) (hg : Function.Injective g)
    {r r' : Register κ ν} (h : r.map f g hf = r'.map f g hf) : r = r' :=
  ext (List.map_injective_iff.mpr (hf.prodMap hg) (congrArg entries h))

variable [DecidableEq κ] [DecidableEq κ']

theorem lookup_map (r : Register κ ν) (hf : Function.Injective f) (k : κ) :
    (r.map f g hf).lookup (f k) = (r.lookup k).map g := by
  simp only [lookup,map,List.find?_map,Option.map_map]
  have hkey : (fun e : κ' × ν' => decide (e.1 = f k)) ∘ Prod.map f g =
      fun e : κ × ν => decide (e.1 = k) := by
    funext e
    simp [hf.eq_iff]
  rw [hkey]
  rfl

theorem write_map [DecidableEq ν] [DecidableEq ν'] (r : Register κ ν) (hf : Function.Injective f)
    (hg : Function.Injective g) (e : κ × ν) :
    (r.map f g hf).write (f e.1,g e.2) = ((r.write e).1.map f g hf,(r.write e).2) := by
  have hlookup := lookup_map (g:=g) r hf e.1
  cases hl : r.lookup e.1 with
  | some v =>
    rw [hl] at hlookup
    rw [write_known hl,write_known hlookup]
    simp only [hg.eq_iff]
  | none =>
    rw [hl] at hlookup
    rw [write_free hl,write_free hlookup]
    refine Prod.ext (ext ?_) rfl
    simp only [add,map,List.map_append,List.map_singleton,Prod.map]

end Map

end Register
end Fintrails
