import Mathlib.Data.Set.Function
import Fintrails.Firsts
import Fintrails.Ledger
import Fintrails.Machine

/-! The in-memory store: an append-only journal and an index from idempotency keys to
positions in it.  After any calls it is the store that holds the first transaction
appended under each key, in that order. -/
namespace Fintrails

def matching (account : AccountId) (asset : Asset) (postings : List Posting) : List I128 :=
  (postings.filter fun p => decide (p.account = account) && decide (p.asset = asset)).map
    Posting.amount

def orOverflow (account : AccountId) (asset : Asset) : Option I128 → Except LedgerError I128
  | some balance => .ok balance
  | none => .error (.overflow account asset)

@[simp] theorem orOverflow_some (account : AccountId) (asset : Asset) (balance : I128) :
    orOverflow account asset (some balance) = .ok balance := rfl

@[simp] theorem orOverflow_none (account : AccountId) (asset : Asset) :
    orOverflow account asset none = .error (.overflow account asset) := rfl

/-- Balance of an account in an asset: a checked fold over every matching posting. -/
def balanceOf (txs : List Transaction) (account : AccountId) (asset : Asset) :
    Except LedgerError I128 :=
  orOverflow account asset
    (Signed.checkedSum 0 (matching account asset (txs.flatMap Transaction.postings)))

section Balance

variable {txs : List Transaction} {account : AccountId} {asset : Asset}

@[simp] theorem matching_append (ps qs : List Posting) :
    matching account asset (ps++qs) = matching account asset ps ++ matching account asset qs := by
  simp [matching]

theorem matching_eq_nil {postings : List Posting}
    (h : ∀ p ∈ postings, ¬(p.account = account ∧ p.asset = asset)) :
    matching account asset postings = [] := by
  rw [matching,List.filter_eq_nil_iff.mpr fun p hp => by simpa using h p hp]
  rfl

theorem balanceOf_eq_ok_iff {balance : I128} : balanceOf txs account asset = .ok balance ↔
    Signed.checkedSum 0 (matching account asset (txs.flatMap Transaction.postings)) = some balance := by
  rw [balanceOf]
  cases Signed.checkedSum 0 (matching account asset (txs.flatMap Transaction.postings)) <;> simp

theorem balanceOf_eq_error_iff : balanceOf txs account asset = .error (.overflow account asset) ↔
    Signed.checkedSum 0 (matching account asset (txs.flatMap Transaction.postings)) = none := by
  rw [balanceOf]
  cases Signed.checkedSum 0 (matching account asset (txs.flatMap Transaction.postings)) <;> simp

theorem balanceOf_cases (txs : List Transaction) (account : AccountId) (asset : Asset) :
    (∃ balance, balanceOf txs account asset = .ok balance) ∨
      balanceOf txs account asset = .error (.overflow account asset) := by
  cases h : Signed.checkedSum 0 (matching account asset (txs.flatMap Transaction.postings)) with
  | some balance => exact .inl ⟨balance,balanceOf_eq_ok_iff.mpr h⟩
  | none => exact .inr (balanceOf_eq_error_iff.mpr h)

theorem balanceOf_concat_error (tx : Transaction)
    (h : balanceOf txs account asset = .error (.overflow account asset)) :
    balanceOf (txs++[tx]) account asset = .error (.overflow account asset) := by
  rw [balanceOf_eq_error_iff] at h ⊢
  rw [List.flatMap_append,matching_append,Signed.checkedSum_append,h]
  rfl

end Balance

/-- `keys` gives the position in `journal` of the transaction of each idempotency key. -/
structure InMemoryStore where
  journal : List Transaction
  keys : AList fun _ : String => ℕ

namespace InMemoryStore

def new : InMemoryStore := ⟨[],∅⟩

abbrev Call := String × Transaction

/-- The store afterwards, and what the call returned; `none` is the panic of an index out
of bounds. -/
def append (s : InMemoryStore) (call : Call) : InMemoryStore × Option (Except LedgerError Unit) :=
  match s.keys.lookup call.1 with
  | some idx =>
    match s.journal[idx]? with
    | some tx => (s,some (if tx = call.2 then .ok () else .error (.idempotencyConflict call.1)))
    | none => (s,none)
  | none => (⟨s.journal ++ [call.2],s.keys.insert call.1 s.journal.length⟩,some (.ok ()))

def balance (s : InMemoryStore) (account : AccountId) (asset : Asset) : Except LedgerError I128 :=
  balanceOf s.journal account asset

def stored (s : InMemoryStore) (key : String) : Option Transaction :=
  (s.keys.lookup key).bind fun idx => s.journal[idx]?

def firstUnder (calls : List Call) (key : String) : Option Transaction :=
  (calls.find? fun c => decide (c.1 = key)).map Prod.snd

theorem firstUnder_isSome_iff {calls : List Call} {key : String} :
    (∃ tx, firstUnder calls key = some tx) ↔ key ∈ calls.map Prod.fst := by
  rw [← Option.isSome_iff_exists]
  simp [firstUnder]

theorem firstUnder_none_iff {calls : List Call} {key : String} :
    firstUnder calls key = none ↔ key ∉ calls.map Prod.fst := by
  rw [← firstUnder_isSome_iff]
  cases firstUnder calls key <;> simp

theorem firstUnder_concat (calls : List Call) (c : Call) (key : String) :
    firstUnder (calls++[c]) key =
      (firstUnder calls key).or (if c.1 = key then some c.2 else none) := by
  simp only [firstUnder,List.find?_append]
  cases calls.find? fun d => decide (d.1 = key) with
  | none => by_cases h : c.1 = key <;> simp [h]
  | some d => rfl

theorem firstUnder_append_of_some {calls : List Call} {key : String} {tx : Transaction}
    (h : firstUnder calls key = some tx) (more : List Call) :
    firstUnder (calls++more) key = some tx := by
  obtain ⟨c,hc,rfl⟩ := Option.map_eq_some_iff.mp h
  rw [firstUnder,List.find?_append,hc]
  rfl

theorem mem_of_firstUnder {calls : List Call} {key : String} {tx : Transaction}
    (h : firstUnder calls key = some tx) : (key,tx) ∈ calls := by
  obtain ⟨c,hc,rfl⟩ := Option.map_eq_some_iff.mp h
  have hkey : c.1 = key := by simpa using List.find?_some hc
  rw [← hkey]
  exact List.mem_of_find?_eq_some hc

/-- The store holds exactly the first call of each key, in order. -/
structure Holds (calls : List Call) (s : InMemoryStore) : Prop where
  journal : s.journal = (firsts Prod.fst calls).map Prod.snd
  index : ∀ key idx, s.keys.lookup key = some idx ↔
    ((firsts Prod.fst calls).map Prod.fst)[idx]? = some key

theorem new_holds : Holds [] new where
  journal := rfl
  index := by simp [new]

variable {calls : List Call} {s : InMemoryStore} {c : Call}

theorem Holds.lookup_none_iff (h : Holds calls s) {key : String} :
    s.keys.lookup key = none ↔ key ∉ calls.map Prod.fst := by
  rw [← Firsts.mem_map_firsts,List.mem_iff_getElem?]
  constructor
  · rintro hnone ⟨idx,hidx⟩
    rw [(h.index key idx).mpr hidx] at hnone
    cases hnone
  · intro hno
    cases hl : s.keys.lookup key with
    | none => rfl
    | some idx => exact absurd ⟨idx,(h.index key idx).mp hl⟩ hno

theorem Holds.getElem?_of_lookup (h : Holds calls s) {key : String} {idx : ℕ}
    (hl : s.keys.lookup key = some idx) : ∃ tx, s.journal[idx]? = some tx ∧
      firstUnder calls key = some tx := by
  have hkey := (h.index key idx).mp hl
  rw [List.getElem?_map,Option.map_eq_some_iff] at hkey
  obtain ⟨d,hd,rfl⟩ := hkey
  refine ⟨d.2,by simp [h.journal,hd],?_⟩
  rw [firstUnder,← Firsts.find?_firsts,
    Firsts.find?_eq_some_of_nodup (Firsts.nodup_firsts calls) (List.mem_of_getElem? hd)]
  rfl

theorem Holds.stored (h : Holds calls s) (key : String) : s.stored key = firstUnder calls key := by
  rw [InMemoryStore.stored]
  cases hl : s.keys.lookup key with
  | none => exact (firstUnder_none_iff.mpr (h.lookup_none_iff.mp hl)).symm
  | some idx =>
    obtain ⟨tx,hat,hfirst⟩ := h.getElem?_of_lookup hl
    rw [hfirst,← hat]
    rfl

theorem Holds.append_known (h : Holds calls s) {first : Transaction}
    (hfirst : firstUnder calls c.1 = some first) : s.append c =
      (s,some (if first = c.2 then .ok () else .error (.idempotencyConflict c.1))) := by
  cases hl : s.keys.lookup c.1 with
  | none =>
    rw [firstUnder_none_iff.mpr (h.lookup_none_iff.mp hl)] at hfirst
    cases hfirst
  | some idx =>
    obtain ⟨tx,hat,htx⟩ := h.getElem?_of_lookup hl
    obtain rfl : first = tx := Option.some.inj (hfirst.symm.trans htx)
    simp only [append,hl,hat]

theorem append_fresh (hl : s.keys.lookup c.1 = none) : s.append c =
    (⟨s.journal ++ [c.2],s.keys.insert c.1 s.journal.length⟩,some (.ok ())) := by
  simp only [append,hl]

/-- One call keeps the store what its calls say. -/
theorem Holds.append (h : Holds calls s) (c : Call) :
    Holds (calls++[c]) (s.append c).1 := by
  by_cases hknown : c.1 ∈ calls.map Prod.fst
  · obtain ⟨first,hfirst⟩ := firstUnder_isSome_iff.mpr hknown
    rw [h.append_known hfirst]
    refine ⟨?_,?_⟩ <;> rw [Firsts.firsts_concat,if_pos hknown]
    · exact h.journal
    · exact h.index
  · rw [append_fresh (h.lookup_none_iff.mpr hknown)]
    have hlength : s.journal.length = (firsts Prod.fst calls).length := by simp [h.journal]
    refine ⟨?_,?_⟩ <;> rw [Firsts.firsts_concat,if_neg hknown]
    · simp [h.journal]
    · intro key idx
      by_cases hkey : key = c.1
      · subst hkey
        rw [AList.lookup_insert,Option.some.injEq,List.map_append,List.getElem?_append]
        have hnone : ∀ i, ((firsts Prod.fst calls).map Prod.fst)[i]? ≠ some c.1 :=
          fun i hi => hknown (Firsts.mem_map_firsts.mp (List.mem_of_getElem? hi))
        split
        · rename_i hlt
          rw [List.length_map] at hlt
          exact iff_of_false (by omega) (hnone idx)
        · rename_i hge
          rw [List.length_map] at hge ⊢
          rw [List.map_singleton,List.getElem?_singleton,hlength]
          split <;> simp <;> omega
      · rw [AList.lookup_insert_ne hkey,h.index,List.map_append,List.getElem?_append]
        split
        · rfl
        · rename_i hge
          rw [List.getElem?_eq_none (by omega),List.map_singleton,List.getElem?_singleton]
          split <;> simp [Ne.symm hkey]

theorem final_holds (calls : List Call) : Holds calls (Machine.final append new calls) := by
  have hstep : ∀ (hist : List (Call × Option (Except LedgerError Unit))) s c,
      Holds (hist.map Prod.fst) s → True →
      Holds ((hist ++ [(c,(append s c).2)]).map Prod.fst) (append s c).1 :=
    fun _ _ c h _ => by simpa using h.append c
  have hall : Machine.Guarded append (fun _ _ => True) new calls :=
    Machine.guarded_of_forall fun _ _ _ => trivial
  have hh := Machine.trace_invariant (h:=[]) hstep new_holds hall
  simpa using hh

theorem final_firsts (calls : List Call) :
    Machine.final append new (firsts Prod.fst calls) = Machine.final append new calls := by
  induction calls using List.reverseRecOn with
  | nil => rfl
  | append_singleton calls c ih =>
    rw [Firsts.firsts_concat,Machine.final_append]
    by_cases hknown : c.1 ∈ calls.map Prod.fst
    · obtain ⟨first,hfirst⟩ := firstUnder_isSome_iff.mpr hknown
      rw [if_pos hknown,ih]
      simp only [Machine.final,(final_holds calls).append_known hfirst]
    · rw [if_neg hknown,Machine.final_append,ih]

def accepted (hist : List (Call × Option (Except LedgerError Unit))) : Set String :=
  {key | ∃ e ∈ hist, e.1.1 = key ∧ e.2 = some (.ok ())}

theorem trace_accepted (calls : List Call) : ∀ e ∈ Machine.trace append new calls,
    e.2 = some (.ok ()) ↔ firstUnder calls e.1.1 = some e.1.2 := by
  induction calls using List.reverseRecOn with
  | nil => simp [Machine.trace]
  | append_singleton calls c ih =>
    intro e he
    rw [Machine.trace_append] at he
    rw [firstUnder_concat]
    rcases List.mem_append.mp he with he | he
    · have hmem : e.1.1 ∈ calls.map Prod.fst := by
        rw [← Machine.trace_map_fst append new calls]
        exact List.mem_map_of_mem (List.mem_map_of_mem he)
      obtain ⟨first,hfirst⟩ := firstUnder_isSome_iff.mpr hmem
      rw [ih e he,hfirst,Option.some_or]
    · obtain rfl := List.mem_singleton.mp he
      cases hfirst : firstUnder calls c.1 with
      | none =>
        have hl := (final_holds calls).lookup_none_iff.mpr (firstUnder_none_iff.mp hfirst)
        simp [append_fresh hl]
      | some first =>
        simp only [(final_holds calls).append_known hfirst,Option.some_or,Option.some.injEq]
        by_cases heq : first = c.2 <;> simp [heq]

theorem accepted_iff (calls : List Call) (key : String) :
    key ∈ accepted (Machine.trace append new calls) ↔ key ∈ calls.map Prod.fst := by
  constructor
  · rintro ⟨e,he,rfl,_⟩
    rw [← Machine.trace_map_fst append new calls]
    exact List.mem_map_of_mem (List.mem_map_of_mem he)
  · intro hkey
    obtain ⟨tx,htx⟩ := firstUnder_isSome_iff.mpr hkey
    have hmem := mem_of_firstUnder htx
    rw [← Machine.trace_map_fst append new calls] at hmem
    obtain ⟨e,he,heq⟩ := List.mem_map.mp hmem
    refine ⟨e,he,by rw [heq],(trace_accepted calls e he).mpr ?_⟩
    rw [heq]
    exact htx

/-- What holds of the store after `calls`, and of the next call. -/
structure WriteOnce (calls : List Call) (call : Call) (s : InMemoryStore) : Prop where
  /-- The keys accepted so far and the positions of the journal are in bijection. -/
  index : Set.BijOn (fun key => s.keys.lookup key) (accepted (Machine.trace append new calls))
    (Set.image some (Set.Iio s.journal.length))
  unindexed : ∀ key, key ∉ accepted (Machine.trace append new calls) → s.keys.lookup key = none
  stored : ∀ key, s.stored key = firstUnder calls key
  extends_journal : s.journal <+: (s.append call).1.journal
  returns : (s.append call).2 = some (.ok ()) ∨
    (s.append call).2 = some (.error (.idempotencyConflict call.1))
  conflict_iff : (s.append call).2 = some (.error (.idempotencyConflict call.1)) ↔
    ∃ e ∈ Machine.trace append new calls, e.1.1 = call.1 ∧ e.2 = some (.ok ()) ∧ e.1.2 ≠ call.2
  unchanged : call.1 ∈ accepted (Machine.trace append new calls) → (s.append call).1 = s
  reference : s = Machine.final append new (firsts Prod.fst calls)

theorem Holds.index_bijOn (h : Holds calls s) :
    Set.BijOn (fun key => s.keys.lookup key)
      (accepted (Machine.trace InMemoryStore.append new calls))
      (Set.image some (Set.Iio s.journal.length)) := by
  have hlength : s.journal.length = (firsts Prod.fst calls).length := by simp [h.journal]
  refine ⟨?_,?_,?_⟩
  · intro key hkey
    rw [accepted_iff] at hkey
    cases hl : s.keys.lookup key with
    | none => exact absurd hkey (h.lookup_none_iff.mp hl)
    | some idx =>
      obtain ⟨tx,hat,_⟩ := h.getElem?_of_lookup hl
      exact ⟨idx,(List.getElem?_eq_some_iff.mp hat).1,hl.symm⟩
  · intro key hkey other _ heq
    rw [accepted_iff] at hkey
    cases hl : s.keys.lookup key with
    | none => exact absurd hkey (h.lookup_none_iff.mp hl)
    | some idx =>
      have hother : s.keys.lookup other = some idx := by
        rw [← hl]
        exact heq.symm
      have h1 := (h.index key idx).mp hl
      rw [(h.index other idx).mp hother] at h1
      exact (Option.some.inj h1).symm
  · rintro _ ⟨idx,hidx,rfl⟩
    have hlt : idx < ((firsts Prod.fst calls).map Prod.fst).length := by
      rw [List.length_map,← hlength]
      exact hidx
    have hat := List.getElem?_eq_getElem hlt
    refine ⟨_,?_,(h.index _ idx).mpr hat⟩
    rw [accepted_iff,← Firsts.mem_map_firsts]
    exact List.mem_of_getElem? hat

/-- Over every run of calls the store is a write-once map with an append-only journal. -/
theorem write_once (calls : List Call) (call : Call) :
    WriteOnce calls call (Machine.final append new calls) := by
  have h := final_holds calls
  cases hfirst : firstUnder calls call.1 with
  | none =>
    have hnew := firstUnder_none_iff.mp hfirst
    have happend := append_fresh (h.lookup_none_iff.mpr hnew)
    refine ⟨h.index_bijOn,fun key hkey => h.lookup_none_iff.mpr (by rwa [← accepted_iff]),h.stored,
      ?_,.inl (by rw [happend]),?_,fun hkey => absurd ((accepted_iff _ _).mp hkey) hnew,
      (final_firsts calls).symm⟩
    · rw [happend]
      exact List.prefix_append _ _
    · refine iff_of_false (by simp [happend]) ?_
      rintro ⟨e,he,hkey,hok,_⟩
      exact hnew ((accepted_iff _ _).mp ⟨e,he,hkey,hok⟩)
  | some first =>
    have happend := h.append_known hfirst
    refine ⟨h.index_bijOn,fun key hkey => h.lookup_none_iff.mpr (by rwa [← accepted_iff]),h.stored,
      ?_,?_,?_,fun _ => by rw [happend],(final_firsts calls).symm⟩
    · exact ⟨[],by rw [happend,List.append_nil]⟩
    · rw [happend]
      by_cases heq : first = call.2 <;> simp [heq]
    · rw [happend]
      constructor
      · intro hconflict
        have hne : first ≠ call.2 := by
          intro heq
          simp [heq] at hconflict
        have hmem := mem_of_firstUnder hfirst
        rw [← Machine.trace_map_fst append new calls] at hmem
        obtain ⟨e,he,heq⟩ := List.mem_map.mp hmem
        refine ⟨e,he,by rw [heq],(trace_accepted calls e he).mpr (by rw [heq,hfirst]),?_⟩
        rw [heq]
        exact hne
      · rintro ⟨e,he,hkey,hok,hne⟩
        have hbody := (trace_accepted calls e he).mp hok
        rw [hkey,hfirst,Option.some.injEq] at hbody
        simp [hbody,hne]

end InMemoryStore
end Fintrails
