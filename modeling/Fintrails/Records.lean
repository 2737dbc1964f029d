import Fintrails.Deliveries
import Fintrails.Register

/-! The ledger as a register of logs.  A store is a register of transactions under their
keys, and a store that transfers are delivered to is a register of what the logs said:
every delivery, conflicting ones included, is answered as that register answers it, and the
store determines the register. -/
namespace Fintrails

namespace InMemoryStore

def ofRegister (r : Register String Transaction) : InMemoryStore :=
  Machine.final append new r.entries

def appended (key : String) : Written → Except LedgerError Unit
  | .fresh => .ok ()
  | .same => .ok ()
  | .other => .error (.idempotencyConflict key)

theorem ofRegister_holds (r : Register String Transaction) : Holds r.entries (ofRegister r) :=
  final_holds r.entries

theorem append_ofRegister (r : Register String Transaction) (call : Call) :
    (ofRegister r).append call =
      (ofRegister (r.write call).1,some (appended call.1 (r.write call).2)) := by
  have hholds := ofRegister_holds r
  cases hl : r.lookup call.1 with
  | some first =>
    rw [hholds.append_known (show firstUnder r.entries call.1 = some first from hl),
      Register.write_known hl]
    by_cases hsame : first = call.2 <;> simp [hsame,appended]
  | none =>
    have hfresh := hholds.lookup_none_iff.mpr (Register.lookup_eq_none_iff.mp hl)
    have hstore : ofRegister (r.write call).1 = ((ofRegister r).append call).1 := by
      rw [Register.write_free hl]
      exact Machine.final_append new r.entries [call]
    rw [hstore,Register.write_free hl]
    refine Prod.ext rfl ?_
    rw [append_fresh hfresh]
    rfl

theorem ofRegister_injective : Function.Injective ofRegister := by
  intro r r' h
  have hholds := ofRegister_holds r
  have hholds' := ofRegister_holds r'
  rw [← h] at hholds'
  have hentries : ∀ r : Register String Transaction, firsts Prod.fst r.entries = r.entries :=
    fun r => Firsts.firsts_of_nodup r.nodup
  have hbodies : r.entries.map Prod.snd = r'.entries.map Prod.snd := by
    have hh := hholds.journal.symm.trans hholds'.journal
    rwa [hentries,hentries] at hh
  have hkeys : r.entries.map Prod.fst = r'.entries.map Prod.fst := by
    refine List.ext_getElem? fun idx => Option.ext fun key => ?_
    have hindex := (hholds.index key idx).symm.trans (hholds'.index key idx)
    rwa [hentries,hentries] at hindex
  apply Register.ext
  rw [← List.zip_unzip r.entries,← List.zip_unzip r'.entries,List.unzip_eq_map,List.unzip_eq_map]
  simp only [hkeys,hbodies]

end InMemoryStore

abbrev Bookable := { t : Address × Address × Address × U256 // t.2.2.2.toNat < 2^127 }

/-- What is on record of each log. -/
abbrev Records := Register (B256 × ℕ) Bookable

namespace ChainEvent

def record (event : ChainEvent) : Option ((B256 × ℕ) × Bookable) :=
  if h : event.Fits then some (event.log,⟨event.transfer,h⟩) else none

end ChainEvent

def Records.book (r : Records) (event : ChainEvent) : Records × Option Written :=
  match event.record with
  | some entry => ((r.write entry).1,some (r.write entry).2)
  | none => (r,none)

namespace Recon

open ChainEvent InMemoryStore

variable (hex : LowerHex) (build : Build) (order : HashOrder (Σ _ : Asset, I128))

def keyOf (l : B256 × ℕ) : String := hex.hash l.1 ++ ":" ++ toString l.2

def bodyOf (t : Bookable) : Transaction :=
  ⟨[⟨accountOf hex t.val.2.1,assetOf hex t.val.1,-BitVec.ofNat 128 t.val.2.2.2.toNat⟩,
    ⟨accountOf hex t.val.2.2.1,assetOf hex t.val.1,BitVec.ofNat 128 t.val.2.2.2.toNat⟩]⟩

theorem keyOf_injective : Function.Injective (keyOf hex) := by
  intro l m h
  exact (@idempotencyKey_inj hex ⟨0,0,0,0,0,l.1,l.2⟩ ⟨0,0,0,0,0,m.1,m.2⟩).mp h

theorem bodyOf_injective : Function.Injective (bodyOf hex) := by
  rintro ⟨⟨token,sender,receiver,value⟩,hfits⟩ ⟨⟨token',sender',receiver',value'⟩,hfits'⟩ h
  simp only [bodyOf,Transaction.mk.injEq,List.cons.injEq,Posting.mk.injEq,and_true,
    (accountOf_injective hex).eq_iff,(assetOf_injective hex).eq_iff] at h
  obtain ⟨⟨rfl,rfl,_⟩,rfl,_,hcredit⟩ := h
  have hvalue := congrArg BitVec.toInt hcredit
  rw [toInt_ofNat hfits,toInt_ofNat hfits'] at hvalue
  obtain rfl : value = value' := BitVec.eq_of_toNat_eq (by exact_mod_cast hvalue)
  rfl

/-- The store that has what is on record. -/
def ledger (r : Records) : InMemoryStore :=
  ofRegister (r.map (keyOf hex) (bodyOf hex) (keyOf_injective hex))

def answer (event : ChainEvent) : Option Written → Except ReconError Unit
  | some written => (appended (idempotencyKey hex event) written).mapError ReconError.ledger
  | none => .error (.amountOverflow (toString event.value.toNat))

theorem deliver_ledger (r : Records) (event : ChainEvent) :
    deliver hex build order (ledger hex r) event =
      (ledger hex (r.book event).1,some (answer hex event (r.book event).2)) := by
  by_cases hfits : event.Fits
  · have hwrite := r.write_map (keyOf_injective hex) (bodyOf_injective hex)
      (event.log,⟨event.transfer,hfits⟩)
    have happend := append_ofRegister (r.map (keyOf hex) (bodyOf hex) (keyOf_injective hex))
      (entry hex event)
    rw [show entry hex event = (keyOf hex event.log,bodyOf hex ⟨event.transfer,hfits⟩) from rfl,
      hwrite] at happend
    rw [deliver_fits hfits,ledger,
      show entry hex event = (keyOf hex event.log,bodyOf hex ⟨event.transfer,hfits⟩) from rfl,
      happend]
    simp only [Records.book,record,hfits,dite_true]
    rfl
  · rw [deliver_overflow hfits]
    simp only [Records.book,record,hfits,dite_false,answer]

theorem ledger_injective : Function.Injective (ledger hex) := fun _ _ h =>
  Register.map_injective (keyOf_injective hex) (bodyOf_injective hex) (ofRegister_injective h)

def booked (events : List ChainEvent) : Records := Machine.final Records.book .empty events

/-- A log that comes back with another value is told apart from one that is delivered again. -/
example : let pay : ChainEvent := ⟨9,1,2,70,5,3,0⟩
    Machine.outputs Records.book .empty [pay,{ pay with blockNumber := 6 },{ pay with value := 71 }] =
      [some .fresh,some .same,some .other] := by decide

variable {hex build order}

theorem delivered_eq_ledger (events : List ChainEvent) :
    delivered hex build order events = ledger hex (booked events) := by
  induction events using List.reverseRecOn with
  | nil => rfl
  | append_singleton events e ih =>
    have hstep := congrArg Prod.fst (deliver_ledger hex build order (booked events) e)
    rw [← ih] at hstep
    rw [delivered,booked,Machine.final_append,Machine.final_append]
    exact hstep

theorem entries_booked (events : List ChainEvent) :
    (booked events).entries = firsts Prod.fst (events.filterMap record) := by
  rw [← Register.entries_final]
  congr 1
  induction events using List.reverseRecOn with
  | nil => rfl
  | append_singleton events e ih =>
    rw [booked,Machine.final_append,← booked,ih,List.filterMap_append,Machine.final_append]
    simp only [Machine.final,Records.book,List.filterMap_cons,List.filterMap_nil]
    cases e.record <;> rfl

theorem lookup_booked (events : List ChainEvent) (l : B256 × ℕ) :
    ((booked events).lookup l).map Subtype.val =
      (events.find? fun e => decide e.Fits && decide (e.log = l)).map transfer := by
  induction events using List.reverseRecOn with
  | nil => rfl
  | append_singleton events e ih =>
    rw [List.find?_append,Option.map_or,← ih,booked,Machine.final_append,← booked]
    simp only [Machine.final,Records.book,record,List.find?_singleton]
    by_cases hfits : e.Fits
    · rw [dif_pos hfits,Register.lookup_write,Option.map_or]
      by_cases hl : e.log = l <;> simp [hfits,hl]
    · simp [hfits]

/-- What a delivery is told: the amount does not fit, or the log is on record with another
transfer, or it has been booked. -/
theorem answer_booked (events : List ChainEvent) (e : ChainEvent) :
    answer hex e ((booked events).book e).2 =
      if e.Fits then
        match events.find? fun d => decide d.Fits && decide (d.log = e.log) with
        | some d => if d.transfer = e.transfer then .ok ()
          else .error (.ledger (.idempotencyConflict (idempotencyKey hex e)))
        | none => .ok ()
      else .error (.amountOverflow (toString e.value.toNat)) := by
  have hlookup := lookup_booked events e.log
  by_cases hfits : e.Fits
  · simp only [Records.book,record,hfits,dite_true,if_true]
    cases hfind : events.find? fun d => decide d.Fits && decide (d.log = e.log) with
    | none =>
      rw [hfind,Option.map_none,Option.map_eq_none_iff] at hlookup
      rw [Register.write_free hlookup]
      rfl
    | some d =>
      rw [hfind,Option.map_some] at hlookup
      obtain ⟨t,ht,hval⟩ := Option.map_eq_some_iff.mp hlookup
      rw [Register.write_known ht]
      simp only [Subtype.ext_iff,hval]
      by_cases hsame : d.transfer = e.transfer <;> simp [hsame,answer,appended,Except.mapError]
  · simp only [Records.book,record,hfits,dite_false,if_false,answer]

/-- The ledger is a register of logs, which is written once: whatever is delivered, the store is
the one that has on record what the first event of each log said that fits, the next delivery
is told so, and two sequences leave the same store exactly if they leave the same records. -/
theorem ledger_is_records (hex : LowerHex) (build : Build) (order : HashOrder (Σ _ : Asset, I128))
    (events : List ChainEvent) (e : ChainEvent) :
    deliver hex build order (delivered hex build order events) e =
      (ledger hex (booked (events++[e])),some
        (if e.Fits then
          match events.find? fun d => decide d.Fits && decide (d.log = e.log) with
          | some d => if d.transfer = e.transfer then .ok ()
            else .error (.ledger (.idempotencyConflict (idempotencyKey hex e)))
          | none => .ok ()
        else .error (.amountOverflow (toString e.value.toNat)))) ∧
    (∀ l, ((booked events).lookup l).map Subtype.val =
      (events.find? fun d => decide d.Fits && decide (d.log = l)).map transfer) ∧
    ∀ others, delivered hex build order events = delivered hex build order others ↔
      firsts Prod.fst (events.filterMap record) = firsts Prod.fst (others.filterMap record) := by
  refine ⟨?_,lookup_booked events,fun others => ?_⟩
  · rw [delivered_eq_ledger,deliver_ledger,answer_booked,booked,booked,Machine.final_append]
    rfl
  · rw [delivered_eq_ledger,delivered_eq_ledger,(ledger_injective hex).eq_iff,
      ← entries_booked,← entries_booked]
    exact ⟨congrArg _,Register.ext⟩

end Recon
end Fintrails
