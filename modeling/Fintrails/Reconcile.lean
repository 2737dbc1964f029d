import Fintrails.Source
import Fintrails.Reversal

/-! Turning confirmed transfers into ledger entries.  The account of an address, the asset
of a token and the idempotency key of a log are strings, and no two addresses, tokens
or logs share one as long as no two byte strings print alike. -/
namespace Fintrails

/-- How `{:#x}` prints addresses and hashes: no two print alike. -/
structure LowerHex where
  address : Address → String
  hash : B256 → String
  address_injective : Function.Injective address
  hash_injective : Function.Injective hash

namespace LowerHex

def digitsOf : (digits : ℕ) → ℕ → List Char
  | 0, _ => []
  | digits+1, n => digitsOf digits (n/16) ++ [Nat.digitChar (n%16)]

theorem digitsOf_inj {digits n m : ℕ} (hn : n < 16^digits) (hm : m < 16^digits)
    (h : digitsOf digits n = digitsOf digits m) : n = m := by
  induction digits generalizing n m with
  | zero => omega
  | succ digits ih =>
    rw [Nat.pow_succ] at hn hm
    obtain ⟨hinit,hlast⟩ := List.append_inj' h rfl
    have hquot := ih (by omega) (by omega) hinit
    have hdigit : ∀ i : Fin 16, ∀ j : Fin 16, Nat.digitChar i = Nat.digitChar j → i = j := by decide
    have hrem := hdigit ⟨n%16,by omega⟩ ⟨m%16,by omega⟩ (by simpa using hlast)
    have hrem' : n%16 = m%16 := congrArg Fin.val hrem
    omega

def print (digits : ℕ) {w : ℕ} (a : BitVec w) : String :=
  String.ofList ('0' :: 'x' :: digitsOf digits a.toNat)

theorem print_injective {digits w : ℕ} (hw : 2^w ≤ 16^digits) :
    Function.Injective (print digits (w:=w)) := by
  intro a b h
  have hlist := congrArg String.toList h
  simp only [print,String.toList_ofList,List.cons.injEq,true_and] at hlist
  exact BitVec.toNat_inj.mp (digitsOf_inj (a.isLt.trans_le hw) (b.isLt.trans_le hw) hlist)

def fixed : LowerHex where
  address := print 40
  hash := print 64
  address_injective := print_injective (by decide)
  hash_injective := print_injective (by decide)

end LowerHex

/-- Anything that can go wrong while turning a chain event into a ledger entry. -/
inductive ReconError
  | amountOverflow (value : String)
  | ledger (error : LedgerError)
  deriving DecidableEq, Repr

namespace ChainEvent

def log (event : ChainEvent) : B256 × ℕ := (event.txHash,event.logIndex)

/-- The amount fits into the ledger's `i128`. -/
def Fits (event : ChainEvent) : Prop := event.value.toNat < 2^127

instance fitsDecidable (event : ChainEvent) : Decidable event.Fits :=
  inferInstanceAs (Decidable (_ < _))

end ChainEvent

namespace Recon

def accountOf (hex : LowerHex) (addr : Address) : AccountId := ⟨"onchain:" ++ hex.address addr⟩

def assetOf (hex : LowerHex) (token : Address) : Asset := ⟨hex.address token⟩

def idempotencyKey (hex : LowerHex) (event : ChainEvent) : String :=
  hex.hash event.txHash ++ ":" ++ toString event.logIndex

/-- `i128::try_from(value)`. -/
def u256ToI128 (value : U256) : Except ReconError I128 :=
  if value.toNat < 2^127 then .ok (BitVec.ofNat 128 value.toNat)
  else .error (.amountOverflow (toString value.toNat))

/-- A two-leg mirror entry: the sender is debited, the receiver credited.  `none` is the
panic of an operator that overflows. -/
def eventToTransaction (hex : LowerHex) (build : Build) (order : HashOrder (Σ _ : Asset, I128))
    (event : ChainEvent) : Option (Except ReconError Transaction) :=
  match u256ToI128 event.value with
  | .error e => some (.error e)
  | .ok amount =>
    (Signed.neg build amount).bind fun debit =>
      (Transaction.new build order
        [⟨accountOf hex event.sender,assetOf hex event.token,debit⟩,
          ⟨accountOf hex event.receiver,assetOf hex event.token,amount⟩]).map
        (Except.mapError ReconError.ledger)

theorem accountOf_injective (hex : LowerHex) : Function.Injective (accountOf hex) := by
  intro a b h
  have hprinted := congrArg (String.toList ∘ AccountId.value) h
  simp only [accountOf,Function.comp_apply,String.toList_append] at hprinted
  exact hex.address_injective (String.toList_inj.mp (List.append_cancel_left hprinted))

theorem assetOf_injective (hex : LowerHex) : Function.Injective (assetOf hex) :=
  fun _ _ h => hex.address_injective (congrArg Asset.value h)

theorem append_separator_inj {α : Type*} {sep : α} {l m r t : List α}
    (h : l ++ sep::r = m ++ sep::t) (hr : sep ∉ r) (ht : sep ∉ t) : l = m ∧ r = t := by
  rcases List.append_eq_append_iff.mp h with ⟨mid,rfl,hmid⟩ | ⟨mid,rfl,hmid⟩
  · cases mid with
    | nil => simpa using hmid
    | cons c mid =>
      rw [List.cons_append,List.cons.injEq] at hmid
      exact absurd (by simp [hmid.2]) hr
  · cases mid with
    | nil => simpa [eq_comm] using hmid
    | cons c mid =>
      rw [List.cons_append,List.cons.injEq] at hmid
      exact absurd (by simp [hmid.2]) ht

theorem separator_notMem_digits (n : ℕ) : ':' ∉ Nat.toDigits 10 n := by
  intro h
  have hdigit := Nat.isDigit_of_mem_toDigits (by decide) (by decide) h
  exact absurd hdigit (by decide)

theorem toDigits_injective : Function.Injective (Nat.toDigits 10) := by
  intro n m h
  have hvalue := congrArg (fun l => Nat.ofDigitChars 10 l 0) h
  simpa only [Nat.ofDigitChars_toDigits (b:=10) (by decide) (by decide)] using hvalue

theorem toList_toString (n : ℕ) : (toString n).toList = Nat.toDigits 10 n := by
  rw [show toString n = Nat.repr n from rfl,Nat.toList_repr]

/-- No two logs share an idempotency key. -/
theorem idempotencyKey_inj {hex : LowerHex} {a b : ChainEvent} :
    idempotencyKey hex a = idempotencyKey hex b ↔ a.log = b.log := by
  constructor
  · intro h
    have hlist := congrArg String.toList h
    simp only [idempotencyKey,String.toList_append,List.append_assoc] at hlist
    rw [toList_toString,toList_toString] at hlist
    obtain ⟨hhash,hdigits⟩ := append_separator_inj hlist (separator_notMem_digits _)
      (separator_notMem_digits _)
    exact Prod.ext (hex.hash_injective (String.toList_inj.mp hhash)) (toDigits_injective hdigits)
  · intro h
    simp only [ChainEvent.log,Prod.mk.injEq] at h
    rw [idempotencyKey,idempotencyKey,h.1,h.2]

/-- The two legs of a transfer that fits. -/
def mirror (hex : LowerHex) (event : ChainEvent) : Transaction :=
  ⟨[⟨accountOf hex event.sender,assetOf hex event.token,-BitVec.ofNat 128 event.value.toNat⟩,
    ⟨accountOf hex event.receiver,assetOf hex event.token,BitVec.ofNat 128 event.value.toNat⟩]⟩

theorem toInt_ofNat {n : ℕ} (h : n < 2^127) : (BitVec.ofNat 128 n).toInt = n := by
  rw [BitVec.toInt_ofNat']
  exact Int.bmod_eq_of_le (by omega) (by omega)

theorem negOverflow_ofNat {n : ℕ} (h : n < 2^127) : (BitVec.ofNat 128 n).negOverflow = false := by
  rw [BitVec.negOverflow,toInt_ofNat h,beq_eq_false_iff_ne]
  omega

theorem toInt_neg_ofNat {n : ℕ} (h : n < 2^127) : (-BitVec.ofNat 128 n).toInt = -(n : ℤ) := by
  rw [BitVec.toInt_neg_of_not_negOverflow (by simp [negOverflow_ofNat h]),toInt_ofNat h]

theorem eventToTransaction_overflow (hex : LowerHex) (build : Build)
    (order : HashOrder (Σ _ : Asset, I128)) {event : ChainEvent} (h : ¬event.Fits) :
    eventToTransaction hex build order event =
      some (.error (.amountOverflow (toString event.value.toNat))) := by
  simp only [ChainEvent.Fits] at h
  simp only [eventToTransaction,u256ToI128,h,if_false]

theorem mirror_valid (hex : LowerHex) {event : ChainEvent} (h : event.Fits) :
    Transaction.Balanced (mirror hex event).postings ∧
      Transaction.RunsInRange (mirror hex event).postings := by
  have hcredit := toInt_ofNat h
  have hdebit := toInt_neg_ofNat h
  have hlt : (event.value.toNat : ℤ) < 2^127 := by exact_mod_cast h
  constructor
  · intro asset
    simp only [mirror,Transaction.assetSum,Tally.exactSum_cons,Tally.exactSum_nil,hcredit,hdebit]
    split <;> omega
  · intro run hrun asset
    have hcases : Transaction.assetSum asset run = 0 ∨
        Transaction.assetSum asset run = -(event.value.toNat : ℤ) := by
      obtain rfl | ⟨_,rfl,hrest⟩ := List.prefix_cons_iff.mp hrun
      · exact .inl rfl
      obtain rfl | ⟨_,rfl,hnil⟩ := List.prefix_cons_iff.mp hrest
      · simp only [Transaction.assetSum,Tally.exactSum_cons,Tally.exactSum_nil,hdebit]
        split
        · exact .inr (Int.add_zero _)
        · exact .inl rfl
      · obtain rfl := List.prefix_nil.mp hnil
        simp only [Transaction.assetSum,Tally.exactSum_cons,Tally.exactSum_nil,hcredit,hdebit]
        split <;> omega
    simp only [Signed.InRange]
    omega

/-- In every build, a transfer that fits becomes its two legs. -/
theorem eventToTransaction_fits (hex : LowerHex) (build : Build)
    (order : HashOrder (Σ _ : Asset, I128)) {event : ChainEvent} (h : event.Fits) :
    eventToTransaction hex build order event = some (.ok (mirror hex event)) := by
  obtain ⟨hbalanced,hruns⟩ := mirror_valid hex h
  have hnew := Transaction.new_of_balanced build order (by simp [mirror]) hbalanced hruns
  simp only [ChainEvent.Fits] at h
  simp only [eventToTransaction,u256ToI128,h,if_true,
    Signed.neg_of_not_negOverflow (negOverflow_ofNat h),Option.bind_some]
  exact congrArg (Option.map _) hnew

end Recon
end Fintrails
