import Fintrails.Tally

/-! The ledger's transactions.  `Transaction::new` nets every asset in an `i128` with a
plain `+=`, so what it accepts and whether it returns at all depend on the running
sums: it is exact as long as none of them leaves the range. -/
namespace Fintrails

abbrev I128 := BitVec 128

/-- Account identifier, e.g. `merchant:payable`. -/
structure AccountId where
  value : String
  deriving DecidableEq, Repr

/-- Asset or currency code.  Balancing is always per asset. -/
structure Asset where
  value : String
  deriving DecidableEq, Repr

/-- One leg of a transaction; the sign of the amount carries its direction. -/
structure Posting where
  account : AccountId
  asset : Asset
  amount : I128
  deriving DecidableEq, Repr

inductive LedgerError
  | notBalanced (asset : Asset)
  | emptyTransaction
  | overflow (account : AccountId) (asset : Asset)
  | idempotencyConflict (key : String)
  deriving DecidableEq, Repr

structure Transaction where
  postings : List Posting
  deriving DecidableEq, Repr

/-- In which order a `HashMap` hands out its entries. -/
structure HashOrder (β : Type) where
  arrange : List β → List β
  perm : ∀ l, (arrange l).Perm l

namespace Transaction

def net (build : Build) (postings : List Posting) : Option (Tally Asset 128) :=
  Tally.tally build Posting.asset Posting.amount ∅ postings

/-- `none` is the panic of an addition that overflows. -/
def new (build : Build) (order : HashOrder (Σ _ : Asset, I128)) (postings : List Posting) :
    Option (Except LedgerError Transaction) :=
  if postings.isEmpty then some (.error .emptyTransaction)
  else (net build postings).map fun sums =>
    match (order.arrange sums.entries).find? fun e => e.2 != 0 with
    | some e => .error (.notBalanced e.1)
    | none => .ok ⟨postings⟩

def assetSum (asset : Asset) (postings : List Posting) : ℤ :=
  Tally.exactSum Posting.asset Posting.amount asset postings

def Balanced (postings : List Posting) : Prop := ∀ asset, assetSum asset postings = 0

/-- The call returns, and accepts the postings exactly if there are any and they balance. -/
def Validates (build : Build) (order : HashOrder (Σ _ : Asset, I128)) (postings : List Posting) :
    Prop :=
  ∃ r, new build order postings = some r ∧ (r.isOk = true ↔ postings ≠ [] ∧ Balanced postings)

theorem validates_of_new {build : Build} {order : HashOrder (Σ _ : Asset, I128)}
    {postings : List Posting} {r : Except LedgerError Transaction}
    (h : new build order postings = some r) :
    Validates build order postings ↔ (r.isOk = true ↔ postings ≠ [] ∧ Balanced postings) := by
  simp only [Validates,h,Option.some.injEq,exists_eq_left']

theorem new_nil (build : Build) (order : HashOrder (Σ _ : Asset, I128)) :
    new build order [] = some (.error .emptyTransaction) := rfl

theorem new_of_net {build : Build} {order : HashOrder (Σ _ : Asset, I128)}
    {postings : List Posting} {sums : Tally Asset 128} (hne : postings ≠ [])
    (hnet : net build postings = some sums) :
    (new build order postings = some (.ok ⟨postings⟩) ∧ ∀ asset, sums.total asset = 0) ∨
    ∃ asset, new build order postings = some (.error (.notBalanced asset)) ∧
      sums.total asset ≠ 0 := by
  have hnew : new build order postings = some
      (match (order.arrange sums.entries).find? fun e => e.2 != 0 with
        | some e => .error (.notBalanced e.1)
        | none => .ok ⟨postings⟩) := by
    simp [new,hne,hnet]
  cases hfind : (order.arrange sums.entries).find? fun e => e.2 != 0 with
  | none =>
    refine .inl ⟨by rw [hnew,hfind],(Tally.entries_zero_iff sums).mp fun e he => ?_⟩
    simpa using List.find?_eq_none.mp hfind e ((order.perm _).mem_iff.mpr he)
  | some e =>
    refine .inr ⟨e.1,by rw [hnew,hfind],?_⟩
    have hmem := (order.perm _).mem_iff.mp (List.mem_of_find?_eq_some hfind)
    have hlookup : sums.lookup e.1 = some e.2 := AList.mem_lookup_iff.mpr hmem
    simpa [Tally.total,hlookup] using List.find?_some hfind

theorem total_net {build : Build} {postings : List Posting} {sums : Tally Asset 128}
    (h : net build postings = some sums) (asset : Asset) :
    sums.total asset = BitVec.ofInt 128 (assetSum asset postings) := by
  rw [Tally.tally_total h asset,Tally.total_empty]
  exact BitVec.zero_add _

theorem validates_iff_of_net {build : Build} {order : HashOrder (Σ _ : Asset, I128)}
    {postings : List Posting} {sums : Tally Asset 128} (hne : postings ≠ [])
    (hnet : net build postings = some sums) :
    Validates build order postings ↔
      ((∀ asset, (2^128 : ℤ) ∣ assetSum asset postings) → Balanced postings) := by
  have hzero : ∀ asset, sums.total asset = 0 ↔ (2^128 : ℤ) ∣ assetSum asset postings := by
    intro asset
    rw [total_net hnet]
    exact Signed.ofInt_eq_zero_iff _
  rcases @new_of_net build order _ _ hne hnet with ⟨hnew,hall⟩ | ⟨asset,hnew,hsum⟩
  · rw [validates_of_new hnew]
    exact ⟨fun h _ => (h.mp rfl).2,
      fun h => iff_of_true rfl ⟨hne,h fun asset => (hzero asset).mp (hall asset)⟩⟩
  · have hnot : ¬∀ asset, (2^128 : ℤ) ∣ assetSum asset postings :=
      fun h => hsum ((hzero asset).mpr (h asset))
    have hunbalanced : ¬Balanced postings := fun h => hnot fun a => by rw [h a]; exact dvd_zero _
    rw [validates_of_new hnew]
    exact iff_of_true (iff_of_false (by simp [Except.isOk,Except.toBool]) fun h => hunbalanced h.2)
      fun h => absurd h hnot

/-- The sum of no asset leaves the range of `i128` on the way. -/
def RunsInRange (postings : List Posting) : Prop :=
  ∀ run, run <+: postings → ∀ asset, Signed.InRange 128 (assetSum asset run)

theorem net_wrapping (postings : List Posting) : ∃ sums, net .wrapping postings = some sums :=
  Tally.tally_wrapping ∅ postings

theorem net_checked_iff (postings : List Posting) :
    (∃ sums, net .checked postings = some sums) ↔ RunsInRange postings := by
  have hzero : ∀ asset, (Tally.total (∅ : Tally Asset 128) asset).toInt = 0 := by
    intro asset
    rw [Tally.total_empty]
    exact BitVec.toInt_zero
  refine (Tally.tally_checked_iff ∅ postings).trans ?_
  simp only [Tally.RunsInRange,hzero,Int.zero_add]
  rfl

theorem new_of_balanced (build : Build) (order : HashOrder (Σ _ : Asset, I128))
    {postings : List Posting} (hne : postings ≠ []) (hbalanced : Balanced postings)
    (hruns : RunsInRange postings) : new build order postings = some (.ok ⟨postings⟩) := by
  obtain ⟨sums,hnet⟩ : ∃ sums, net build postings = some sums := by
    cases build with
    | checked => exact (net_checked_iff postings).mpr hruns
    | wrapping => exact net_wrapping postings
  rcases @new_of_net build order _ _ hne hnet with ⟨hnew,_⟩ | ⟨asset,_,hsum⟩
  · exact hnew
  · refine absurd ?_ hsum
    rw [total_net hnet,hbalanced asset]
    rfl

theorem validates_wrapping_iff (order : HashOrder (Σ _ : Asset, I128)) (postings : List Posting) :
    Validates .wrapping order postings ↔
      ((∀ asset, (2^128 : ℤ) ∣ assetSum asset postings) → Balanced postings) := by
  by_cases hne : postings = []
  · subst hne
    exact iff_of_true ⟨_,new_nil _ _,by simp [Except.isOk,Except.toBool]⟩ fun _ asset => rfl
  · obtain ⟨sums,hnet⟩ := net_wrapping postings
    exact validates_iff_of_net hne hnet

/-- With overflow checks, it is the lists with a running sum out of range. -/
theorem validates_checked_iff (order : HashOrder (Σ _ : Asset, I128)) (postings : List Posting) :
    Validates .checked order postings ↔ RunsInRange postings := by
  by_cases hne : postings = []
  · subst hne
    refine iff_of_true ⟨_,new_nil _ _,by simp [Except.isOk,Except.toBool]⟩ fun run hrun asset => ?_
    obtain rfl := List.prefix_nil.mp hrun
    exact (by decide : Signed.InRange 128 0)
  rw [← net_checked_iff]
  constructor
  · rintro ⟨r,hnew,_⟩
    cases hnet : net .checked postings with
    | none => simp [new,hne,hnet] at hnew
    | some sums => exact ⟨sums,rfl⟩
  · rintro ⟨sums,hnet⟩
    have hruns := (net_checked_iff postings).mp ⟨sums,hnet⟩
    exact (validates_iff_of_net hne hnet).mpr fun hdvd asset =>
      Signed.eq_zero_of_dvd (by decide) (hruns postings (List.prefix_refl _) asset) (hdvd asset)

/-- In every build, and whatever the order of the map, validation is sound and complete
exactly for the lists whose running sums all stay in range. -/
theorem new_validates_iff (postings : List Posting) :
    (∀ build order, Validates build order postings) ↔ RunsInRange postings := by
  constructor
  · intro h
    exact (validates_checked_iff ⟨id,fun _ => .refl _⟩ postings).mp (h .checked _)
  · intro hruns build order
    cases build with
    | checked => exact (validates_checked_iff order postings).mpr hruns
    | wrapping =>
      exact (validates_wrapping_iff order postings).mpr fun hdvd asset =>
        Signed.eq_zero_of_dvd (by decide) (hruns postings (List.prefix_refl _) asset) (hdvd asset)

/-- Two maximal amounts and a 2 sum to `2^128`, which wraps to zero. -/
theorem new_accepts_overflow :
    let order : HashOrder (Σ _ : Asset, I128) := ⟨id,fun _ => .refl _⟩
    let postings : List Posting := [⟨⟨"a"⟩,⟨"USD"⟩,.intMax 128⟩,⟨⟨"b"⟩,⟨"USD"⟩,.intMax 128⟩,
      ⟨⟨"c"⟩,⟨"USD"⟩,2⟩]
    new .wrapping order postings = some (.ok ⟨postings⟩) ∧ ¬Balanced postings ∧
      new .checked order postings = none := by
  refine ⟨by decide +kernel,fun h => ?_,by decide +kernel⟩
  exact absurd (h ⟨"USD"⟩) (by decide +kernel)

end Transaction
end Fintrails
