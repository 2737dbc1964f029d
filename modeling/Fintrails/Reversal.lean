import Fintrails.Store

/-! Reversing a transaction.  `reverse` negates every amount and skips validation, so it
fails only on `i128::MIN`; whether the checked sums of validation and of a balance
accept the negated amounts as well is decided by the running sums, whose range is not
symmetric. -/
namespace Fintrails

def Posting.negated (p : Posting) : Posting := { p with amount := -p.amount }

namespace Transaction

def reversePosting (p : Posting) : Except LedgerError Posting :=
  match Signed.checkedNeg p.amount with
  | some amount => .ok { p with amount }
  | none => .error (.overflow p.account p.asset)

/-- The reversing transaction: the exact negation of every posting. -/
def reverse (tx : Transaction) : Except LedgerError Transaction :=
  (tx.postings.mapM reversePosting).map fun postings => ⟨postings⟩

def Negatable (postings : List Posting) : Prop := ∀ p ∈ postings, p.amount ≠ .intMin 128

theorem reversePosting_ok {p : Posting} (h : p.amount ≠ .intMin 128) :
    reversePosting p = .ok p.negated := by
  have ho : p.amount.negOverflow = false := by
    rw [Bool.eq_false_iff,ne_eq,Signed.negOverflow_iff (by decide)]
    exact h
  simp [reversePosting,Signed.checkedNeg,ho,Posting.negated]

theorem reversePosting_error {p : Posting} (h : p.amount = .intMin 128) :
    reversePosting p = .error (.overflow p.account p.asset) := by
  have ho : p.amount.negOverflow = true := (Signed.negOverflow_iff (by decide) _).mpr h
  simp [reversePosting,Signed.checkedNeg,ho]

theorem mapM_reversePosting {postings : List Posting} (h : Negatable postings) :
    postings.mapM reversePosting = .ok (postings.map Posting.negated) := by
  induction postings with
  | nil => rfl
  | cons p postings ih =>
    rw [List.mapM_cons,reversePosting_ok (h p (by simp)),ih fun q hq => h q (by simp [hq])]
    rfl

theorem mapM_reversePosting_error {postings : List Posting} (h : ¬Negatable postings) :
    ∃ p ∈ postings, p.amount = .intMin 128 ∧
      postings.mapM reversePosting = .error (.overflow p.account p.asset) := by
  induction postings with
  | nil => exact absurd (by simp [Negatable]) h
  | cons p postings ih =>
    rw [List.mapM_cons]
    by_cases hp : p.amount = .intMin 128
    · exact ⟨p,by simp,hp,by rw [reversePosting_error hp]; rfl⟩
    · have hrest : ¬Negatable postings := by
        intro hall
        refine h fun q hq => ?_
        rcases List.mem_cons.mp hq with rfl | hq
        · exact hp
        · exact hall q hq
      obtain ⟨q,hq,hmin,heq⟩ := ih hrest
      exact ⟨q,by simp [hq],hmin,by rw [reversePosting_ok hp,heq]; rfl⟩

theorem reverse_of_negatable {tx : Transaction} (h : Negatable tx.postings) :
    tx.reverse = .ok ⟨tx.postings.map Posting.negated⟩ := by
  rw [reverse,mapM_reversePosting h]
  rfl

/-- A failed reversal names the account and the asset of an amount that is `i128::MIN`. -/
theorem reverse_of_not_negatable {tx : Transaction} (h : ¬Negatable tx.postings) :
    ∃ p ∈ tx.postings, p.amount = .intMin 128 ∧
      tx.reverse = .error (.overflow p.account p.asset) := by
  obtain ⟨p,hp,hmin,heq⟩ := mapM_reversePosting_error h
  exact ⟨p,hp,hmin,by rw [reverse,heq]; rfl⟩

theorem reverse_eq_ok_iff {tx r : Transaction} :
    tx.reverse = .ok r ↔ Negatable tx.postings ∧ r = ⟨tx.postings.map Posting.negated⟩ := by
  by_cases h : Negatable tx.postings
  · rw [reverse_of_negatable h]
    simp [h,eq_comm]
  · obtain ⟨p,_,_,heq⟩ := reverse_of_not_negatable h
    simp [heq,h]

@[simp] theorem negated_negated (p : Posting) : p.negated.negated = p := by
  simp [Posting.negated]

theorem negatable_negated {postings : List Posting} (h : Negatable postings) :
    Negatable (postings.map Posting.negated) := by
  intro q hq
  obtain ⟨p,hp,rfl⟩ := List.mem_map.mp hq
  have hmin := h p hp
  rw [ne_eq,← Signed.negOverflow_iff (by decide)] at hmin ⊢
  rwa [Posting.negated,Signed.negOverflow_neg]

theorem toInt_negated {p : Posting} (h : p.amount ≠ .intMin 128) :
    p.negated.amount.toInt = -p.amount.toInt := by
  rw [ne_eq,← Signed.negOverflow_iff (by decide)] at h
  exact BitVec.toInt_neg_of_not_negOverflow h

theorem reverse_reverse {tx r : Transaction} (h : tx.reverse = .ok r) : r.reverse = .ok tx := by
  obtain ⟨hmin,rfl⟩ := reverse_eq_ok_iff.mp h
  have hid : Posting.negated ∘ Posting.negated = id := funext negated_negated
  rw [reverse_of_negatable (negatable_negated hmin),List.map_map,hid,List.map_id]

theorem assetSum_negated {postings : List Posting} (h : Negatable postings) (asset : Asset) :
    assetSum asset (postings.map Posting.negated) = -assetSum asset postings := by
  induction postings with
  | nil => rfl
  | cons p postings ih =>
    have hrest := ih fun q hq => h q (by simp [hq])
    simp only [assetSum,List.map_cons,Tally.exactSum_cons] at hrest ⊢
    rw [hrest,toInt_negated (h p (by simp)),Int.neg_add]
    congr 1
    by_cases hp : p.asset = asset <;> simp [Posting.negated,hp]

theorem balanced_negated {postings : List Posting} (h : Negatable postings)
    (hb : Balanced postings) : Balanced (postings.map Posting.negated) := by
  intro asset
  rw [assetSum_negated h,hb asset]
  rfl

theorem new_checked_eq_ok_iff {order : HashOrder (Σ _ : Asset, I128)} {postings : List Posting}
    {tx : Transaction} : new .checked order postings = some (.ok tx) ↔
      tx = ⟨postings⟩ ∧ postings ≠ [] ∧ Balanced postings ∧ RunsInRange postings := by
  constructor
  · intro h
    have hne : postings ≠ [] := by
      rintro rfl
      cases h
    cases hnet : net .checked postings with
    | none => simp [new,hne,hnet] at h
    | some sums =>
      have hruns := (net_checked_iff postings).mp ⟨sums,hnet⟩
      have hvalid := (validates_of_new h).mp ((validates_checked_iff order postings).mpr hruns)
      rcases @new_of_net .checked order _ _ hne hnet with ⟨hnew,_⟩ | ⟨asset,hnew,_⟩
      · rw [hnew,Option.some.injEq,Except.ok.injEq] at h
        exact ⟨h.symm,hne,(hvalid.mp rfl).2,hruns⟩
      · rw [hnew] at h
        cases h
  · rintro ⟨rfl,hne,hbalanced,hruns⟩
    exact new_of_balanced .checked order hne hbalanced hruns

theorem runsInRange_negated_iff {postings : List Posting} (h : Negatable postings)
    (hruns : RunsInRange postings) : RunsInRange (postings.map Posting.negated) ↔
      ∀ run, run <+: postings → ∀ asset, assetSum asset run ≠ -2^127 := by
  have hsum : ∀ run, run <+: postings → ∀ asset,
      (Signed.InRange 128 (assetSum asset (run.map Posting.negated)) ↔
        assetSum asset run ≠ -2^127) := by
    intro run hrun asset
    have hin := hruns run hrun asset
    rw [assetSum_negated fun p hp => h p (hrun.subset hp)]
    simp only [Signed.InRange] at hin ⊢
    omega
  constructor
  · intro hneg run hrun asset
    exact (hsum run hrun asset).mp (hneg _ (hrun.map _) asset)
  · intro hne run' hrun' asset
    obtain ⟨run,hrun,rfl⟩ := List.prefix_map_iff.mp hrun'
    exact (hsum run hrun asset).mpr (hne run hrun asset)

/-- `reverse` fails exactly on `i128::MIN`; what it returns reverses back, and validation
returns it as well. -/
structure ReversesValidly (order : HashOrder (Σ _ : Asset, I128)) (tx : Transaction) : Prop where
  fails_iff : (∃ e, tx.reverse = .error e) ↔ ∃ p ∈ tx.postings, p.amount = .intMin 128
  agrees : ∀ r, tx.reverse = .ok r → r.reverse = .ok tx ∧ new .checked order r.postings = some (.ok r)

/-- For every validated transaction: its reversal passes validation unless a running sum
of one asset is `i128::MIN`, which has no negation. -/
theorem reverses_validly_iff (order order' : HashOrder (Σ _ : Asset, I128))
    (postings : List Posting) (tx : Transaction)
    (h : new .checked order postings = some (.ok tx)) :
    ReversesValidly order' tx ↔ (∃ p ∈ tx.postings, p.amount = .intMin 128) ∨
      ∀ run, run <+: tx.postings → ∀ asset, assetSum asset run ≠ -2^127 := by
  obtain ⟨rfl,hne,hbalanced,hruns⟩ := new_checked_eq_ok_iff.mp h
  by_cases hmin : Negatable postings
  · have hnone : ¬∃ p ∈ postings, p.amount = .intMin 128 := fun ⟨p,hp,hpm⟩ => hmin p hp hpm
    have hrev : (⟨postings⟩ : Transaction).reverse = .ok ⟨postings.map Posting.negated⟩ :=
      reverse_of_negatable hmin
    rw [or_iff_right hnone,← runsInRange_negated_iff hmin hruns]
    constructor
    · intro hv
      exact (new_checked_eq_ok_iff.mp (hv.agrees _ hrev).2).2.2.2
    · intro hneg
      refine ⟨iff_of_false (by simp [hrev]) hnone,fun r hr => ⟨reverse_reverse hr,?_⟩⟩
      rw [hrev,Except.ok.injEq] at hr
      subst hr
      exact new_checked_eq_ok_iff.mpr ⟨rfl,by simpa using hne,balanced_negated hmin hbalanced,hneg⟩
  · have hsome : ∃ p ∈ postings, p.amount = .intMin 128 := by
      simpa [Negatable] using hmin
    obtain ⟨p,_,_,herr⟩ := @reverse_of_not_negatable ⟨postings⟩ hmin
    refine iff_of_true ⟨iff_of_true ⟨_,herr⟩ hsome,fun r hr => ?_⟩ (.inl hsome)
    rw [herr] at hr
    cases hr

theorem reverses_validly_transfer :
    let order : HashOrder (Σ _ : Asset, I128) := ⟨id,fun _ => .refl _⟩
    ReversesValidly order ⟨[⟨⟨"card"⟩,⟨"USD"⟩,-50⟩,⟨⟨"cash"⟩,⟨"USD"⟩,50⟩]⟩ := by
  intro order
  refine (reverses_validly_iff order order
    [⟨⟨"card"⟩,⟨"USD"⟩,-50⟩,⟨⟨"cash"⟩,⟨"USD"⟩,50⟩] _ (by decide +kernel)).mpr
    (.inr fun run hrun asset => ?_)
  obtain rfl | ⟨_,rfl,hrest⟩ := List.prefix_cons_iff.mp hrun
  · rw [assetSum,Tally.exactSum_nil]
    decide
  obtain rfl | ⟨_,rfl,hnil⟩ := List.prefix_cons_iff.mp hrest
  · simp only [assetSum,Tally.exactSum_cons,Tally.exactSum_nil]
    split <;> decide
  · obtain rfl := List.prefix_nil.mp hnil
    simp only [assetSum,Tally.exactSum_cons,Tally.exactSum_nil]
    split <;> decide

/-- Two amounts that sum to `i128::MIN`: the sum of their negations leaves the range. -/
theorem reversal_panics :
    let order : HashOrder (Σ _ : Asset, I128) := ⟨id,fun _ => .refl _⟩
    let tx : Transaction := ⟨[⟨⟨"a"⟩,⟨"USD"⟩,-.intMax 128⟩,⟨⟨"b"⟩,⟨"USD"⟩,-1⟩,
      ⟨⟨"c"⟩,⟨"USD"⟩,.intMax 128⟩,⟨⟨"d"⟩,⟨"USD"⟩,1⟩]⟩
    new .checked order tx.postings = some (.ok tx) ∧ (∀ p ∈ tx.postings, p.amount ≠ .intMin 128) ∧
      ∃ r, tx.reverse = .ok r ∧ new .checked order r.postings = none :=
  ⟨by decide +kernel,by decide +kernel,_,rfl,by decide +kernel⟩

end Transaction

namespace InMemoryStore

open Transaction

variable {account : AccountId} {asset : Asset}

theorem mem_matching {postings : List Posting} {x : I128}
    (h : x ∈ matching account asset postings) : ∃ p ∈ postings, p.amount = x := by
  obtain ⟨p,hp,rfl⟩ := List.mem_map.mp h
  exact ⟨p,(List.mem_filter.mp hp).1,rfl⟩

theorem matching_negated (postings : List Posting) :
    matching account asset (postings.map Posting.negated) =
      (matching account asset postings).map fun x => -x := by
  rw [matching,List.filter_map,List.map_map,matching,List.map_map]
  rfl

theorem intSum_negated {postings : List Posting} (h : Negatable postings) :
    Signed.intSum ((matching account asset postings).map fun x => -x) =
      -Signed.intSum (matching account asset postings) := by
  have hmin : ∀ x ∈ matching account asset postings, ¬x.negOverflow = true := by
    intro x hx
    obtain ⟨p,hp,rfl⟩ := mem_matching hx
    rw [Signed.negOverflow_iff (by decide)]
    exact h p hp
  generalize matching account asset postings = xs at hmin
  induction xs with
  | nil => rfl
  | cons x xs ih =>
    have hxs := ih fun y hy => hmin y (by simp [hy])
    rw [List.map_cons,Signed.intSum_cons,Signed.intSum_cons,hxs,
      BitVec.toInt_neg_of_not_negOverflow (hmin x (by simp)),Int.neg_add]

/-- A transaction and then its reversal under fresh keys: a balance is what it was before,
unless on the way a running sum of the two leaves the range; then it is the overflow error. -/
theorem reversal_undoes_iff (s : InMemoryStore) (tx r : Transaction) (hr : tx.reverse = .ok r)
    (k₁ k₂ : String) (hne : k₁ ≠ k₂) (h₁ : s.keys.lookup k₁ = none) (h₂ : s.keys.lookup k₂ = none)
    (account : AccountId) (asset : Asset) :
    let after := ((s.append (k₁,tx)).1.append (k₂,r)).1
    let amounts := matching account asset tx.postings
    (after.balance account asset = s.balance account asset ↔
      ∀ balance, s.balance account asset = .ok balance →
        Signed.Runs balance (amounts ++ amounts.map fun x => -x)) ∧
    (after.balance account asset ≠ s.balance account asset →
      after.balance account asset = .error (.overflow account asset)) := by
  obtain ⟨hmin,rfl⟩ := reverse_eq_ok_iff.mp hr
  have hjournal : ((s.append (k₁,tx)).1.append (k₂,⟨tx.postings.map Posting.negated⟩)).1.journal =
      s.journal ++ [tx] ++ [⟨tx.postings.map Posting.negated⟩] := by
    have hnext : ((s.append (k₁,tx)).1.keys.lookup k₂) = none := by
      rw [append_fresh h₁,AList.lookup_insert_ne (Ne.symm hne)]
      exact h₂
    rw [append_fresh (c:=(k₂,_)) hnext,append_fresh (c:=(k₁,tx)) h₁]
  simp only [balance,hjournal]
  rcases balanceOf_cases s.journal account asset with ⟨balance,hok⟩ | herr
  · have hafter : balanceOf (s.journal ++ [tx] ++ [⟨tx.postings.map Posting.negated⟩]) account asset =
        orOverflow account asset (Signed.checkedSum balance (matching account asset tx.postings ++
          (matching account asset tx.postings).map fun x => -x)) := by
      rw [List.append_assoc,balanceOf,List.flatMap_append,matching_append,Signed.checkedSum_append,
        balanceOf_eq_ok_iff.mp hok]
      simp [matching_negated]
    rw [hafter,hok]
    cases hsum : Signed.checkedSum balance (matching account asset tx.postings ++
        (matching account asset tx.postings).map fun x => -x) with
    | none =>
      have hout := (Signed.checkedSum_eq_none_iff _ _).mp hsum
      exact ⟨iff_of_false (by simp) fun h => hout (h balance rfl),fun _ => rfl⟩
    | some sum =>
      have hin := (Signed.checkedSum_isSome_iff _ _).mp ⟨sum,hsum⟩
      have hback := Signed.checkedSum_toInt hsum
      rw [Signed.intSum_append,intSum_negated hmin] at hback
      have heq : sum = balance := BitVec.toInt_inj.mp (by omega)
      rw [heq]
      refine ⟨iff_of_true rfl fun b hb => ?_,fun h => absurd rfl h⟩
      cases hb
      exact hin
  · have hafter := balanceOf_concat_error ⟨tx.postings.map Posting.negated⟩
      (balanceOf_concat_error tx herr)
    rw [hafter,herr]
    refine ⟨iff_of_true rfl fun b hb => ?_,fun _ => rfl⟩
    cases hb

theorem reversal_undoes_transfer :
    let tx : Transaction := ⟨[⟨⟨"card"⟩,⟨"USD"⟩,-50⟩,⟨⟨"cash"⟩,⟨"USD"⟩,50⟩]⟩
    let r : Transaction := ⟨[⟨⟨"card"⟩,⟨"USD"⟩,50⟩,⟨⟨"cash"⟩,⟨"USD"⟩,-50⟩]⟩
    ((new.append ("sale",tx)).1.append ("storno",r)).1.balance ⟨"cash"⟩ ⟨"USD"⟩ =
      new.balance ⟨"cash"⟩ ⟨"USD"⟩ := by
  intro tx r
  refine (reversal_undoes_iff new tx r rfl "sale" "storno" (by decide) rfl rfl _ _).1.mpr ?_
  intro balance hb
  cases hb
  exact (Signed.checkedSum_isSome_iff _ _).mp ⟨0,by decide +kernel⟩

/-- An account at `i128::MAX`: one more unit and its reversal leave an overflow behind. -/
theorem reversal_leaves_overflow :
    let order : HashOrder (Σ _ : Asset, I128) := ⟨id,fun _ => .refl _⟩
    let funding : Transaction := ⟨[⟨⟨"card"⟩,⟨"USD"⟩,-.intMax 128⟩,⟨⟨"cash"⟩,⟨"USD"⟩,.intMax 128⟩]⟩
    let tx : Transaction := ⟨[⟨⟨"card"⟩,⟨"USD"⟩,-1⟩,⟨⟨"cash"⟩,⟨"USD"⟩,1⟩]⟩
    let s := Machine.final append new [("funding",funding)]
    Transaction.new .checked order funding.postings = some (.ok funding) ∧
      Transaction.new .checked order tx.postings = some (.ok tx) ∧
      s.keys.lookup "sale" = none ∧ s.keys.lookup "storno" = none ∧
      s.balance ⟨"cash"⟩ ⟨"USD"⟩ = .ok (.intMax 128) ∧
      ∃ r, tx.reverse = .ok r ∧ ((s.append ("sale",tx)).1.append ("storno",r)).1.balance
        ⟨"cash"⟩ ⟨"USD"⟩ = .error (.overflow ⟨"cash"⟩ ⟨"USD"⟩) :=
  ⟨by decide +kernel,by decide +kernel,by decide +kernel,by decide +kernel,by rfl,_,rfl,by rfl⟩

end InMemoryStore
end Fintrails
