import Mathlib.Algebra.BigOperators.Group.Finset.Piecewise
import Fintrails.Reversal

/-! Conservation of value.  Every transaction that was validated, or comes from such a one
by reversals, balances exactly, so the exact balances of all accounts of a journal
sum to zero in every asset. -/
namespace Fintrails

/-- Transactions that validation with overflow checks returned, and their reversals. -/
inductive Obtained : Transaction → Prop
  | built {order : HashOrder (Σ _ : Asset, I128)} {postings : List Posting} {tx : Transaction}
      (h : Transaction.new .checked order postings = some (.ok tx)) : Obtained tx
  | reversed {tx r : Transaction} (h : Obtained tx) (hr : tx.reverse = .ok r) : Obtained r

open Transaction

theorem Obtained.balanced {tx : Transaction} (h : Obtained tx) : Balanced tx.postings := by
  induction h with
  | built h =>
    obtain ⟨rfl,_,hbalanced,_⟩ := new_checked_eq_ok_iff.mp h
    exact hbalanced
  | reversed h hr ih =>
    obtain ⟨hmin,rfl⟩ := reverse_eq_ok_iff.mp hr
    exact balanced_negated hmin ih

namespace InMemoryStore

def accounts (postings : List Posting) : Finset AccountId :=
  (postings.map Posting.account).toFinset

theorem account_mem {postings : List Posting} {p : Posting} (h : p ∈ postings) :
    p.account ∈ accounts postings :=
  List.mem_toFinset.mpr (List.mem_map_of_mem h)

theorem intSum_matching_cons (account : AccountId) (asset : Asset) (p : Posting)
    (postings : List Posting) : Signed.intSum (matching account asset (p::postings)) =
      (if account = p.account then if p.asset = asset then p.amount.toInt else 0 else 0) +
        Signed.intSum (matching account asset postings) := by
  by_cases ha : account = p.account
  · subst ha
    by_cases hb : p.asset = asset <;> simp [matching,hb]
  · have ha' : ¬p.account = account := fun he => ha he.symm
    simp [matching,ha,ha']

theorem sum_matching {postings : List Posting} {among : Finset AccountId}
    (h : ∀ p ∈ postings, p.account ∈ among) (asset : Asset) :
    ∑ account ∈ among, Signed.intSum (matching account asset postings) =
      assetSum asset postings := by
  induction postings with
  | nil => exact Finset.sum_eq_zero fun _ _ => rfl
  | cons p postings ih =>
    simp only [intSum_matching_cons,Finset.sum_add_distrib,Finset.sum_ite_eq',h p (by simp),if_true]
    rw [ih fun q hq => h q (by simp [hq]),assetSum,assetSum,Tally.exactSum_cons]

theorem assetSum_append (asset : Asset) (ps qs : List Posting) :
    assetSum asset (ps++qs) = assetSum asset ps + assetSum asset qs := by
  simp [assetSum,Tally.exactSum]

theorem assetSum_flatMap {txs : List Transaction} (h : ∀ tx ∈ txs, Balanced tx.postings)
    (asset : Asset) : assetSum asset (txs.flatMap Transaction.postings) = 0 := by
  induction txs with
  | nil => rfl
  | cons tx txs ih =>
    rw [List.flatMap_cons,assetSum_append,h tx (by simp) asset,ih fun u hu => h u (by simp [hu])]
    rfl

theorem toInt_of_balance {s : InMemoryStore} {account : AccountId} {asset : Asset} {balance : I128}
    (h : s.balance account asset = .ok balance) : balance.toInt =
      Signed.intSum (matching account asset (s.journal.flatMap Transaction.postings)) := by
  rw [Signed.checkedSum_toInt (balanceOf_eq_ok_iff.mp h)]
  exact Int.zero_add _

/-- All balances of a store sum to zero in every asset, and a fresh append changes only what
its postings name, by what they say. -/
structure Conserves (s : InMemoryStore) : Prop where
  sum_zero : ∀ (asset : Asset) (balances : AccountId → I128),
    (∀ a ∈ accounts (s.journal.flatMap Transaction.postings),
      s.balance a asset = .ok (balances a)) →
    ∑ a ∈ accounts (s.journal.flatMap Transaction.postings), (balances a).toInt = 0
  untouched : ∀ (call : Call) account asset, s.keys.lookup call.1 = none →
    (∀ p ∈ call.2.postings, ¬(p.account = account ∧ p.asset = asset)) →
    (s.append call).1.balance account asset = s.balance account asset
  changed : ∀ (call : Call) account asset old new, s.keys.lookup call.1 = none →
    s.balance account asset = .ok old → (s.append call).1.balance account asset = .ok new →
    new.toInt-old.toInt = Signed.intSum (matching account asset call.2.postings)

/-- Whatever is appended of validated transactions and their reversals. -/
theorem conserves (calls : List Call) (h : ∀ c ∈ calls, Obtained c.2) :
    Conserves (Machine.final append new calls) := by
  have hholds := final_holds calls
  refine ⟨fun asset balances hok => ?_,?_,?_⟩
  · have hbalanced : ∀ tx ∈ (Machine.final append new calls).journal, Balanced tx.postings := by
      intro tx htx
      rw [hholds.journal] at htx
      obtain ⟨c,hc,rfl⟩ := List.mem_map.mp htx
      exact (h c ((Firsts.firsts_sublist calls).subset hc)).balanced
    have hsums := Finset.sum_congr rfl fun a ha => toInt_of_balance (hok a ha)
    rw [hsums,sum_matching fun _ hp => account_mem hp,
      assetSum_flatMap hbalanced]
  · intro call account asset hfresh hnot
    rw [append_fresh hfresh,balance,balance,balanceOf,balanceOf,List.flatMap_append,
      List.flatMap_singleton,matching_append,matching_eq_nil hnot,List.append_nil]
  · intro call account asset old after hfresh hold hafter
    have h1 := toInt_of_balance hold
    have h2 := toInt_of_balance hafter
    rw [append_fresh hfresh,List.flatMap_append,List.flatMap_singleton,matching_append,
      Signed.intSum_append] at h2
    omega

/-- Two sales, one of which is reversed, leave balances of 50 and -50. -/
theorem conserves_reversed :
    let tx : Transaction := ⟨[⟨⟨"card"⟩,⟨"USD"⟩,-50⟩,⟨⟨"cash"⟩,⟨"USD"⟩,50⟩]⟩
    let r : Transaction := ⟨[⟨⟨"card"⟩,⟨"USD"⟩,50⟩,⟨⟨"cash"⟩,⟨"USD"⟩,-50⟩]⟩
    let s := Machine.final append new [("sale",tx),("storno",r),("resale",tx)]
    let balances : AccountId → I128 := fun a => if a = ⟨"card"⟩ then -50 else 50
    Conserves s ∧ s.balance ⟨"card"⟩ ⟨"USD"⟩ = .ok (-50) ∧ s.balance ⟨"cash"⟩ ⟨"USD"⟩ = .ok 50 ∧
      ∑ a ∈ accounts (s.journal.flatMap Transaction.postings), (balances a).toInt = 0 := by
  intro tx r s balances
  have htx : Obtained tx := @Obtained.built ⟨id,fun _ => .refl _⟩ tx.postings tx
    (by decide +kernel)
  have hconserves : Conserves s := by
    refine conserves [("sale",tx),("storno",r),("resale",tx)] fun c hc => ?_
    simp only [List.mem_cons,List.not_mem_nil,or_false] at hc
    rcases hc with rfl | rfl | rfl
    · exact htx
    · exact .reversed htx rfl
    · exact htx
  exact ⟨hconserves,by decide +kernel,by decide +kernel,
    hconserves.sum_zero ⟨"USD"⟩ balances (by decide +kernel)⟩

end InMemoryStore
end Fintrails
