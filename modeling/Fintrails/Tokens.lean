import Fintrails.Deliveries

/-! Indexers of several tokens that book into one ledger.  An indexer asks for the logs of one
token, and deliveries of different tokens may come in between one another in any order; each
token's deliveries are answered, and its balances are, as if there were no others. -/
namespace Fintrails

namespace ChainEvent

/-- A log is of one token. -/
def TokenOfLog (events : List ChainEvent) : Prop :=
  ∀ a ∈ events, ∀ b ∈ events, a.log = b.log → a.token = b.token

instance tokenOfLogDecidable (events : List ChainEvent) : Decidable (TokenOfLog events) :=
  inferInstanceAs (Decidable (∀ a ∈ events, ∀ b ∈ events, a.log = b.log → a.token = b.token))

def ofToken (token : Address) (events : List ChainEvent) : List ChainEvent :=
  events.filter fun e => decide (e.token = token)

variable {events : List ChainEvent} {event : ChainEvent} {token : Address}

theorem TokenOfLog.mono {others : List ChainEvent} (h : TokenOfLog events) (hsub : others ⊆ events) :
    TokenOfLog others :=
  fun a ha b hb => h a (hsub ha) b (hsub hb)

theorem ofToken_concat (events : List ChainEvent) (event : ChainEvent) (token : Address) :
    ofToken token (events++[event]) =
      ofToken token events ++ if event.token = token then [event] else [] := by
  by_cases h : event.token = token <;> simp [ofToken,h]

theorem distinctLogs_ofToken (h : TokenOfLog events) (token : Address) :
    distinctLogs (ofToken token events) = ofToken token (distinctLogs events) := by
  have hcommute : (ofToken token events).filter (fun e => decide e.Fits) =
      (events.filter fun e => decide e.Fits).filter fun e => decide (e.token = token) := by
    simp only [ofToken,List.filter_filter,Bool.and_comm]
  rw [distinctLogs,hcommute,Firsts.firsts_filter]
  · rfl
  · intro a ha b hb hlog
    rw [h a (List.mem_filter.mp ha).1 b (List.mem_filter.mp hb).1 hlog]

end ChainEvent

namespace Recon

open ChainEvent InMemoryStore

variable {hex : LowerHex} {build : Build} {order : HashOrder (Σ _ : Asset, I128)}
  {events others : List ChainEvent} {event : ChainEvent} {token : Address}

theorem matching_mirror_other (h : event.token ≠ token) (account : AccountId) :
    matching account (assetOf hex token) (mirror hex event).postings = [] := by
  apply matching_eq_nil
  rintro p hp ⟨-,hasset⟩
  have hp' : p.asset = assetOf hex event.token := by
    simp only [mirror,List.mem_cons,List.not_mem_nil,or_false] at hp
    rcases hp with rfl | rfl <;> rfl
  exact h (assetOf_injective hex (hp'.symm.trans hasset))

theorem matching_mirrors_ofToken (events : List ChainEvent) (token : Address) (account : AccountId) :
    matching account (assetOf hex token) ((events.map (mirror hex)).flatMap Transaction.postings) =
      matching account (assetOf hex token)
        (((ofToken token events).map (mirror hex)).flatMap Transaction.postings) := by
  induction events with
  | nil => rfl
  | cons e events ih =>
    rw [List.map_cons,List.flatMap_cons,matching_append,ih]
    by_cases h : e.token = token
    · simp [ofToken,h]
    · rw [matching_mirror_other h,List.nil_append]
      simp [ofToken,h]

theorem balance_ofToken (h : TokenOfLog events) (token : Address) (account : AccountId) :
    (delivered hex build order events).balance account (assetOf hex token) =
      (delivered hex build order (ofToken token events)).balance account (assetOf hex token) := by
  simp only [InMemoryStore.balance,delivered,journal_deliver,balanceOf]
  rw [matching_mirrors_ofToken,distinctLogs_ofToken h]

theorem firstUnder_ofToken (h : TokenOfLog (events++[event])) (htoken : event.token = token) :
    firstUnder (entries hex events) (idempotencyKey hex event) =
      firstUnder (entries hex (ofToken token events)) (idempotencyKey hex event) := by
  induction events using List.reverseRecOn with
  | nil => rfl
  | append_singleton events d ih =>
    have hrest := ih (h.mono (by simp))
    rw [entries_concat,ofToken_concat]
    by_cases hfits : d.Fits
    · by_cases hd : d.token = token
      · rw [if_pos hd,entries_concat,if_pos hfits,firstUnder_concat,firstUnder_concat,hrest]
      · have hother : (entry hex d).1 ≠ idempotencyKey hex event := by
          intro hkey
          have hlog := idempotencyKey_inj.mp hkey
          exact hd ((h d (by simp) event (by simp) hlog).trans htoken)
        rw [if_neg hd,if_pos hfits,firstUnder_concat,if_neg hother,List.append_nil,hrest,
          Option.or_none]
    · by_cases hd : d.token = token
      · rw [if_pos hd,entries_concat,if_neg hfits,List.append_nil,List.append_nil,hrest]
      · rw [if_neg hd,if_neg hfits,List.append_nil,List.append_nil,hrest]

theorem deliver_answer_congr
    (h : firstUnder (entries hex events) (idempotencyKey hex event) =
      firstUnder (entries hex others) (idempotencyKey hex event)) :
    (deliver hex build order (delivered hex build order events) event).2 =
      (deliver hex build order (delivered hex build order others) event).2 := by
  by_cases hfits : event.Fits
  · have hholds := final_holds (entries hex events)
    have hholds' := final_holds (entries hex others)
    rw [deliver_fits hfits,deliver_fits hfits,delivered,delivered,final_deliver,final_deliver]
    cases hfirst : firstUnder (entries hex others) (entry hex event).1 with
    | none =>
      rw [append_fresh (hholds.lookup_none_iff.mpr (firstUnder_none_iff.mp (h.trans hfirst))),
        append_fresh (hholds'.lookup_none_iff.mpr (firstUnder_none_iff.mp hfirst))]
    | some first => rw [hholds.append_known (h.trans hfirst),hholds'.append_known hfirst]
  · rw [deliver_overflow hfits,deliver_overflow hfits]

/-- One ledger for several tokens: whatever comes in between, the deliveries of one token are
answered as they are by a ledger that has no others, and every balance in that token is the
same there, the overflow error included. -/
theorem tokens_independent (hex : LowerHex) (build : Build) (order : HashOrder (Σ _ : Asset, I128))
    (events : List ChainEvent) (h : TokenOfLog events) (token : Address) :
    (Machine.trace (deliver hex build order) new events).filter
        (fun x => decide (x.1.token = token)) =
      Machine.trace (deliver hex build order) new (ofToken token events) ∧
    ∀ account, (delivered hex build order events).balance account (assetOf hex token) =
      (delivered hex build order (ofToken token events)).balance account (assetOf hex token) := by
  have hown : ∀ (s t : InMemoryStore) (e : ChainEvent),
      (∃ hist ⊆ events, s = delivered hex build order hist ∧
        t = delivered hex build order (ofToken token hist)) → e ∈ events →
      decide (e.token = token) = true →
      (deliver hex build order s e).2 = (deliver hex build order t e).2 ∧
        ∃ hist ⊆ events, (deliver hex build order s e).1 = delivered hex build order hist ∧
          (deliver hex build order t e).1 = delivered hex build order (ofToken token hist) := by
    rintro s t e ⟨hist,hsub,rfl,rfl⟩ he hde
    have htoken : e.token = token := by simpa using hde
    have hall : hist++[e] ⊆ events := by simp [hsub,he]
    refine ⟨deliver_answer_congr (firstUnder_ofToken (h.mono hall) htoken),hist++[e],hall,?_,?_⟩
    · rw [delivered,delivered,Machine.final_append]
      rfl
    · rw [ofToken_concat,if_pos htoken,delivered,delivered,Machine.final_append]
      rfl
  have hother : ∀ (s t : InMemoryStore) (e : ChainEvent),
      (∃ hist ⊆ events, s = delivered hex build order hist ∧
        t = delivered hex build order (ofToken token hist)) → e ∈ events →
      decide (e.token = token) = false →
      ∃ hist ⊆ events, (deliver hex build order s e).1 = delivered hex build order hist ∧
        t = delivered hex build order (ofToken token hist) := by
    rintro s t e ⟨hist,hsub,rfl,rfl⟩ he hde
    refine ⟨hist++[e],by simp [hsub,he],?_,?_⟩
    · rw [delivered,delivered,Machine.final_append]
      rfl
    · rw [ofToken_concat,if_neg (by simpa using hde),List.append_nil]
  exact ⟨(Machine.unwinding hown hother ⟨[],by simp,rfl,rfl⟩
    (Machine.guarded_of_forall fun _ he _ => he)).1,balance_ofToken h token⟩

/-- Two tokens, and one of the deliveries comes in twice. -/
theorem tokens_independent_two :
    let pay : ChainEvent := ⟨9,1,2,70,5,3,0⟩
    let swap : ChainEvent := ⟨8,2,1,30,5,3,1⟩
    let order : HashOrder (Σ _ : Asset, I128) := ⟨id,fun _ => .refl _⟩
    (Machine.trace (deliver .fixed .checked order) new [pay,swap,pay]).filter
        (fun x => decide (x.1.token = 9)) =
      Machine.trace (deliver .fixed .checked order) new [pay,pay] ∧
    (delivered .fixed .checked order [pay,swap,pay]).balance (accountOf .fixed 2)
        (assetOf .fixed 9) =
      (delivered .fixed .checked order [pay,pay]).balance (accountOf .fixed 2)
        (assetOf .fixed 9) := by
  intro pay swap order
  obtain ⟨htrace,hbalance⟩ := tokens_independent .fixed .checked order [pay,swap,pay] (by decide) 9
  exact ⟨htrace,hbalance _⟩

end Recon
end Fintrails
