import Fintrails.Conservation
import Fintrails.Reconcile

/-! Delivering transfers to the ledger at least once and in any order.  The journal holds
one entry for each distinct log, and every balance is what that log moved. -/
namespace Fintrails

namespace ChainEvent

def transfer (event : ChainEvent) : Address × Address × Address × U256 :=
  (event.token,event.sender,event.receiver,event.value)

def delivery (event : ChainEvent) : (B256 × ℕ) × Address × Address × Address × U256 :=
  (event.log,event.transfer)

/-- Events of one log say the same. -/
def Agree (events : List ChainEvent) : Prop :=
  ∀ a ∈ events, ∀ b ∈ events, a.log = b.log → a.transfer = b.transfer

instance agreeDecidable (events : List ChainEvent) : Decidable (Agree events) :=
  inferInstanceAs (Decidable (∀ a ∈ events, ∀ b ∈ events, a.log = b.log → a.transfer = b.transfer))

/-- The first event of each log among those whose amount fits. -/
def distinctLogs (events : List ChainEvent) : List ChainEvent :=
  firsts log (events.filter fun e => decide e.Fits)

def received (a token : Address) (events : List ChainEvent) : ℤ :=
  (events.map fun e => if e.receiver = a ∧ e.token = token then (e.value.toNat : ℤ) else 0).sum

def sent (a token : Address) (events : List ChainEvent) : ℤ :=
  (events.map fun e => if e.sender = a ∧ e.token = token then (e.value.toNat : ℤ) else 0).sum

theorem Fits.congr {a b : ChainEvent} (h : a.transfer = b.transfer) : a.Fits ↔ b.Fits := by
  simp only [transfer,Prod.mk.injEq] at h
  rw [Fits,Fits,h.2.2.2]

theorem fits_of_mem_distinctLogs {events : List ChainEvent} {e : ChainEvent}
    (h : e ∈ distinctLogs events) : e ∈ events ∧ e.Fits := by
  have hmem := (Firsts.firsts_sublist _).subset h
  simpa using hmem

theorem mem_map_log_distinctLogs {events : List ChainEvent} {l : B256 × ℕ} :
    l ∈ (distinctLogs events).map log ↔ ∃ e ∈ events, e.Fits ∧ e.log = l := by
  rw [distinctLogs,Firsts.mem_map_firsts]
  simp [and_assoc]

theorem mem_delivery_distinctLogs {events : List ChainEvent} (h : Agree events)
    {x : (B256 × ℕ) × Address × Address × Address × U256} :
    x ∈ (distinctLogs events).map delivery ↔ ∃ e ∈ events, e.Fits ∧ e.delivery = x := by
  constructor
  · intro hx
    obtain ⟨e,he,rfl⟩ := List.mem_map.mp hx
    obtain ⟨hmem,hfits⟩ := fits_of_mem_distinctLogs he
    exact ⟨e,hmem,hfits,rfl⟩
  · rintro ⟨e,he,hfits,rfl⟩
    obtain ⟨d,hd,hlog⟩ := List.mem_map.mp (mem_map_log_distinctLogs.mpr ⟨e,he,hfits,rfl⟩)
    have hsame := h d (fits_of_mem_distinctLogs hd).1 e he hlog
    exact List.mem_map.mpr ⟨d,hd,Prod.ext hlog hsame⟩

theorem nodup_delivery_distinctLogs (events : List ChainEvent) :
    ((distinctLogs events).map delivery).Nodup := by
  apply List.Nodup.of_map Prod.fst
  rw [List.map_map]
  exact Firsts.nodup_firsts _

def SameDeliveries (events others : List ChainEvent) : Prop :=
  ∀ x, x ∈ events.map delivery ↔ x ∈ others.map delivery

theorem Agree.mono {events others : List ChainEvent} (h : Agree events) (hsub : others ⊆ events) :
    Agree others :=
  fun a ha b hb => h a (hsub ha) b (hsub hb)

theorem Agree.congr {events others : List ChainEvent} (h : Agree events)
    (hsame : SameDeliveries events others) : Agree others := by
  intro a ha b hb hlog
  obtain ⟨c,hc,hca⟩ := List.mem_map.mp ((hsame _).mpr (List.mem_map_of_mem ha))
  obtain ⟨d,hd,hdb⟩ := List.mem_map.mp ((hsame _).mpr (List.mem_map_of_mem hb))
  have hcd := h c hc d hd ((congrArg Prod.fst hca).trans (hlog.trans (congrArg Prod.fst hdb).symm))
  exact (congrArg Prod.snd hca).symm.trans (hcd.trans (congrArg Prod.snd hdb))

theorem perm_distinctLogs {events others : List ChainEvent} (h : Agree events)
    (hsame : SameDeliveries events others) :
    ((distinctLogs events).map delivery).Perm ((distinctLogs others).map delivery) := by
  have hhalf : ∀ (l m : List ChainEvent), (∀ x, x ∈ l.map delivery → x ∈ m.map delivery) →
      ∀ x, (∃ e ∈ l, e.Fits ∧ e.delivery = x) → ∃ e ∈ m, e.Fits ∧ e.delivery = x := by
    rintro l m hlm x ⟨e,he,hfits,rfl⟩
    obtain ⟨d,hd,heq⟩ := List.mem_map.mp (hlm _ (List.mem_map_of_mem he))
    exact ⟨d,hd,(Fits.congr (congrArg Prod.snd heq)).mpr hfits,heq⟩
  refine (List.perm_ext_iff_of_nodup (nodup_delivery_distinctLogs _)
    (nodup_delivery_distinctLogs _)).mpr fun x => ?_
  rw [mem_delivery_distinctLogs h,mem_delivery_distinctLogs (h.congr hsame)]
  exact ⟨hhalf _ _ (fun y => (hsame y).mp) x,hhalf _ _ (fun y => (hsame y).mpr) x⟩

theorem received_sent_congr {events others : List ChainEvent}
    (h : (events.map delivery).Perm (others.map delivery)) (a token : Address) :
    received a token events = received a token others ∧ sent a token events = sent a token others := by
  have hsum : ∀ f : ((B256 × ℕ) × Address × Address × Address × U256) → ℤ,
      (events.map fun e => f e.delivery).sum = (others.map fun e => f e.delivery).sum := by
    intro f
    have hperm := (h.map f).sum_eq
    rwa [List.map_map,List.map_map] at hperm
  exact ⟨hsum fun x => if x.2.2.2.1 = a ∧ x.2.1 = token then (x.2.2.2.2.toNat : ℤ) else 0,
    hsum fun x => if x.2.2.1 = a ∧ x.2.1 = token then (x.2.2.2.2.toNat : ℤ) else 0⟩

end ChainEvent

namespace Recon

open ChainEvent InMemoryStore

variable (hex : LowerHex) (build : Build) (order : HashOrder (Σ _ : Asset, I128))

/-- One delivery: the event's entry is appended under the event's key.  `none` is a panic. -/
def deliver (s : InMemoryStore) (event : ChainEvent) :
    InMemoryStore × Option (Except ReconError Unit) :=
  match eventToTransaction hex build order event with
  | none => (s,none)
  | some (.error e) => (s,some (.error e))
  | some (.ok tx) =>
    ((s.append (idempotencyKey hex event,tx)).1,
      (s.append (idempotencyKey hex event,tx)).2.map (Except.mapError ReconError.ledger))

def entry (event : ChainEvent) : InMemoryStore.Call := (idempotencyKey hex event,mirror hex event)

def entries (events : List ChainEvent) : List InMemoryStore.Call :=
  (events.filter fun e => decide e.Fits).map (entry hex)

variable {hex build order} {s : InMemoryStore} {events : List ChainEvent} {event : ChainEvent}

theorem deliver_overflow (h : ¬event.Fits) : deliver hex build order s event =
    (s,some (.error (.amountOverflow (toString event.value.toNat)))) := by
  simp only [deliver,eventToTransaction_overflow hex build order h]

theorem deliver_fits (h : event.Fits) : deliver hex build order s event =
    ((s.append (entry hex event)).1,
      (s.append (entry hex event)).2.map (Except.mapError ReconError.ledger)) := by
  simp only [deliver,eventToTransaction_fits hex build order h,entry]

theorem entries_concat (events : List ChainEvent) (e : ChainEvent) : entries hex (events++[e]) =
    entries hex events ++ if e.Fits then [entry hex e] else [] := by
  rw [entries,List.filter_append,List.map_append]
  by_cases hfits : e.Fits <;> simp [entries,hfits]

theorem final_deliver (events : List ChainEvent) :
    Machine.final (deliver hex build order) new events =
      Machine.final append new (entries hex events) := by
  induction events using List.reverseRecOn with
  | nil => rfl
  | append_singleton events e ih =>
    rw [Machine.final_append,ih,entries_concat,Machine.final_append]
    by_cases hfits : e.Fits
    · simp only [Machine.final,deliver_fits hfits,hfits,if_true]
    · simp only [Machine.final,deliver_overflow hfits,hfits,if_false]

theorem firsts_entries (events : List ChainEvent) :
    firsts Prod.fst (entries hex events) = (distinctLogs events).map (entry hex) :=
  Firsts.firsts_map fun _ _ _ _ => idempotencyKey_inj

theorem journal_deliver (events : List ChainEvent) :
    (Machine.final (deliver hex build order) new events).journal =
      (distinctLogs events).map (mirror hex) := by
  rw [final_deliver,(final_holds _).journal,firsts_entries,List.map_map]
  rfl

theorem mirror_congr {a b : ChainEvent} (h : a.transfer = b.transfer) :
    mirror hex a = mirror hex b := by
  simp only [transfer,Prod.mk.injEq] at h
  rw [mirror,mirror,h.1,h.2.1,h.2.2.1,h.2.2.2]

theorem deliver_accepts (hagree : Agree (events++[event])) (hfits : event.Fits) :
    (deliver hex build order (Machine.final (deliver hex build order) new events) event).2 =
      some (.ok ()) := by
  have hholds := final_holds (entries hex events)
  rw [deliver_fits hfits,final_deliver]
  cases hfirst : firstUnder (entries hex events) (entry hex event).1 with
  | none =>
    rw [append_fresh (hholds.lookup_none_iff.mpr (firstUnder_none_iff.mp hfirst))]
    rfl
  | some first =>
    obtain ⟨e,he,heq⟩ := List.mem_map.mp (mem_of_firstUnder hfirst)
    have hlog := idempotencyKey_inj.mp (congrArg Prod.fst heq)
    have hsame := hagree e (by simp [(List.mem_filter.mp he).1]) event (by simp) hlog
    have hbody : first = mirror hex event :=
      (congrArg Prod.snd heq).symm.trans (mirror_congr hsame)
    rw [hholds.append_known hfirst,if_pos (show first = (entry hex event).2 from hbody)]
    rfl

theorem intSum_matching_mirror (h : event.Fits) (a token : Address) :
    Signed.intSum (matching (accountOf hex a) (assetOf hex token) (mirror hex event).postings) =
      received a token [event] - sent a token [event] := by
  have hcredit := toInt_ofNat h
  have hdebit := toInt_neg_ofNat h
  simp only [matching,mirror,received,sent,List.filter_cons,List.filter_nil,
    (accountOf_injective hex).eq_iff,(assetOf_injective hex).eq_iff]
  generalize BitVec.ofNat 128 event.value.toNat = amount at hcredit hdebit ⊢
  by_cases htoken : event.token = token
  · by_cases hs : event.sender = a <;> by_cases hr : event.receiver = a <;>
      simp [htoken,hs,hr,hcredit,hdebit]
  · simp [htoken]

theorem intSum_matching_mirrors (h : ∀ e ∈ events, e.Fits) (a token : Address) :
    Signed.intSum (matching (accountOf hex a) (assetOf hex token)
      ((events.map (mirror hex)).flatMap Transaction.postings)) =
      received a token events - sent a token events := by
  induction events with
  | nil => rfl
  | cons e events ih =>
    have hone := @intSum_matching_mirror hex e (h e (by simp)) a token
    have hrest := ih fun d hd => h d (by simp [hd])
    simp only [received,sent,List.map_cons,List.map_nil,List.sum_cons,List.sum_nil] at hone hrest ⊢
    rw [List.flatMap_cons,matching_append,Signed.intSum_append,hone,hrest]
    omega

variable (hex build order) in
/-- The store once some events were delivered to an empty one. -/
def delivered (events : List ChainEvent) : InMemoryStore :=
  Machine.final (deliver hex build order) new events

theorem fits_distinctLogs (events : List ChainEvent) : ∀ e ∈ distinctLogs events, e.Fits :=
  fun _ he => (fits_of_mem_distinctLogs he).2

theorem toInt_balance_delivered {a token : Address} {balance : I128}
    (h : (delivered hex build order events).balance (accountOf hex a) (assetOf hex token) =
      .ok balance) :
    balance.toInt = received a token (distinctLogs events) - sent a token (distinctLogs events) := by
  rw [toInt_of_balance h,delivered,journal_deliver,
    intSum_matching_mirrors (fits_distinctLogs events)]

variable (hex build order events) in
/-- What holds once `events` were delivered: every log that fits took effect exactly once. -/
structure ExactlyOnce : Prop where
  /-- An amount that does not fit is refused, and the store is as it was. -/
  refused : ∀ before e after, events = before ++ e::after → ¬e.Fits →
    deliver hex build order (delivered hex build order before) e =
      (delivered hex build order before,some (.error (.amountOverflow (toString e.value.toNat))))
  accepted : ∀ before e after, events = before ++ e::after → e.Fits →
    (deliver hex build order (delivered hex build order before) e).2 = some (.ok ())
  journal : (delivered hex build order events).journal.map (fun tx => some (.ok tx)) =
    (distinctLogs events).map (eventToTransaction hex build order)
  once : ((distinctLogs events).map log).Nodup
  complete : ∀ l, l ∈ (distinctLogs events).map log ↔ ∃ e ∈ events, e.Fits ∧ e.log = l
  balances : ∀ a token,
    (∃ balance, (delivered hex build order events).balance (accountOf hex a) (assetOf hex token) =
        .ok balance ∧
      balance.toInt =
        received a token (distinctLogs events) - sent a token (distinctLogs events)) ∨
    ((delivered hex build order events).balance (accountOf hex a) (assetOf hex token) =
        .error (.overflow (accountOf hex a) (assetOf hex token)) ∧
      ¬Signed.Runs 0 (matching (accountOf hex a) (assetOf hex token)
        ((delivered hex build order events).journal.flatMap Transaction.postings)))

/-- However often and in whatever order transfers are delivered, each log takes effect
exactly once, and the balances that are returned depend only on which logs came. -/
theorem exactly_once (hex : LowerHex) (build : Build) (order : HashOrder (Σ _ : Asset, I128))
    (events : List ChainEvent) (hagree : Agree events) :
    ExactlyOnce hex build order events ∧
    ∀ others, SameDeliveries events others → ∀ a token balance balance',
      (delivered hex build order events).balance (accountOf hex a) (assetOf hex token) =
        .ok balance →
      (delivered hex build order others).balance (accountOf hex a) (assetOf hex token) =
        .ok balance' →
      balance = balance' := by
  refine ⟨⟨fun _ _ _ _ hfits => deliver_overflow hfits,?_,?_,Firsts.nodup_firsts _,
    fun _ => mem_map_log_distinctLogs,?_⟩,?_⟩
  · rintro before e after rfl hfits
    exact deliver_accepts (hagree.mono (by simp)) hfits
  · rw [delivered,journal_deliver,List.map_map]
    exact List.map_congr_left fun e he =>
      (eventToTransaction_fits hex build order (fits_distinctLogs events e he)).symm
  · intro a token
    rcases balanceOf_cases (delivered hex build order events).journal (accountOf hex a)
      (assetOf hex token) with ⟨balance,hok⟩ | herror
    · exact .inl ⟨balance,hok,toInt_balance_delivered hok⟩
    · exact .inr ⟨herror,(Signed.checkedSum_eq_none_iff _ _).mp (balanceOf_eq_error_iff.mp herror)⟩
  · intro others hsame a token balance balance' hok hok'
    have hmoved := received_sent_congr (perm_distinctLogs hagree hsame) a token
    have h1 := toInt_balance_delivered hok
    have h2 := toInt_balance_delivered hok'
    rw [hmoved.1,hmoved.2,← h2] at h1
    exact BitVec.toInt_inj.mp h1

theorem exactly_once_redelivered :
    let pay : ChainEvent := ⟨9,1,2,70,5,3,0⟩
    let forward : ChainEvent := ⟨9,2,4,30,6,3,1⟩
    let huge : ChainEvent := ⟨9,4,1,-1,6,8,0⟩
    let order : HashOrder (Σ _ : Asset, I128) := ⟨id,fun _ => .refl _⟩
    ExactlyOnce .fixed .checked order [pay,huge,forward,pay] ∧
      (delivered .fixed .checked order [pay,huge,forward,pay]).balance (accountOf .fixed 2)
        (assetOf .fixed 9) = .ok 40 := by
  intro pay forward huge order
  exact ⟨(exactly_once .fixed .checked order [pay,huge,forward,pay] (by decide)).1,
    by decide +kernel⟩

end Recon
end Fintrails
