import Fintrails.Deliveries
import Fintrails.Reorgs

/-! Applying the indexer's messages to the ledger.  A confirmed transfer is appended under
the key of its log, a retracted one is reversed under a key of its own.  The balances
are those of the standing transfers as long as no log is confirmed a second time: the
key of a log stays taken after the transfer was reversed. -/
namespace Fintrails

namespace ChainEvent

def net (a token : Address) (events : List ChainEvent) : ℤ :=
  received a token events - sent a token events

@[simp] theorem net_nil (a token : Address) : net a token [] = 0 := rfl

@[simp] theorem net_append (a token : Address) (xs ys : List ChainEvent) :
    net a token (xs++ys) = net a token xs + net a token ys := by
  simp only [net,received,sent,List.map_append,List.sum_append]
  omega

theorem net_cons (a token : Address) (e : ChainEvent) (events : List ChainEvent) :
    net a token (e::events) = net a token [e] + net a token events :=
  net_append a token [e] events

theorem net_filter_add (a token : Address) (q : ChainEvent → Prop) [DecidablePred q]
    (events : List ChainEvent) : net a token (events.filter fun e => decide (q e)) +
      net a token (events.filter fun e => decide (¬q e)) = net a token events := by
  induction events with
  | nil => rfl
  | cons e events ih =>
    rw [net_cons a token e events]
    by_cases hq : q e
    · rw [List.filter_cons_of_pos (by simpa using hq),List.filter_cons_of_neg (by simpa using hq),
        net_cons]
      omega
    · rw [List.filter_cons_of_neg (by simpa using hq),List.filter_cons_of_pos (by simpa using hq),
        net_cons]
      omega

end ChainEvent

def IndexerMessage.event? : IndexerMessage → Option ChainEvent
  | .confirmed e => some e
  | .reorged _ => none

def confirmedOf (msgs : List IndexerMessage) : List ChainEvent :=
  msgs.filterMap IndexerMessage.event?

@[simp] theorem confirmedOf_append (ms ns : List IndexerMessage) :
    confirmedOf (ms++ns) = confirmedOf ms ++ confirmedOf ns :=
  List.filterMap_append

theorem mem_confirmedOf {msgs : List IndexerMessage} {e : ChainEvent} :
    e ∈ confirmedOf msgs ↔ IndexerMessage.confirmed e ∈ msgs := by
  rw [confirmedOf,List.mem_filterMap]
  constructor
  · rintro ⟨m | _,hm,heq⟩
    · cases heq
      exact hm
    · cases heq
  · intro h
    exact ⟨_,h,rfl⟩

namespace Recon

open ChainEvent InMemoryStore

/-- Keys to append reversals under: no two alike, and none that of a log. -/
structure FreshKeys (hex : LowerHex) where
  key : ℕ → String
  injective : Function.Injective key
  no_log : ∀ n event, key n ≠ idempotencyKey hex event

/-- `storno:` and a number, beside hashes that start with a zero. -/
def FreshKeys.numbered : FreshKeys .fixed where
  key n := "storno:" ++ toString n
  injective := by
    intro n m h
    have hlist := congrArg String.toList h
    simp only [String.toList_append,toList_toString] at hlist
    exact toDigits_injective (List.append_cancel_left hlist)
  no_log := by
    intro n event h
    have hhead := congrArg (fun s => s.toList.head?) h
    simp [idempotencyKey,LowerHex.fixed,LowerHex.print,String.toList_append] at hhead

/-- What a consumer of the indexer keeps: the ledger, the transfers that stand, and how many
it has reversed. -/
structure Books where
  store : InMemoryStore
  standing : List ChainEvent
  stornos : ℕ

def Books.empty : Books := ⟨.new,[],0⟩

/-- What an append returned, or the failure in front of it; `none` is a panic. -/
abbrev Outcome := Option (Except ReconError Unit)

variable (hex : LowerHex) (build : Build) (order : HashOrder (Σ _ : Asset, I128))
  (keys : FreshKeys hex)

/-- The reverse of the transfer's entry is appended under the next fresh key. -/
def storno (s : InMemoryStore × ℕ) (event : ChainEvent) : (InMemoryStore × ℕ) × Outcome :=
  match eventToTransaction hex build order event with
  | none => ((s.1,s.2+1),none)
  | some (.error e) => ((s.1,s.2+1),some (.error e))
  | some (.ok tx) =>
    match tx.reverse with
    | .error e => ((s.1,s.2+1),some (.error (.ledger e)))
    | .ok reversed =>
      (((s.1.append (keys.key s.2,reversed)).1,s.2+1),
        (s.1.append (keys.key s.2,reversed)).2.map (Except.mapError ReconError.ledger))

/-- One message, and what each append it leads to returned. -/
def consume (books : Books) (msg : IndexerMessage) : Books × List Outcome :=
  match msg with
  | .confirmed event =>
    (⟨(deliver hex build order books.store event).1,books.standing ++ [event],books.stornos⟩,
      [(deliver hex build order books.store event).2])
  | .reorged orphaned =>
    let retracted := books.standing.filter fun e =>
      decide (e.blockNumber ∈ orphaned.map BlockRef.number)
    let after := Machine.final (storno hex build order keys) (books.store,books.stornos) retracted
    (⟨after.1,books.standing.filter (fun e =>
        decide (e.blockNumber ∉ orphaned.map BlockRef.number)),after.2⟩,
      Machine.outputs (storno hex build order keys) (books.store,books.stornos) retracted)

def consumed (msgs : List IndexerMessage) : Books :=
  Machine.final (consume hex build order keys) .empty msgs

def outcomes (msgs : List IndexerMessage) : List Outcome :=
  (Machine.outputs (consume hex build order keys) .empty msgs).flatten

variable {hex build order keys}

theorem standing_consume (books : Books) (msg : IndexerMessage) :
    (consume hex build order keys books msg).1.standing =
      Standing.absorb ChainEvent.blockNumber books.standing msg.batch := by
  cases msg with
  | confirmed event => exact (Standing.absorb_add _ _).symm
  | reorged orphaned => exact (List.append_nil _).symm

theorem consumed_concat (msgs : List IndexerMessage) (msg : IndexerMessage) :
    consumed hex build order keys (msgs++[msg]) =
      (consume hex build order keys (consumed hex build order keys msgs) msg).1 := by
  rw [consumed,Machine.final_append]
  rfl

theorem outcomes_concat (msgs : List IndexerMessage) (msg : IndexerMessage) :
    outcomes hex build order keys (msgs++[msg]) = outcomes hex build order keys msgs ++
      (consume hex build order keys (consumed hex build order keys msgs) msg).2 := by
  rw [outcomes,Machine.outputs_append,List.flatten_append]
  simp [outcomes,consumed]

/-- The consumer holds what stands of the messages. -/
theorem standing_consumed (msgs : List IndexerMessage) :
    (consumed hex build order keys msgs).standing = standingEvents msgs := by
  induction msgs using List.reverseRecOn with
  | nil => rfl
  | append_singleton msgs msg ih =>
    rw [consumed_concat,standing_consume,ih,standingEvents_append]
    rfl

variable (hex) in
def mirrorBack (event : ChainEvent) : Transaction :=
  ⟨(mirror hex event).postings.map Posting.negated⟩

theorem negatable_mirror {event : ChainEvent} (h : event.Fits) :
    Transaction.Negatable (mirror hex event).postings := by
  have hcredit := negOverflow_ofNat h
  have hdebit : (-BitVec.ofNat 128 event.value.toNat).negOverflow = false := by
    rw [Signed.negOverflow_neg,hcredit]
  have hmin : ∀ a : I128, a.negOverflow = false → a ≠ .intMin 128 := by
    intro a ha heq
    rw [(Signed.negOverflow_iff (by decide) a).mpr heq] at ha
    cases ha
  simp only [Transaction.Negatable,mirror,List.mem_cons,List.not_mem_nil,or_false]
  rintro p (rfl | rfl)
  · exact hmin _ hdebit
  · exact hmin _ hcredit

theorem storno_fits {event : ChainEvent} (h : event.Fits) (s : InMemoryStore) (n : ℕ) :
    storno hex build order keys (s,n) event =
      (((s.append (keys.key n,mirrorBack hex event)).1,n+1),
        (s.append (keys.key n,mirrorBack hex event)).2.map (Except.mapError ReconError.ledger)) := by
  have hreverse := Transaction.reverse_of_negatable (@negatable_mirror hex event h)
  simp only [storno,eventToTransaction_fits hex build order h,hreverse,mirrorBack]

theorem intSum_matching_mirrorBack {event : ChainEvent} (h : event.Fits) (a token : Address) :
    Signed.intSum (matching (accountOf hex a) (assetOf hex token) (mirrorBack hex event).postings) =
      -net a token [event] := by
  rw [mirrorBack,matching_negated,intSum_negated (negatable_mirror h),intSum_matching_mirror h]
  rfl

variable (build order) in
theorem stornos_fit {retracted : List ChainEvent} (hfits : ∀ e ∈ retracted, e.Fits)
    {calls : List InMemoryStore.Call} {s : InMemoryStore} {n : ℕ} (h : Holds calls s)
    (hfresh : ∀ m, n ≤ m → keys.key m ∉ calls.map Prod.fst) :
    ∃ more : List InMemoryStore.Call,
      Holds (calls++more) (Machine.final (storno hex build order keys) (s,n) retracted).1 ∧
      more.map Prod.fst = (List.range' n retracted.length).map keys.key ∧
      Machine.final (storno hex build order keys) (s,n) retracted =
        ((Machine.final (storno hex build order keys) (s,n) retracted).1,n+retracted.length) ∧
      (Machine.final (storno hex build order keys) (s,n) retracted).1.journal =
        s.journal ++ retracted.map (mirrorBack hex) ∧
      ∀ x ∈ Machine.outputs (storno hex build order keys) (s,n) retracted, x = some (.ok ()) := by
  induction retracted generalizing calls s n with
  | nil => exact ⟨[],by simpa [Machine.final] using h,rfl,rfl,by simp [Machine.final],by simp⟩
  | cons e retracted ih =>
    have happend := append_fresh (s:=s) (c:=(keys.key n,mirrorBack hex e))
      (h.lookup_none_iff.mpr (hfresh n (le_refl n)))
    have hone := h.append (keys.key n,mirrorBack hex e)
    obtain ⟨more,hmore,hkeys,hcount,hjournal,hok⟩ := ih (fun d hd => hfits d (by simp [hd])) hone
      (n:=n+1) (fun m hm => by
        have hne : keys.key m ≠ keys.key n := fun heq => by
          have := keys.injective heq
          omega
        simpa [hne] using hfresh m (by omega))
    rw [Machine.final,Machine.outputs_cons,storno_fits (hfits e (by simp))]
    refine ⟨(keys.key n,mirrorBack hex e)::more,by simpa using hmore,?_,?_,?_,?_⟩
    · rw [List.map_cons,hkeys,List.length_cons,List.range'_succ,List.map_cons]
    · rw [hcount,List.length_cons]
      congr 1
      omega
    · rw [hjournal,happend,List.map_cons,List.append_assoc,List.singleton_append]
    · intro x hx
      rcases List.mem_cons.mp hx with rfl | hx
      · rw [happend]
        rfl
      · exact hok x hx

variable (hex keys) in
/-- The calls made so far, and what they come to: the standing transfers less those that were
confirmed again. -/
structure Kept (msgs : List IndexerMessage) (calls : List InMemoryStore.Call) (books : Books) :
    Prop where
  holds : Holds calls books.store
  known_iff : ∀ key, key ∈ calls.map Prod.fst ↔
    (∃ e ∈ confirmedOf msgs, idempotencyKey hex e = key) ∨ ∃ n < books.stornos, keys.key n = key
  bodies : ∀ e ∈ confirmedOf msgs, firstUnder calls (idempotencyKey hex e) = some (mirror hex e)
  within : ∀ e ∈ books.standing, e ∈ confirmedOf msgs
  moved : ∀ a token, Signed.intSum (matching (accountOf hex a) (assetOf hex token)
      (books.store.journal.flatMap Transaction.postings)) =
    net a token books.standing - net a token (repeats log (confirmedOf msgs))

theorem kept_empty : Kept hex keys [] [] .empty where
  holds := new_holds
  known_iff := by simp [confirmedOf,Books.empty]
  bodies := by simp [confirmedOf]
  within := by simp [Books.empty]
  moved _ _ := rfl

section Steps

variable {msgs : List IndexerMessage} {calls : List InMemoryStore.Call} {books : Books}

theorem Kept.log_known_iff (h : Kept hex keys msgs calls books) (e : ChainEvent) :
    idempotencyKey hex e ∈ calls.map Prod.fst ↔ e.log ∈ (confirmedOf msgs).map log := by
  rw [h.known_iff,List.mem_map]
  constructor
  · rintro (⟨d,hd,hkey⟩ | ⟨n,_,hkey⟩)
    · exact ⟨d,hd,idempotencyKey_inj.mp hkey⟩
    · exact absurd hkey (keys.no_log n e)
  · rintro ⟨d,hd,hlog⟩
    exact .inl ⟨d,hd,idempotencyKey_inj.mpr hlog⟩

theorem Kept.first_of_log (h : Kept hex keys msgs calls books) {e : ChainEvent}
    (hagree : Agree (confirmedOf msgs ++ [e])) (hlog : e.log ∈ (confirmedOf msgs).map log) :
    firstUnder calls (idempotencyKey hex e) = some (mirror hex e) := by
  obtain ⟨d,hd,heq⟩ := List.mem_map.mp hlog
  have hsame := hagree d (by simp [hd]) e (by simp) heq
  rw [← mirror_congr hsame,← idempotencyKey_inj.mpr heq]
  exact h.bodies d hd

theorem Kept.known_iff_confirm (h : Kept hex keys msgs calls books) (e : ChainEvent)
    (key : String) : key ∈ (calls ++ [entry hex e]).map Prod.fst ↔
      (∃ d ∈ confirmedOf msgs ++ [e], idempotencyKey hex d = key) ∨
        ∃ n < books.stornos, keys.key n = key := by
  rw [List.map_append,List.mem_append,h.known_iff]
  simp only [entry,List.map_cons,List.map_nil,List.mem_singleton,List.mem_append,or_and_right,
    exists_or,exists_eq_left,eq_comm (a:=key)]
  exact or_right_comm

theorem Kept.bodies_confirm (h : Kept hex keys msgs calls books) {e : ChainEvent}
    (hagree : Agree (confirmedOf msgs ++ [e])) : ∀ d ∈ confirmedOf msgs ++ [e],
      firstUnder (calls ++ [entry hex e]) (idempotencyKey hex d) = some (mirror hex d) := by
  intro d hd
  rw [firstUnder_concat]
  rcases List.mem_append.mp hd with hd | hd
  · rw [h.bodies d hd,Option.some_or]
  · obtain rfl := List.mem_singleton.mp hd
    by_cases hlog : d.log ∈ (confirmedOf msgs).map log
    · rw [h.first_of_log hagree hlog,Option.some_or]
    · rw [← h.log_known_iff,← firstUnder_none_iff] at hlog
      rw [hlog,Option.none_or]
      exact if_pos rfl

theorem Kept.within_confirm (h : Kept hex keys msgs calls books) (e : ChainEvent) :
    ∀ d ∈ books.standing ++ [e], d ∈ confirmedOf msgs ++ [e] := by
  intro d hd
  rcases List.mem_append.mp hd with hd | hd
  · exact List.mem_append_left _ (h.within d hd)
  · exact List.mem_append_right _ hd

variable (build order) in
theorem Kept.confirm (h : Kept hex keys msgs calls books) {e : ChainEvent} (hfits : e.Fits)
    (hagree : Agree (confirmedOf msgs ++ [e])) :
    Kept hex keys (msgs ++ [.confirmed e]) (calls ++ [entry hex e])
        (consume hex build order keys books (.confirmed e)).1 ∧
      ∀ x ∈ (consume hex build order keys books (.confirmed e)).2, x = some (.ok ()) := by
  have hconfirmed : confirmedOf (msgs ++ [.confirmed e]) = confirmedOf msgs ++ [e] :=
    confirmedOf_append _ _
  have hholds := h.holds.append (entry hex e)
  have hknown := h.known_iff_confirm e
  have hbodies := h.bodies_confirm hagree
  have hwithin := h.within_confirm e
  rw [← hconfirmed] at hknown hbodies hwithin
  simp only [consume,deliver_fits hfits]
  by_cases hlog : e.log ∈ (confirmedOf msgs).map log
  · have happend := h.holds.append_known (c:=entry hex e) (h.first_of_log hagree hlog)
    rw [happend] at hholds ⊢
    refine ⟨⟨hholds,hknown,hbodies,hwithin,?_⟩,?_⟩
    · intro a token
      rw [hconfirmed,Firsts.repeats_concat,if_pos hlog,net_append,net_append,h.moved]
      omega
    · rw [if_pos (show mirror hex e = (entry hex e).2 from rfl)]
      simp [Except.mapError]
  · have happend := append_fresh (s:=books.store) (c:=entry hex e)
      (h.holds.lookup_none_iff.mpr (by rwa [← h.log_known_iff] at hlog))
    rw [happend] at hholds ⊢
    refine ⟨⟨hholds,hknown,hbodies,hwithin,?_⟩,?_⟩
    · intro a token
      rw [hconfirmed,Firsts.repeats_concat,if_neg hlog,List.append_nil,net_append,
        List.flatMap_append,List.flatMap_singleton,matching_append,Signed.intSum_append,h.moved]
      have hone := @intSum_matching_mirror hex e hfits a token
      simp only [entry]
      rw [hone]
      simp only [net]
      omega
    · simp [Except.mapError]

theorem intSum_matching_mirrorsBack {events : List ChainEvent} (hfits : ∀ e ∈ events, e.Fits)
    (a token : Address) : Signed.intSum (matching (accountOf hex a) (assetOf hex token)
      ((events.map (mirrorBack hex)).flatMap Transaction.postings)) = -net a token events := by
  induction events with
  | nil => rfl
  | cons e events ih =>
    have hrest := ih fun d hd => hfits d (by simp [hd])
    rw [List.map_cons,List.flatMap_cons,matching_append,Signed.intSum_append,hrest,
      intSum_matching_mirrorBack (hfits e (by simp)),net_cons a token e events]
    omega

theorem Kept.next_keys_free (h : Kept hex keys msgs calls books) {m : ℕ} (hm : books.stornos ≤ m) :
    keys.key m ∉ calls.map Prod.fst := by
  intro hknown
  rcases (h.known_iff _).mp hknown with ⟨e,_,hkey⟩ | ⟨n,hn,hkey⟩
  · exact keys.no_log m e hkey.symm
  · have := keys.injective hkey
    omega

theorem Kept.known_iff_retract (h : Kept hex keys msgs calls books)
    {more : List InMemoryStore.Call} {count : ℕ}
    (hkeys : more.map Prod.fst = (List.range' books.stornos count).map keys.key) (key : String) :
    key ∈ (calls++more).map Prod.fst ↔
      (∃ e ∈ confirmedOf msgs, idempotencyKey hex e = key) ∨
        ∃ n < books.stornos + count, keys.key n = key := by
  rw [List.map_append,List.mem_append,h.known_iff,hkeys,or_assoc]
  refine or_congr_right ?_
  simp only [List.mem_map,List.mem_range'_1]
  constructor
  · rintro (⟨n,hn,hkey⟩ | ⟨n,⟨_,hn⟩,hkey⟩)
    · exact ⟨n,by omega,hkey⟩
    · exact ⟨n,hn,hkey⟩
  · rintro ⟨n,hn,hkey⟩
    by_cases hlow : n < books.stornos
    · exact .inl ⟨n,hlow,hkey⟩
    · exact .inr ⟨n,⟨by omega,hn⟩,hkey⟩

variable (build order) in
theorem Kept.retract (h : Kept hex keys msgs calls books)
    (hfits : ∀ e ∈ confirmedOf msgs, e.Fits) (orphaned : List BlockRef) :
    (∃ more, Kept hex keys (msgs ++ [.reorged orphaned]) (calls++more)
      (consume hex build order keys books (.reorged orphaned)).1) ∧
    ∀ x ∈ (consume hex build order keys books (.reorged orphaned)).2, x = some (.ok ()) := by
  have hconfirmed : confirmedOf (msgs ++ [.reorged orphaned]) = confirmedOf msgs := by
    rw [confirmedOf_append]
    exact List.append_nil _
  obtain ⟨retracted,hretracted⟩ : ∃ l, l = books.standing.filter fun e =>
    decide (e.blockNumber ∈ orphaned.map BlockRef.number) := ⟨_,rfl⟩
  have hmem : ∀ e ∈ retracted, e.Fits := by
    intro e he
    rw [hretracted] at he
    exact hfits e (h.within e (List.mem_filter.mp he).1)
  obtain ⟨more,hholds,hkeys,hcount,hjournal,hok⟩ :=
    stornos_fit build order hmem h.holds fun _ => h.next_keys_free
  simp only [consume]
  rw [← hretracted,hcount]
  refine ⟨⟨more,hholds,?_,?_,?_,?_⟩,hok⟩
  · rw [hconfirmed]
    exact h.known_iff_retract hkeys
  · intro e he
    rw [hconfirmed] at he
    exact firstUnder_append_of_some (h.bodies e he) more
  · intro e he
    rw [hconfirmed]
    exact h.within e (List.mem_filter.mp he).1
  · intro a token
    have hsplit := net_filter_add a token
      (fun e => e.blockNumber ∈ orphaned.map BlockRef.number) books.standing
    rw [← hretracted] at hsplit
    rw [hconfirmed,hjournal,List.flatMap_append,matching_append,Signed.intSum_append,h.moved,
      intSum_matching_mirrorsBack hmem]
    dsimp only
    omega

end Steps

variable (hex build order keys) in
/-- While every amount fits, every append succeeds and the books are kept. -/
theorem kept_consumed {msgs : List IndexerMessage} (hagree : Agree (confirmedOf msgs))
    (hfits : ∀ e ∈ confirmedOf msgs, e.Fits) :
    (∃ calls, Kept hex keys msgs calls (consumed hex build order keys msgs)) ∧
      ∀ x ∈ outcomes hex build order keys msgs, x = some (.ok ()) := by
  induction msgs using List.reverseRecOn with
  | nil => exact ⟨⟨[],kept_empty⟩,by simp [outcomes]⟩
  | append_singleton msgs msg ih =>
    rw [confirmedOf_append] at hagree hfits
    obtain ⟨⟨calls,hkept⟩,hok⟩ := ih (hagree.mono (List.subset_append_left _ _))
      fun e he => hfits e (List.mem_append_left _ he)
    rw [consumed_concat,outcomes_concat]
    have hstep : (∃ calls', Kept hex keys (msgs++[msg]) calls'
        (consume hex build order keys (consumed hex build order keys msgs) msg).1) ∧
        ∀ x ∈ (consume hex build order keys (consumed hex build order keys msgs) msg).2,
          x = some (.ok ()) := by
      cases msg with
      | confirmed e =>
        have hnext := hkept.confirm build order
          (hfits e (List.mem_append_right _ (List.mem_singleton_self e))) hagree
        exact ⟨⟨_,hnext.1⟩,hnext.2⟩
      | reorged orphaned =>
        obtain ⟨⟨more,hnext⟩,hall⟩ := hkept.retract build order
          (fun e he => hfits e (List.mem_append_left _ he)) orphaned
        exact ⟨⟨_,hnext⟩,hall⟩
    refine ⟨hstep.1,fun x hx => ?_⟩
    rcases List.mem_append.mp hx with hx | hx
    · exact hok x hx
    · exact hstep.2 x hx

theorem outcome_of_overflow {msgs : List IndexerMessage} {e : ChainEvent}
    (he : e ∈ confirmedOf msgs) (h : ¬e.Fits) :
    some (.error (.amountOverflow (toString e.value.toNat))) ∈ outcomes hex build order keys msgs := by
  induction msgs using List.reverseRecOn with
  | nil => cases he
  | append_singleton msgs msg ih =>
    rw [outcomes_concat]
    rw [confirmedOf_append] at he
    rcases List.mem_append.mp he with he | he
    · exact List.mem_append_left _ (ih he)
    · refine List.mem_append_right _ ?_
      obtain rfl := List.mem_singleton.mp (mem_confirmedOf.mp he)
      simp [consume,deliver_overflow h]

variable (hex build order keys) in
/-- What the ledger comes to once some messages were applied to it. -/
structure LedgerTracks (msgs : List IndexerMessage) : Prop where
  succeeds_iff : (∀ x ∈ outcomes hex build order keys msgs, x = some (.ok ())) ↔
    ∀ e ∈ confirmedOf msgs, e.Fits
  /-- A balance is that of the standing transfers exactly if what was confirmed again moves
  nothing on it. -/
  balance_iff : (∀ e ∈ confirmedOf msgs, e.Fits) → ∀ a token balance,
    (consumed hex build order keys msgs).store.balance (accountOf hex a) (assetOf hex token) =
      .ok balance →
    (balance.toInt = received a token (standingEvents msgs) - sent a token (standingEvents msgs) ↔
      received a token (repeats log (confirmedOf msgs)) =
        sent a token (repeats log (confirmedOf msgs)))

theorem ledgerTracks {msgs : List IndexerMessage} (hagree : Agree (confirmedOf msgs)) :
    LedgerTracks hex build order keys msgs := by
  refine ⟨⟨fun hok e he => ?_,fun hfits => (kept_consumed hex build order keys hagree hfits).2⟩,
    fun hfits a token balance hbalance => ?_⟩
  · by_contra h
    cases hok _ (outcome_of_overflow he h)
  · obtain ⟨⟨calls,hkept⟩,_⟩ := kept_consumed hex build order keys hagree hfits
    have hmoved := hkept.moved a token
    rw [standing_consumed] at hmoved
    rw [toInt_of_balance hbalance,hmoved]
    simp only [net]
    omega

end Recon

namespace World

/-- Wherever a log is included, it says the same. -/
def SameTransfers (W : World) : Prop :=
  ∀ b ∈ W.blocks, ∀ c ∈ W.blocks, ∀ e ∈ W.events b, ∀ f ∈ W.events c,
    e.log = f.log → e.transfer = f.transfer

end World

namespace Poller

open ChainEvent Recon

variable {C : Type} [Checkpoint C] {W : World}

theorem confirmed_in_world (hsave : ∀ height (c : C), (Checkpoint.save height c).1 = .ok ())
    {p : Poller Node C} (hp : p.tracker.Inhabits W) {nodes : List Node}
    (hnodes : ∀ s ∈ nodes, W.Serves s) :
    ∀ e ∈ confirmedOf (returned (Machine.outputs tick p nodes)), ∃ b ∈ W.blocks, e ∈ W.events b := by
  have hstep : ∀ results (q : Poller Node C) s,
      (q.tracker.Inhabits W ∧ ∀ e ∈ confirmedOf (returned results), ∃ b ∈ W.blocks, e ∈ W.events b) →
      W.Serves s → (tick q s).1.tracker.Inhabits W ∧
        ∀ e ∈ confirmedOf (returned (results ++ [(tick q s).2])), ∃ b ∈ W.blocks, e ∈ W.events b := by
    rintro results q s ⟨hq,hin⟩ hs
    rw [tick_eq q s hq.sound hsave,returned_ok,confirmedOf_append]
    refine ⟨?_,fun e he => ?_⟩
    · rw [settled_tracker]
      exact (hq.plan hs q.startBlock).1
    rcases List.mem_append.mp he with he | he
    · exact hin e he
    · obtain ⟨u,_,hmem⟩ := List.mem_flatMap.mp (mem_confirmedOf.mp he)
      obtain ⟨_,_,n,_,_,hn,hblock⟩ := Node.confirmed_mem_messages.mp hmem
      rw [hs.1] at hblock
      exact ⟨_,hs.2 n hn,hblock⟩
  exact (Machine.outputs_run (P:=fun results (q : Poller Node C) => q.tracker.Inhabits W ∧
    ∀ e ∈ confirmedOf (returned results), ∃ b ∈ W.blocks, e ∈ W.events b) hstep
    ⟨hp,by simp [confirmedOf]⟩ (Machine.guarded_of_forall fun s hs _ => hnodes s hs)).2

/-- Whatever chains are polled, the ledger follows the messages: every append succeeds exactly
if every amount fits, and a balance is that of the standing transfers exactly if the logs that
were confirmed again move nothing on it. -/
theorem ledger_tracks_standing_iff (hsame : W.SameTransfers)
    (hsave : ∀ height (c : C), (Checkpoint.save height c).1 = .ok ())
    (p : Poller Node C) (hp : p.tracker.Inhabits W) (nodes : List Node)
    (hnodes : ∀ s ∈ nodes, W.Serves s) (hex : LowerHex) (build : Build)
    (order : HashOrder (Σ _ : Asset, I128)) (keys : FreshKeys hex) :
    LedgerTracks hex build order keys (returned (Machine.outputs tick p nodes)) := by
  have hworld := confirmed_in_world hsave hp hnodes
  refine ledgerTracks fun e he f hf hlog => ?_
  obtain ⟨b,hb,heb⟩ := hworld e he
  obtain ⟨c,hc,hfc⟩ := hworld f hf
  exact hsame b hb c hc e heb f hfc hlog

theorem fresh_inhabits (confirmations window : ℕ) (h : confirmations < window) :
    (Tracker.fresh confirmations window h).Inhabits W :=
  ⟨Tracker.fresh_sound _ _ _,by simp⟩

theorem ledger_tracks_standing_forked :
    LedgerTracks .fixed .checked ⟨id,fun _ => .refl _⟩ .numbered (returned (Machine.outputs tick
      (new (World.forked.node World.forkedLinear) (Tracker.fresh 1 4 (by decide)) 0)
      [World.forked.node World.forkedLinear,World.forked.node World.forkedBranch])) := by
  refine ledger_tracks_standing_iff (W:=World.forked) ?_ (fun _ _ => rfl) _
    (fresh_inhabits 1 4 (by decide)) _ ?_ .fixed .checked ⟨id,fun _ => .refl _⟩ .numbered
  · intro b _ c _ e he f hf _
    obtain rfl := List.mem_singleton.mp he
    obtain rfl := List.mem_singleton.mp hf
    rfl
  · intro s hs
    rcases List.mem_cons.mp hs with rfl | hs
    · exact World.forked_linear
    · rw [List.mem_singleton.mp hs]
      exact World.forked_branch

end Poller

namespace World

/-- The forked chains with one transaction, in block 2 of the linear chain and in block 3 of the
branch. -/
def included : World where
  blocks := forked.blocks
  events b :=
    if b = Tracker.block 2 ∨ b = forkedBranch.block 3 then [⟨9,1,2,70,b.number,7,0⟩] else []
  hash_inj := forked.hash_inj
  events_number := by
    intro b e he
    split at he
    · rw [List.mem_singleton.mp he]
    · cases he

theorem included_sameTransfers : included.SameTransfers := by
  have hone : ∀ b, ∀ e ∈ included.events b, e.transfer = (9,1,2,70) := by
    intro b e he
    simp only [included] at he
    split at he
    · rw [List.mem_singleton.mp he]
      rfl
    · cases he
  intro b _ c _ e he f hf _
  rw [hone b e he,hone c f hf]

end World

namespace Poller

open ChainEvent Recon

/-- The transaction is confirmed in block 2, retracted, and confirmed again in block 3 of the
branch.  All appends succeed, and the ledger has lost the transfer. -/
theorem reconfirmed_lost :
    let p := new (World.included.node World.forkedLinear) (Tracker.fresh 1 4 (by decide)) 0
    let nodes := [World.included.node World.forkedLinear,World.included.node World.forkedBranch]
    let order : HashOrder (Σ _ : Asset, I128) := ⟨id,fun _ => .refl _⟩
    let msgs := returned (Machine.outputs tick p nodes)
    World.included.SameTransfers ∧
    Machine.Guarded tick
      (fun q s => World.included.Serves s ∧ q.tracker.Reconnects q.startBlock s) p nodes ∧
    msgs = [.confirmed ⟨9,1,2,70,2,7,0⟩,
      .reorged ((World.forkedLinear.segment 2 4)),.confirmed ⟨9,1,2,70,3,7,0⟩] ∧
    (∀ x ∈ outcomes .fixed .checked order .numbered msgs, x = some (.ok ())) ∧
    (consumed .fixed .checked order .numbered msgs).store.balance (accountOf .fixed 2)
      (assetOf .fixed 9) = .ok 0 ∧
    received 2 9 (standingEvents msgs) - sent 2 9 (standingEvents msgs) = 70 :=
  ⟨World.included_sameTransfers,
    ⟨⟨⟨rfl,World.forked_linear.2⟩,by decide +kernel⟩,⟨⟨rfl,World.forked_branch.2⟩,by decide +kernel⟩,
      trivial⟩,
    by decide +kernel,by decide +kernel,by decide +kernel,by decide +kernel⟩

end Poller
end Fintrails
