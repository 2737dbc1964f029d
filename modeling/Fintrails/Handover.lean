import Fintrails.Finality
import Fintrails.RpcSource

/-! Backfilling up to a block, and going on live past it.  A backfill over a provider that may
fail returns every transfer of its range or none, and with a checkpoint at the range's end
the poller takes up where the backfill has ended. -/
namespace Fintrails

theorem Chain.segment_eq_filter (c : Chain) (first last : ℕ) : c.segment first last =
    ((Windows.interval first last).filter fun n => decide (n ≤ c.height)).map c.block := by
  have hall : ∀ {a b}, b ≤ c.height →
      (Windows.interval a b).filter (fun n => decide (n ≤ c.height)) = Windows.interval a b := by
    intro a b hb
    refine List.filter_eq_self.mpr fun n hn => decide_eq_true ?_
    rw [Windows.interval,List.mem_range'_1] at hn
    omega
  have hnone : ∀ {a b}, c.height < a →
      (Windows.interval a b).filter (fun n => decide (n ≤ c.height)) = [] := by
    intro a b ha
    refine List.filter_eq_nil_iff.mpr fun n hn => ?_
    rw [Windows.interval,List.mem_range'_1] at hn
    simpa using by omega
  by_cases hlast : last ≤ c.height
  · rw [hall hlast,segment,show min last c.height = last by omega]
    rfl
  · by_cases hfirst : first ≤ c.height+1
    · rw [← Windows.interval_append hfirst (by omega : c.height ≤ last),List.filter_append,
        hall (le_refl _),hnone (by omega),List.append_nil,segment,
        show min last c.height = c.height by omega]
      rfl
    · rw [hnone (by omega),segment,show min last c.height+1-first = 0 by omega]
      rfl

namespace Backfill

theorem Partitions.segments {ws : List (U64 × U64)} {first last maxSpan : U64}
    (h : Partitions ws first last maxSpan) (c : Chain) :
    (ws.flatMap fun w => c.segment w.1.toNat w.2.toNat) = c.segment first.toNat last.toNat := by
  simp only [c.segment_eq_filter]
  rw [← h.blocks,List.filter_flatMap,List.map_flatMap]

section Fetch

variable {decodeLog : LogData → Except String Transfer} {P : Type} [BlockProvider P] {limit : ℕ∞}
  {token : Address} {R : ℕ∞ → Node → P → Prop}

theorem fetchWindows_publishes (h : RpcBlockSource.Publishes decodeLog limit token R) {s : Node}
    (ws : List (U64 × U64)) (events : List ChainEvent) {k : ℕ∞} {p : P} (hp : R k s p) :
    (∃ e q, fetchWindows decodeLog token ws events p = (.error (.rpc e),q)) ∨
    ∃ q k', fetchWindows decodeLog token ws events p = (.ok (events ++
      (ws.flatMap fun w => s.chain.segment w.1.toNat w.2.toNat).flatMap s.events),q) ∧ R k' s q := by
  induction ws generalizing events k p with
  | nil => exact .inr ⟨p,k,by simp [fetchWindows],hp⟩
  | cons w ws ih =>
    have hanswer := h.getLogs w.1 w.2 _ _ _ hp
    rcases hlogs : Provider.getLogs (transferFilter token w.1 w.2) p with ⟨answer,q⟩
    rw [hlogs] at hanswer
    obtain ⟨⟨e,herror⟩,-⟩ | ⟨logs,hok,hdecoded,hnext⟩ := hanswer
    · obtain rfl : answer = .error e := herror
      exact .inl ⟨e,q,by simp only [fetchWindows,fetchTransfersWith,hlogs]⟩
    · obtain rfl : answer = .ok logs := hok
      have hfetch : fetchTransfersWith decodeLog token w.1 w.2 p =
          (.ok ((s.chain.segment w.1.toNat w.2.toNat).flatMap s.events),q) := by
        simp only [fetchTransfersWith,hlogs,hdecoded]
      have hrest := ih (events ++ (s.chain.segment w.1.toNat w.2.toNat).flatMap s.events) hnext
      rw [fetchWindows,hfetch]
      rwa [List.append_assoc,← List.flatMap_append] at hrest

/-- Whatever the span, and whatever failures the provider has: the backfill returns the transfers
of its whole range, or a failure. -/
theorem fetchTransfersChunked_publishes (h : RpcBlockSource.Publishes decodeLog limit token R)
    (build : Build) {s : Node} {k : ℕ∞} {p : P} (hp : R k s p) (first last maxSpan : U64) {fuel : ℕ}
    (hfuel : (last.toNat+1-first.toNat) ⌈/⌉ max maxSpan.toNat 1 < fuel) :
    (∃ e q, fetchTransfersChunked decodeLog build fuel token first last maxSpan p =
      .ok (.error (.rpc e),q)) ∨
    ∃ q k', fetchTransfersChunked decodeLog build fuel token first last maxSpan p =
      .ok (.ok ((s.chain.segment first.toNat last.toNat).flatMap s.events),q) ∧ R k' s q := by
  obtain ⟨ws,hws,hparts⟩ := blockWindows_partitions build first last maxSpan hfuel
  have hfetch := fetchWindows_publishes h ws [] hp
  rw [hparts.segments s.chain,List.nil_append] at hfetch
  rw [fetchTransfersChunked,hws]
  rcases hfetch with ⟨e,q,herror⟩ | ⟨q,k',hok,hnext⟩
  · exact .inl ⟨e,q,congrArg Except.ok herror⟩
  · exact .inr ⟨q,k',congrArg Except.ok hok,hnext⟩

end Fetch

section Connect

variable {Url P : Type} [Provider P] (decodeLog : LogData → Except String Transfer)

/-- The provider behind a URL. -/
def httpProvider (parse : String → Except String Url) (connectHttp : Url → P) (rpcUrl : String) :
    Except SourceError P := do
  let url ← (parse rpcUrl).mapError SourceError.invalidUrl
  return connectHttp url

def defaultMaxBlockSpan : U64 := 2000

def fetchTransfers (parse : String → Except String Url) (connectHttp : Url → P) (build : Build)
    (fuel : ℕ) (rpcUrl : String) (token : Address) (first last : U64) :
    Except Stop (Except SourceError (List ChainEvent)) :=
  match httpProvider parse connectHttp rpcUrl with
  | .error e => .ok (.error e)
  | .ok p =>
    (fetchTransfersChunked decodeLog build fuel token first last defaultMaxBlockSpan p).map Prod.fst

end Connect

end Backfill

theorem certain_segment {W : World} {s : Node} {c : Chain} {confirmations first last : ℕ}
    (hs : W.Serves s) (hburied : s.Buried confirmations c) (hdeep : last+confirmations ≤ s.head) :
    Certain W c first (last+1) (((s.chain.segment first last).flatMap s.events).map .confirmed) := by
  have hle := s.head_le
  have hsegment : s.chain.segment first last = s.chain.upTo first (last+1) := by
    rw [Chain.segment,Chain.upTo,show min last s.chain.height = last by omega]
  have hconfirmed : confirmedOf (((s.chain.segment first last).flatMap s.events).map .confirmed) =
      (s.chain.upTo first (last+1)).flatMap W.events := by
    rw [hsegment,hs.1]
    exact confirmedOf_map _
  refine Certain.buried ⟨hconfirmed,?_,?_,by simp⟩ hburied (by omega)
  · refine List.Pairwise.map _ (fun a b _ e _ orphaned hm => ?_)
      (List.pairwise_of_forall fun _ _ => trivial)
    cases hm
  · intro e he
    rw [hconfirmed] at he
    obtain ⟨x,hx,he⟩ := List.mem_flatMap.mp he
    obtain ⟨n,_,hn,rfl⟩ := Chain.mem_upTo.mp hx
    rw [W.events_number _ e he,s.chain.number_block n (by omega)]
    exact hn

namespace Poller

theorem lives_warm {W : World} {c : Chain} {confirmations window : ℕ} (h : confirmations < window)
    (startBlock : ℕ) (source : FailingNode) {xs : List Process} {later : List Node} {stored : ℕ}
    (hnodes : ∀ x ∈ xs, ∀ s ∈ Process.nodes x, W.Serves s ∧ s.Buried confirmations c)
    (hhistory : (xs.flatMap Process.nodes ++ later).Pairwise (Node.Succeeds confirmations))
    (hp : Resumable confirmations (some stored) (xs.flatMap Process.nodes ++ later))
    (hfloor : startBlock ≤ stored+1) :
    ∀ l ∈ lives confirmations window h startBlock source (some stored) xs,
      l.KeepsFloor startBlock := by
  induction xs generalizing stored with
  | nil => simp [lives]
  | cons x xs ih =>
    rw [List.flatMap_cons,List.append_assoc] at hhistory hp
    obtain ⟨_,-,hnext,hgrows,-⟩ :=
      life_certain h startBlock source (hnodes x (by simp)) hhistory hp
    obtain ⟨stored',hstored,hle⟩ := hgrows stored rfl
    rw [Option.mem_def] at hstored
    rw [lives_cons,hstored]
    rw [hstored] at hnext
    intro l hl
    rcases List.mem_cons.mp hl with rfl | hl
    · rw [Life.KeepsFloor,hstored]
      exact hfloor.trans (Nat.succ_le_succ hle)
    · exact ih (fun y hy => hnodes y (by simp [hy])) (List.pairwise_append.mp hhistory).2.1 hnext
        (by omega) l hl

/-- A range that is deep enough is backfilled, and processes go on from a checkpoint at its end,
over chains that never lose a block as deep as the confirmation depth.  The backfill fails, or
what it returned and what the processes confirm behind it are together the chain from the
first block of the range up to the height that is left persisted, in order and each transfer
once, and all of it stands. -/
theorem handover {decodeLog : LogData → Except String Transfer} {P : Type} [BlockProvider P]
    {limit : ℕ∞} {token : Address} {R : ℕ∞ → Node → P → Prop}
    (hR : RpcBlockSource.Publishes decodeLog limit token R) (build : Build) (provider : P)
    (W : World) (s tip : Node) (hs : W.Serves s) (hp : R limit s provider) (first last maxSpan : U64)
    (fuel : ℕ) (hfuel : (last.toNat+1-first.toNat) ⌈/⌉ max maxSpan.toNat 1 < fuel)
    (hrange : first ≤ last) (confirmations window : ℕ) (h : confirmations < window)
    (hdeep : last.toNat+confirmations ≤ s.head) (source : FailingNode) (xs : List Process)
    (hnodes : ∀ x ∈ xs, ∀ r ∈ Process.nodes x, W.Serves r)
    (hhistory : (s :: xs.flatMap Process.nodes ++ [tip]).Pairwise (Node.Succeeds confirmations)) :
    (∃ e p, Backfill.fetchTransfersChunked decodeLog build fuel token first last maxSpan provider =
      .ok (.error (.rpc e),p)) ∨
    ∃ backfilled p,
      Backfill.fetchTransfersChunked decodeLog build fuel token first last maxSpan provider =
        .ok (.ok backfilled,p) ∧
      ∃ unread, Unread (lives confirmations window h first.toNat source (some last.toNat) xs) unread ∧
        let all := backfilled.map IndexerMessage.confirmed ++
          restored (lives confirmations window h first.toNat source (some last.toNat) xs) unread
        confirmedOf all = (tip.chain.upTo first.toNat (effectiveStart first.toNat
          (leaves confirmations window h first.toNat source (some last.toNat) xs))).flatMap W.events ∧
        standingEvents all = confirmedOf all := by
  have hlow := BitVec.le_def.mp hrange
  obtain ⟨hfirst,hrest⟩ := List.pairwise_cons.mp hhistory
  obtain ⟨-,-,hlast⟩ := List.pairwise_append.mp hrest
  have hlater : ∀ x ∈ xs, ∀ r ∈ Process.nodes x, r ∈ xs.flatMap Process.nodes :=
    fun x hx r hr => List.mem_flatMap.mpr ⟨x,hx,hr⟩
  have hheads : ∀ r ∈ xs.flatMap Process.nodes ++ [tip], last.toNat+confirmations ≤ r.head :=
    fun r hr => hdeep.trans (hfirst r hr).1
  have hheight := s.chain.height_lt
  have hhead := s.head_le
  have hwarm : effectiveStart first.toNat (some last.toNat) = last.toNat+1 := rfl
  obtain hfail | ⟨p,_,hfetch,-⟩ :=
    Backfill.fetchTransfersChunked_publishes hR build hp first last maxSpan hfuel
  · exact .inl hfail
  · right
    refine ⟨_,p,hfetch,?_⟩
    have hresumable : Resumable confirmations (some last.toNat)
        (xs.flatMap Process.nodes ++ [tip]) := by
      refine ⟨?_,?_⟩
      · intro stored hstored
        rw [← Option.some.inj hstored]
        omega
      · intro stored hstored r hr
        rw [← Option.some.inj hstored]
        exact hheads r hr
    have hburied : ∀ x ∈ xs, ∀ r ∈ Process.nodes x, W.Serves r ∧ r.Buried confirmations tip.chain :=
      fun x hx r hr => ⟨hnodes x hx r hr,(hlast r (hlater x hx r hr) tip (by simp)).2⟩
    have hfloor := lives_warm h first.toNat source hburied hrest hresumable (by omega)
    obtain ⟨unread,hunread,hgrown,-,hcertain⟩ := lives_certain h source hburied hrest hfloor hresumable
    rw [hwarm] at hgrown hcertain
    have hbackfilled := @certain_segment _ _ _ _ first.toNat _ hs (hfirst tip (by simp)).2 hdeep
    have hall := hbackfilled.append (by rwa [max_eq_right (by omega)])
      (hgrown.trans (le_max_right _ _))
    exact ⟨unread,hunread,hall.confirmed,standingEvents_of_unretracted hall.unretracted⟩

/-- Blocks 0 and 1 are backfilled one by one, and processes go on over a chain that is replaced
from block 2 on. -/
theorem handover_replaced :
    ∃ (backfilled : List ChainEvent) (unread : List (List IndexerMessage)),
      confirmedOf (backfilled.map IndexerMessage.confirmed ++ restored (lives 3 5 (by decide) 0
          ⟨World.forked.node World.forkedLinear,0⟩ (some 1) replacements) unread) =
        (World.forkedBranch.upTo 0 (effectiveStart 0 (leaves 3 5 (by decide) 0
          ⟨World.forked.node World.forkedLinear,0⟩ (some 1) replacements))).flatMap
          World.forked.events := by
  let s := World.forked.node World.forkedLinear
  let provider : Gateway := ⟨s,Gateway.busyLogs,0,fun _ => 0⟩
  have hfronts : Gateway.Fronts Transfer.decodeLog 5 0 5 s provider :=
    ⟨rfl,by simp [provider],by simp [provider],(Gateway.stuttering_fronts rfl).logs⟩
  have hok : ((Backfill.fetchTransfersChunked Transfer.decodeLog .checked 3 0 0 1 1
      provider).toOption.map fun r => r.1.toOption.isSome) = some true := by decide +kernel
  rcases handover (Gateway.publishes Transfer.decodeLog 5 0) .checked provider World.forked s
    (World.forked.node World.forkedBranch) World.forked_linear hfronts 0 1 1 3 (by decide +kernel)
    (by decide) 3 5 (by decide) (by decide) ⟨s,0⟩ replacements replacements_serve
    (by decide +kernel) with ⟨e,p,herror⟩ | ⟨backfilled,p,_,unread,_,hconfirmed,_⟩
  · rw [herror] at hok
    cases hok
  · exact ⟨backfilled,unread,hconfirmed⟩

end Poller
end Fintrails
