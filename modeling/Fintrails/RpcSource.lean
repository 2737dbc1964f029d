import Fintrails.Backfill
import Fintrails.Unreliable
import Fintrails.World

/-! The block source over a JSON-RPC provider, and the stack that runs against a live node:
the poller over retries over this source.  A provider that answers for a node, when it
answers, makes the stack do what the poller does over the node itself, or give up. -/
namespace Fintrails

open Retry

structure Header where
  number : U64
  hash : B256
  parentHash : B256
  deriving DecidableEq, Repr

/-- A provider that serves blocks too.  The block it returns for a number carries that number;
`none` is a block it does not have. -/
class BlockProvider (P : Type) extends Provider P where
  getBlockNumber : P → Except String U64 × P
  getBlockByNumber : (number : U64) → P → Except String (Option { h : Header // h.number = number }) × P

/-- The source that asks a provider for blocks, and for the transfers of one token. -/
structure RpcBlockSource (decodeLog : LogData → Except String Transfer) (P : Type) where
  provider : P
  token : Address

def Header.blockRef (h : Header) : BlockRef := ⟨h.number.toNat,h.hash,h.parentHash⟩

namespace RpcBlockSource

variable {decodeLog : LogData → Except String Transfer} {P : Type} [BlockProvider P]

/-- The model counts blocks in `ℕ`; no caller has a number that does not fit. -/
def toU64 (n : ℕ) : U64 := .ofNat 64 (min n (2^64-1))

theorem toNat_toU64 (n : ℕ) : (toU64 n).toNat = min n (2^64-1) := by
  rw [toU64,BitVec.toNat_ofNat]
  exact Nat.mod_eq_of_lt (by omega)

theorem number_header {n : ℕ} (hn : n < 2^64) (header : { h : Header // h.number = toU64 n }) :
    header.val.blockRef.number = n := by
  have hnum : header.val.blockRef.number = (toU64 n).toNat := congrArg BitVec.toNat header.property
  rw [hnum,toNat_toU64]
  omega

def ask {α : Type} (call : P → Except String α × P) (s : RpcBlockSource decodeLog P) :
    Except SourceError α × RpcBlockSource decodeLog P :=
  ((call s.provider).1.mapError .rpc,⟨(call s.provider).2,s.token⟩)

def headNumber (s : RpcBlockSource decodeLog P) :
    Except SourceError ℕ × RpcBlockSource decodeLog P :=
  match ask BlockProvider.getBlockNumber s with
  | (.error e,s) => (.error e,s)
  | (.ok n,s) => (.ok n.toNat,s)

def blockRef (number : ℕ) (s : RpcBlockSource decodeLog P) :
    Except SourceError (BlockAt number) × RpcBlockSource decodeLog P :=
  match ask (BlockProvider.getBlockByNumber (toU64 number)) s with
  | (.error e,s) => (.error e,s)
  | (.ok none,s) => (.error (.incompleteLog "block"),s)
  | (.ok (some header),s) =>
    if h : number < 2^64 then (.ok ⟨header.val.blockRef,number_header h header⟩,s)
    else (.error (.incompleteLog "block"),s)

def transfers (first last : ℕ) (s : RpcBlockSource decodeLog P) :
    Except SourceError (List ChainEvent) × RpcBlockSource decodeLog P :=
  match Backfill.fetchTransfersWith decodeLog s.token (toU64 first) (toU64 last) s.provider with
  | (answer,p) => (answer,⟨p,s.token⟩)

instance : BlockSource (RpcBlockSource decodeLog P) where
  headNumber := headNumber
  blockRef := blockRef
  transfers := transfers

/-- A request fails and moves nothing, or its answer is one that `Answer` admits: it may fail
`k` times before this answer, and `limit` times before each to come. -/
def Serves {α : Type} (limit : ℕ∞) (R : ℕ∞ → Node → P → Prop) (call : P → Except String α × P)
    (Answer : Node → α → Prop) : Prop :=
  ∀ k s p, R k s p → ((∃ e, (call p).1 = .error e) ∧ ∃ j, j+1 ≤ k ∧ R j s (call p).2) ∨
    ∃ a, (call p).1 = .ok a ∧ Answer s a ∧ R limit s (call p).2

variable (decodeLog) in
/-- Whenever the provider answers, it answers for the node it stands for.  `R k` says which one
that is, and that the outage the provider is in lasts for `k` requests at most. -/
structure Publishes (limit : ℕ∞) (token : Address) (R : ℕ∞ → Node → P → Prop) : Prop where
  getBlockNumber : Serves limit R BlockProvider.getBlockNumber fun s n => n.toNat = s.head
  getBlockByNumber : ∀ n, Serves limit R (BlockProvider.getBlockByNumber n) fun s header =>
    header.map (fun h => h.val.blockRef) =
      if n.toNat ≤ s.chain.height then some (s.chain.block n.toNat) else none
  getLogs : ∀ first last, Serves limit R
    (Provider.getLogs (Backfill.transferFilter token first last)) fun s logs =>
      logs.mapM (Backfill.logToEvent decodeLog) =
        .ok ((s.chain.segment first.toNat last.toNat).flatMap s.events)

/-- The source stands for the node its provider stands for. -/
def StandsFor (token : Address) (R : ℕ∞ → Node → P → Prop) (k : ℕ∞) (s : Node)
    (rpc : RpcBlockSource decodeLog P) : Prop :=
  rpc.token = token ∧ R k s rpc.provider

variable {limit : ℕ∞} {token : Address} {R : ℕ∞ → Node → P → Prop}

theorem falters_headNumber (h : Publishes decodeLog limit token R) :
    FaltersWithin limit (@StandsFor decodeLog P token R) BlockSource.headNumber
      BlockSource.headNumber := by
  rintro k s ⟨p,_⟩ ⟨rfl,hp⟩
  obtain ⟨⟨e,herror⟩,j,hj,hnext⟩ | ⟨n,hok,hn,hnext⟩ := h.getBlockNumber _ _ _ hp
  · left
    simp only [BlockSource.headNumber,headNumber,ask,herror,Except.mapError]
    exact ⟨⟨e,rfl⟩,j,hj,rfl,hnext⟩
  · right
    simp only [BlockSource.headNumber,headNumber,ask,hok,Except.mapError,hn]
    exact ⟨trivial,rfl,hnext⟩

theorem falters_blockRef (h : Publishes decodeLog limit token R) (n : ℕ) :
    FaltersWithin limit (@StandsFor decodeLog P token R) (BlockSource.blockRef n)
      (BlockSource.blockRef n) := by
  rintro k s ⟨p,_⟩ ⟨rfl,hp⟩
  have hheight := s.chain.height_lt
  have hnum := toNat_toU64 n
  obtain ⟨⟨e,herror⟩,j,hj,hnext⟩ | ⟨header,hok,hheader,hnext⟩ := h.getBlockByNumber (toU64 n) _ _ _ hp
  · left
    simp only [BlockSource.blockRef,blockRef,ask,herror,Except.mapError]
    exact ⟨⟨e,rfl⟩,j,hj,rfl,hnext⟩
  · right
    by_cases hn : n ≤ s.chain.height
    · rw [if_pos (by omega),show (toU64 n).toNat = n by omega] at hheader
      obtain ⟨header,rfl,hblock⟩ := Option.map_eq_some_iff.mp hheader
      simp only [BlockSource.blockRef,blockRef,ask,hok,Except.mapError,hn,dite_true,
        show n < 2^64 by omega,hblock]
      exact ⟨trivial,rfl,hnext⟩
    · rw [if_neg (by omega),Option.map_eq_none_iff] at hheader
      subst hheader
      simp only [BlockSource.blockRef,blockRef,ask,hok,Except.mapError,hn,dite_false]
      exact ⟨trivial,rfl,hnext⟩

theorem falters_transfers (h : Publishes decodeLog limit token R) (first last : ℕ) :
    FaltersWithin limit (@StandsFor decodeLog P token R) (BlockSource.transfers first last)
      (BlockSource.transfers first last) := by
  rintro k s ⟨p,_⟩ ⟨rfl,hp⟩
  have hheight := s.chain.height_lt
  have hsegment : s.chain.segment (toU64 first).toNat (toU64 last).toNat =
      s.chain.segment first last := by
    rw [toNat_toU64,toNat_toU64]
    by_cases hfirst : first ≤ s.chain.height
    · simp only [Chain.segment,show min first (2^64-1) = first by omega,
        show min (min last (2^64-1)) s.chain.height = min last s.chain.height by omega]
    · simp only [Chain.segment,
        show min (min last (2^64-1)) s.chain.height+1-min first (2^64-1) = 0 by omega,
        show min last s.chain.height+1-first = 0 by omega,List.range'_zero,List.map_nil]
  have hanswer := h.getLogs (toU64 first) (toU64 last) _ _ _ hp
  rcases hlogs : Provider.getLogs (Backfill.transferFilter _ (toU64 first) (toU64 last)) p
    with ⟨answer,q⟩
  rw [hlogs] at hanswer
  obtain ⟨⟨e,herror⟩,j,hj,hnext⟩ | ⟨logs,hok,hdecoded,hnext⟩ := hanswer
  · left
    obtain rfl : answer = .error e := herror
    simp only [BlockSource.transfers,transfers,Backfill.fetchTransfersWith,hlogs]
    exact ⟨⟨e,rfl⟩,j,hj,rfl,hnext⟩
  · right
    obtain rfl : answer = .ok logs := hok
    simp only [BlockSource.transfers,transfers,Backfill.fetchTransfersWith,hlogs,hdecoded,hsegment]
    exact ⟨trivial,rfl,hnext⟩

theorem unreliable_rpc (h : Publishes decodeLog limit token R) :
    UnreliableWithin limit (@StandsFor decodeLog P token R) where
  headNumber := falters_headNumber h
  blockRef := falters_blockRef h
  transfers := falters_transfers h

end RpcBlockSource

namespace Poller

variable {C P : Type} [BlockProvider P] {decodeLog : LogData → Except String Transfer}

/-- The stack that runs against a live node. -/
abbrev Live (decodeLog : LogData → Except String Transfer) (P C : Type) :=
  Poller (RetryingSource (RpcBlockSource decodeLog P)) C

def live (p : Poller Node C) (policy : RetryPolicy) (token : Address) (provider : P) :
    Live decodeLog P C :=
  p.withSource ⟨⟨provider,token⟩,policy⟩

def becomes (provider : P) (source : RetryingSource (RpcBlockSource decodeLog P)) :
    RetryingSource (RpcBlockSource decodeLog P) :=
  ⟨⟨provider,source.inner.token⟩,source.policy⟩

/-- Against a provider that stands for a node, which may reorganise while the loop sleeps, `run`
comes to what it comes to over the node itself, with the same effects; unless an outage
outlasts the retries, and then it has had some of these effects, in order, and returns
the failure. -/
theorem live_run [Checkpoint C] {limit : ℕ∞} {token : Address} {R : ℕ∞ → Node → P → Prop}
    (h : RpcBlockSource.Publishes decodeLog limit token R) (policy : RetryPolicy)
    (p : Poller Node C) (provider : P) (hp : R limit p.source provider) (moves : List (Node × P))
    (hmoves : ∀ m ∈ moves, R limit m.1 m.2) (rx : Receiver) :
    ((policy.maxRetries.toNat : ℕ∞) < limit ∧ ∃ message q,
      (run (moves.map fun m => becomes m.2) rx).run
          (p.live policy token provider : Live decodeLog P C) =
        .error (.source (.rpc message)) q ∧
      q.effects <+: (ended ((run (moves.map fun m _ => m.1) rx).run p)).2.effects) ∨
    ∃ source, (ended ((run (moves.map fun m => becomes m.2) rx).run
          (p.live policy token provider : Live decodeLog P C))).1 =
        (ended ((run (moves.map fun m _ => m.1) rx).run p)).1 ∧
      (ended ((run (moves.map fun m => becomes m.2) rx).run
          (p.live policy token provider : Live decodeLog P C))).2 =
        (ended ((run (moves.map fun m _ => m.1) rx).run p)).2.withSource source := by
  have hstack := RetryingSource.unreliable_retrying node_steadfast
    (RpcBlockSource.unreliable_rpc h) policy
  have hbeside : Beside (RetryingSource.Retried policy limit (RpcBlockSource.StandsFor token R)) p
      (p.live policy token provider : Live decodeLog P C) := ⟨_,rfl,rfl,limit,le_rfl,rfl,hp⟩
  have hrun := run_unreliable hstack hbeside
    (moves.map fun m => ((fun _ => m.1),becomes m.2)) (by
      intro x hx s source hs
      obtain ⟨m,hm,rfl⟩ := List.mem_map.mp hx
      obtain ⟨hpolicy,k,_,htoken,_⟩ := hs
      exact ⟨hpolicy,limit,le_rfl,htoken,hmoves m hm⟩) rx
  rw [List.map_map,List.map_map] at hrun
  rcases hrun with hout | hagrees
  · exact .inl hout
  · exact .inr hagrees.ended

end Poller

/-- A provider in front of a node: it fails `pending` times before the next answer and `later n`
times before the one that comes `n` answers after that. -/
structure Gateway where
  node : Node
  logs : BlockRef → List Log
  pending : ℕ
  later : ℕ → ℕ

namespace Gateway

def serve {α : Type} (answer : Gateway → α) (g : Gateway) : Except String α × Gateway :=
  match g.pending with
  | 0 => (.ok (answer g),⟨g.node,g.logs,g.later 0,fun n => g.later (n+1)⟩)
  | pending+1 => (.error "unavailable",⟨g.node,g.logs,pending,g.later⟩)

def Matches (filter : Filter) (log : Log) : Prop :=
  log.inner.address = filter.address ∧ log.inner.topics.head? = some filter.eventSignature

instance matchesDecidable (filter : Filter) (log : Log) : Decidable (Matches filter log) :=
  inferInstanceAs (Decidable (_ ∧ _))

def matching (filter : Filter) (g : Gateway) : List Log :=
  ((g.node.chain.segment filter.fromBlock.toNat filter.toBlock.toNat).flatMap g.logs).filter
    fun log => decide (Matches filter log)

def head (g : Gateway) : U64 := .ofNat 64 g.node.head

def header (n : U64) (g : Gateway) : Option { h : Header // h.number = n } :=
  if n.toNat ≤ g.node.chain.height then
    some ⟨⟨n,(g.node.chain.block n.toNat).hash,(g.node.chain.block n.toNat).parentHash⟩,rfl⟩
  else none

instance : BlockProvider Gateway where
  getLogs filter := serve (matching filter)
  getBlockNumber := serve head
  getBlockByNumber n := serve (header n)

/-- The gateway fronts the node, and the logs of its blocks that match decode to their events. -/
structure Fronts (decodeLog : LogData → Except String Transfer) (limit : ℕ∞) (token : Address)
    (k : ℕ∞) (s : Node) (g : Gateway) : Prop where
  node : g.node = s
  pending : (g.pending : ℕ∞) ≤ k
  later : ∀ n, (g.later n : ℕ∞) ≤ limit
  logs : ∀ n ≤ s.chain.height, ((g.logs (s.chain.block n)).filter fun log =>
      decide (Matches (Backfill.transferFilter token 0 0) log)).mapM
        (Backfill.logToEvent decodeLog) = .ok (s.events (s.chain.block n))

variable {decodeLog : LogData → Except String Transfer} {limit : ℕ∞} {token : Address}

theorem serves {α : Type} {answer : Gateway → α} {Answer : Node → α → Prop}
    (h : ∀ k s g, Fronts decodeLog limit token k s g → Answer s (answer g)) :
    RpcBlockSource.Serves limit (Fronts decodeLog limit token) (serve answer) Answer := by
  rintro k s ⟨node,logs,pending,later⟩ hg
  have hanswer := h _ _ _ hg
  obtain ⟨hnode,hpending,hlater,hlogs⟩ := hg
  cases pending with
  | zero => exact .inr ⟨_,rfl,hanswer,hnode,hlater 0,fun n => hlater (n+1),hlogs⟩
  | succ pending =>
    refine .inl ⟨⟨_,rfl⟩,pending,?_,hnode,le_rfl,hlater,hlogs⟩
    exact_mod_cast hpending

theorem mapM_flatMap {f : Log → Except SourceError ChainEvent} {logs : BlockRef → List Log}
    {events : BlockRef → List ChainEvent} {bs : List BlockRef}
    (h : ∀ b ∈ bs, (logs b).mapM f = .ok (events b)) :
    (bs.flatMap logs).mapM f = .ok (bs.flatMap events) := by
  induction bs with
  | nil => rfl
  | cons b bs ih =>
    rw [List.flatMap_cons,List.mapM_append,h b (by simp),ih fun b hb => h b (by simp [hb])]
    rfl

theorem publishes (decodeLog : LogData → Except String Transfer) (limit : ℕ∞) (token : Address) :
    RpcBlockSource.Publishes decodeLog limit token (Fronts decodeLog limit token) where
  getBlockNumber := by
    refine serves fun k s g hg => ?_
    have hheight := s.chain.height_lt
    have hhead := s.head_le
    rw [head,hg.node,BitVec.toNat_ofNat]
    exact Nat.mod_eq_of_lt (by omega)
  getBlockByNumber n := by
    refine serves fun k s g hg => ?_
    obtain rfl := hg.node
    by_cases hn : n.toNat ≤ g.node.chain.height
    · have hnum := g.node.chain.number_block _ hn
      simp only [header,hn,if_true,Option.map_some,Header.blockRef]
      generalize g.node.chain.block n.toNat = b at hnum
      obtain ⟨number,hash,parentHash⟩ := b
      obtain rfl : number = n.toNat := hnum
      rfl
    · simp only [header,hn,if_false,Option.map_none]
  getLogs first last := by
    refine serves fun k s g hg => ?_
    obtain rfl := hg.node
    rw [matching,List.filter_flatMap]
    refine mapM_flatMap fun b hb => ?_
    obtain ⟨n,_,_,hn,rfl⟩ := Chain.mem_segment.mp hb
    exact hg.logs n hn

def busyLogs (b : BlockRef) : List Log :=
  [⟨⟨0,[Transfer.signatureHash,0,0],List.replicate 31 0 ++ [1]⟩,some (.ofNat 64 b.number),
      some b.hash,some 0⟩,
    ⟨⟨7,[Transfer.signatureHash,0,0],List.replicate 32 0⟩,some (.ofNat 64 b.number),some b.hash,some 1⟩]

def stuttering (s : Node) : Gateway := ⟨s,busyLogs,5,fun _ => 5⟩

theorem stuttering_fronts {s : Node} (h : s.events = World.linear.events) :
    Fronts Transfer.decodeLog 5 0 5 s (stuttering s) where
  node := rfl
  pending := le_rfl
  later _ := le_rfl
  logs n hn := by
    have hheight := s.chain.height_lt
    have hnum := s.chain.number_block n hn
    have hmatches : (busyLogs (s.chain.block n)).filter (fun log =>
        decide (Matches (Backfill.transferFilter 0 0 0) log)) = (busyLogs (s.chain.block n)).take 1 := by
      simp [busyLogs,Matches,Backfill.transferFilter]
    have hdecoded : Transfer.decodeLog ⟨0,[Transfer.signatureHash,0,0],List.replicate 31 0 ++ [1]⟩ =
        .ok ⟨0,0,1⟩ := by decide +kernel
    have hfits : (BitVec.ofNat 64 (s.chain.block n).number).toNat = (s.chain.block n).number := by
      rw [BitVec.toNat_ofNat]
      exact Nat.mod_eq_of_lt (by omega)
    rw [h,show (stuttering s).logs = busyLogs from rfl,hmatches]
    have hevent : ∀ b : BlockRef, Backfill.logToEvent Transfer.decodeLog
        ⟨⟨0,[Transfer.signatureHash,0,0],List.replicate 31 0 ++ [1]⟩,some (.ofNat 64 b.number),
          some b.hash,some 0⟩ = .ok ⟨0,0,0,1,(BitVec.ofNat 64 b.number).toNat,b.hash,0⟩ := by
      intro b
      rw [Backfill.logToEvent,hdecoded]
      rfl
    simp only [busyLogs,List.take_succ_cons,List.take_zero,List.mapM_cons,List.mapM_nil,hevent,hfits]
    rfl

end Gateway

theorem Poller.live_run_gateway :
    ∃ source, (ended ((run [becomes (Gateway.stuttering (World.forked.node World.forkedLinear)),
          becomes (Gateway.stuttering (World.forked.node World.forkedBranch))] ⟨none⟩).run
        ((cold (World.forked.node World.forkedLinear) 1 3 (by decide) 0).live default 0
          (Gateway.stuttering (World.forked.node World.forkedLinear)) :
            Live Transfer.decodeLog Gateway InMemoryCheckpoint))).2 =
      (ended ((run [fun _ => World.forked.node World.forkedLinear,
          fun _ => World.forked.node World.forkedBranch] ⟨none⟩).run
        (cold (World.forked.node World.forkedLinear) 1 3 (by decide) 0))).2.withSource source := by
  have hlinear := Gateway.stuttering_fronts (s:=World.forked.node World.forkedLinear) rfl
  have hbranch := Gateway.stuttering_fronts (s:=World.forked.node World.forkedBranch) rfl
  have hmoves : ∀ m ∈ [(World.forked.node World.forkedLinear,
        Gateway.stuttering (World.forked.node World.forkedLinear)),
      (World.forked.node World.forkedBranch,
        Gateway.stuttering (World.forked.node World.forkedBranch))],
      Gateway.Fronts Transfer.decodeLog 5 0 5 m.1 m.2 := by
    intro m hm
    simp only [List.mem_cons,List.not_mem_nil,or_false] at hm
    rcases hm with rfl | rfl
    · exact hlinear
    · exact hbranch
  rcases live_run (Gateway.publishes Transfer.decodeLog 5 0) default
    (cold (World.forked.node World.forkedLinear) 1 3 (by decide) 0) _ hlinear _ hmoves ⟨none⟩ with
    ⟨hout,_⟩ | ⟨source,_,hsame⟩
  · exact absurd hout (lt_irrefl 5)
  · exact ⟨source,hsame⟩

end Fintrails
