import Fintrails.Source
import Fintrails.Unsigned
import Fintrails.Windows

/-! Backfilling transfers over a range of blocks, one request a window.  However the range
is cut, the result is that of a single request for all of it. -/
namespace Fintrails

abbrev U64 := BitVec 64

structure Transfer where
  sender : Address
  receiver : Address
  value : U256
  deriving DecidableEq, Repr

/-- The hash of `Transfer(address,address,uint256)`. -/
def Transfer.signatureHash : B256 :=
  0xddf252ad1be2c89b69c2b068fc378daa952ba7f163c4a11628f55a4df523b3ef

structure LogData where
  address : Address
  topics : List B256
  data : List (BitVec 8)
  deriving DecidableEq, Repr

/-- What the log of a `Transfer` says: two addresses among the topics, and the first word of the
data. -/
def Transfer.decodeLog (log : LogData) : Except String Transfer :=
  match log.topics with
  | [signature,sender,receiver] =>
    if signature = Transfer.signatureHash ∧ 32 ≤ log.data.length then
      .ok ⟨sender.setWidth 160,receiver.setWidth 160,
        (log.data.take 32).foldl (fun value byte => value <<< 8 ||| byte.setWidth 256) 0⟩
    else .error "signature or data"
  | _ => .error "topics"

structure Log where
  inner : LogData
  blockNumber : Option U64
  transactionHash : Option B256
  logIndex : Option U64
  deriving DecidableEq, Repr

structure Filter where
  address : Address
  eventSignature : B256
  fromBlock : U64
  toBlock : U64
  deriving DecidableEq, Repr

/-- A JSON-RPC provider.  A request that fails gives the transport's message. -/
class Provider (P : Type) where
  getLogs : Filter → P → Except String (List Log) × P

namespace Backfill

/-- Why a loop has no result: a panic, or more iterations than it was given. -/
inductive Stop
  | overflow
  | running
  deriving DecidableEq, Repr

section Loop

variable (build : Build)

/-- The loop of `blockWindows`, for `fuel` iterations at most. -/
def windowLoop (span last : U64) :
    (fuel : ℕ) → U64 → List (U64 × U64) → Except Stop (List (U64 × U64))
  | 0, _, _ => .error .running
  | fuel+1, start, windows =>
    if start ≤ last then
      match Unsigned.sub build span 1 with
      | none => .error .overflow
      | some width =>
        let stop := Unsigned.min (Unsigned.saturatingAdd start width) last
        -- Leaving here keeps `stop + 1` from overflowing at the last block there is.
        if stop = last then .ok (windows ++ [(start,stop)])
        else
          match Unsigned.add build stop 1 with
          | none => .error .overflow
          | some next => windowLoop span last fuel next (windows ++ [(start,stop)])
    else .ok windows

/-- Consecutive windows of at most `maxSpan` blocks, a span of zero counting as one. -/
def blockWindows (fuel : ℕ) (first last maxSpan : U64) : Except Stop (List (U64 × U64)) :=
  windowLoop build (Unsigned.max maxSpan 1) last fuel first []

end Loop

section Fetch

variable {P : Type} [Provider P] (decodeLog : LogData → Except String Transfer)

def require {α : Type} (field : String) : Option α → Except SourceError α
  | some a => .ok a
  | none => .error (.incompleteLog field)

def logToEvent (log : Log) : Except SourceError ChainEvent := do
  let decoded ← (decodeLog log.inner).mapError SourceError.decode
  let blockNumber ← require "block_number" log.blockNumber
  let txHash ← require "tx_hash" log.transactionHash
  let logIndex ← require "log_index" log.logIndex
  return ⟨log.inner.address,decoded.sender,decoded.receiver,decoded.value,blockNumber.toNat,txHash,
    logIndex.toNat⟩

def transferFilter (token : Address) (first last : U64) : Filter :=
  ⟨token,Transfer.signatureHash,first,last⟩

def fetchTransfersWith (token : Address) (first last : U64) (p : P) :
    Except SourceError (List ChainEvent) × P :=
  match Provider.getLogs (transferFilter token first last) p with
  | (.error e,p) => (.error (.rpc e),p)
  | (.ok logs,p) => (logs.mapM (logToEvent decodeLog),p)

def fetchWindows (token : Address) :
    List (U64 × U64) → List ChainEvent → P → Except SourceError (List ChainEvent) × P
  | [], events, p => (.ok events,p)
  | w::ws, events, p =>
    match fetchTransfersWith decodeLog token w.1 w.2 p with
    | (.error e,p) => (.error e,p)
    | (.ok more,p) => fetchWindows token ws (events ++ more) p

def fetchTransfersChunked (build : Build) (fuel : ℕ) (token : Address)
    (first last maxSpan : U64) (p : P) : Except Stop (Except SourceError (List ChainEvent) × P) :=
  (blockWindows build fuel first last maxSpan).map fun ws => fetchWindows decodeLog token ws [] p

end Fetch

def bounds (w : U64 × U64) : ℕ × ℕ := (w.1.toNat,w.2.toNat)

theorem toNat_stop {span start last : U64} (hspan : 0 < span.toNat) :
    (Unsigned.min (Unsigned.saturatingAdd start (span-1)) last).toNat =
      min (start.toNat+(span.toNat-1)) last.toNat := by
  have hwidth := (Unsigned.sub_of_le .checked (a:=span) (b:=1) hspan).2
  have hone : (1 : U64).toNat = 1 := rfl
  have hlast := last.isLt
  rw [Unsigned.toNat_min,Unsigned.toNat_saturatingAdd,hwidth]
  omega

/-- In every build the loop returns, after one iteration a window and one more at most. -/
theorem windowLoop_eq (build : Build) {span last : U64} (hspan : 0 < span.toNat) {fuel : ℕ}
    {start : U64} (windows : List (U64 × U64))
    (hfuel : (Windows.windows span.toNat start.toNat last.toNat).length < fuel) :
    ∃ ws, windowLoop build span last fuel start windows = .ok (windows ++ ws) ∧
      ws.map bounds = Windows.windows span.toNat start.toNat last.toNat := by
  induction fuel generalizing start windows with
  | zero => omega
  | succ fuel ih =>
    by_cases hle : start ≤ last
    · have hsub := (Unsigned.sub_of_le build (a:=span) (b:=1) hspan).1
      have hcons := Windows.windows_cons hspan (BitVec.le_def.mp hle)
      have hlast := last.isLt
      have hnum := @toNat_stop span start last hspan
      obtain ⟨stop,hstop⟩ : ∃ stop, Unsigned.min (Unsigned.saturatingAdd start (span-1)) last = stop := ⟨_,rfl⟩
      rw [hstop] at hnum
      by_cases hend : stop = last
      · refine ⟨[(start,stop)],by simp only [windowLoop,hle,if_true,hsub,hstop,hend],?_⟩
        have hreach : last.toNat < start.toNat+span.toNat := by
          rw [hend] at hnum
          omega
        rw [hcons,Windows.windows_of_lt hreach,List.map_singleton,bounds,hnum]
      · have hne : stop.toNat ≠ last.toNat := fun h => hend (BitVec.toNat_inj.mp h)
        have hone : (1 : U64).toNat = 1 := rfl
        obtain ⟨hadd,hnext⟩ := Unsigned.add_of_lt build (a:=stop) (b:=1) (by omega)
        have hspot : (stop+1).toNat = start.toNat+span.toNat := by omega
        rw [hcons,List.length_cons] at hfuel
        obtain ⟨ws,hloop,hws⟩ := @ih (stop+1) (windows ++ [(start,stop)]) (by rw [hspot]; omega)
        refine ⟨(start,stop)::ws,?_,?_⟩
        · simp only [windowLoop,hle,if_true,hsub,hstop,hend,if_false,hadd,hloop,List.append_assoc,
            List.singleton_append]
        · rw [hcons,List.map_cons,hws,hspot,bounds,hnum]
    · refine ⟨[],by rw [windowLoop,if_neg hle,List.append_nil],?_⟩
      rw [BitVec.le_def] at hle
      rw [Windows.windows_of_lt (by omega),List.map_nil]

structure Recorder (P : Type) where
  provider : P
  requests : List Filter

instance {P : Type} [Provider P] : Provider (Recorder P) where
  getLogs filter r := ((Provider.getLogs filter r.provider).1,
    ⟨(Provider.getLogs filter r.provider).2,r.requests ++ [filter]⟩)

def Serves (P : Type) [Provider P] (token : Address) (logs : ℕ → List Log) : Prop :=
  ∀ first last : U64, first ≤ last → ∀ p : P, (Provider.getLogs (transferFilter token first last) p).1 =
    .ok ((Windows.interval first.toNat last.toNat).flatMap logs)

structure Archive (logs : ℕ → List Log) where

instance (logs : ℕ → List Log) : Provider (Archive logs) where
  getLogs filter p :=
    (.ok ((Windows.interval filter.fromBlock.toNat filter.toBlock.toNat).flatMap logs),p)

section Fetch

variable (decodeLog : LogData → Except String Transfer) (token : Address) (logs : ℕ → List Log)

def windowFilter (w : U64 × U64) : Filter := transferFilter token w.1 w.2

/-- The events of some blocks, or the error of the first log that does not decode. -/
def eventsOf (blocks : List ℕ) : Except SourceError (List ChainEvent) :=
  (blocks.flatMap logs).mapM (logToEvent decodeLog)

def windowEvents (w : U64 × U64) : Except SourceError (List ChainEvent) :=
  eventsOf decodeLog logs (Windows.interval w.1.toNat w.2.toNat)

variable {decodeLog token logs} {P : Type} [Provider P]

theorem eventsOf_append (xs ys : List ℕ) : eventsOf decodeLog logs (xs++ys) =
    (eventsOf decodeLog logs xs).bind fun events =>
      (eventsOf decodeLog logs ys).map fun more => events++more := by
  rw [eventsOf,List.flatMap_append,List.mapM_append]
  rfl

theorem fetchTransfersWith_eq (h : Serves P token logs) {w : U64 × U64} (hle : w.1 ≤ w.2) (p : P) :
    (fetchTransfersWith decodeLog token w.1 w.2 p).1 = windowEvents decodeLog logs w := by
  simp only [fetchTransfersWith,windowEvents,eventsOf]
  rw [← Prod.mk.eta (p:=Provider.getLogs (transferFilter token w.1 w.2) p),h w.1 w.2 hle p]

theorem fetchTransfersWith_recorder (h : Serves P token logs) {w : U64 × U64} (hle : w.1 ≤ w.2)
    (r : Recorder P) : ∃ q : P, fetchTransfersWith decodeLog token w.1 w.2 r =
      (windowEvents decodeLog logs w,⟨q,r.requests ++ [windowFilter token w]⟩) := by
  refine ⟨(Provider.getLogs (transferFilter token w.1 w.2) r.provider).2,?_⟩
  simp only [fetchTransfersWith,windowEvents,eventsOf,windowFilter]
  simp only [Provider.getLogs]
  rw [h w.1 w.2 hle r.provider]

variable (decodeLog token logs) in
/-- What fetching window after window comes to: all were asked for, or the last that was
asked for is the first with a log that does not decode. -/
def Asked (ws : List (U64 × U64)) (requests : List Filter) :
    Except SourceError (List ChainEvent) → Prop
  | .ok _ => requests = ws.map (windowFilter token)
  | .error e => ∃ before w after, ws = before ++ w::after ∧
      requests = (before ++ [w]).map (windowFilter token) ∧
      (∀ v ∈ before, ∃ events, windowEvents decodeLog logs v = .ok events) ∧
      windowEvents decodeLog logs w = .error e

theorem Asked.cons {w : U64 × U64} {ws : List (U64 × U64)} {requests : List Filter}
    {result : Except SourceError (List ChainEvent)} {events : List ChainEvent}
    (hw : windowEvents decodeLog logs w = .ok events)
    (h : Asked decodeLog token logs ws requests result) :
    Asked decodeLog token logs (w::ws) (windowFilter token w::requests) result := by
  cases result with
  | ok more => exact congrArg (List.cons _) h
  | error e =>
    obtain ⟨before,v,after,rfl,rfl,hbefore,hv⟩ := h
    refine ⟨w::before,v,after,rfl,rfl,fun u hu => ?_,hv⟩
    rcases List.mem_cons.mp hu with rfl | hu
    · exact ⟨events,hw⟩
    · exact hbefore u hu

theorem fetchWindows_eq (h : Serves P token logs) (ws : List (U64 × U64))
    (hws : ∀ w ∈ ws, w.1 ≤ w.2) (events : List ChainEvent) (r : Recorder P) :
    (fetchWindows decodeLog token ws events r).1 =
      (eventsOf decodeLog logs (ws.flatMap fun w => Windows.interval w.1.toNat w.2.toNat)).map
        (events ++ ·) ∧
    ∃ requests, (fetchWindows decodeLog token ws events r).2.requests = r.requests ++ requests ∧
      Asked decodeLog token logs ws requests (fetchWindows decodeLog token ws events r).1 := by
  induction ws generalizing events r with
  | nil => exact ⟨congrArg Except.ok (List.append_nil events).symm,[],(List.append_nil _).symm,rfl⟩
  | cons w ws ih =>
    obtain ⟨q,hfetch⟩ := @fetchTransfersWith_recorder decodeLog token logs P _ h w (hws w (by simp)) r
    rw [List.flatMap_cons,eventsOf_append,← windowEvents,fetchWindows,hfetch]
    cases hw : windowEvents decodeLog logs w with
    | error e => exact ⟨rfl,[windowFilter token w],rfl,[],w,ws,rfl,rfl,by simp,hw⟩
    | ok more =>
      obtain ⟨hresult,requests,hrequests,hasked⟩ := ih (fun v hv => hws v (by simp [hv]))
        (events++more) ⟨q,r.requests ++ [windowFilter token w]⟩
      refine ⟨?_,windowFilter token w::requests,?_,hasked.cons hw⟩
      · simp only [hresult]
        cases eventsOf decodeLog logs (ws.flatMap fun w => Windows.interval w.1.toNat w.2.toNat) with
        | error e => rfl
        | ok rest => exact congrArg Except.ok (List.append_assoc _ _ _)
      · simp only [hrequests,List.append_assoc,List.singleton_append]

end Fetch

/-- `ws` cuts `first..=last` into as few windows of the span as there can be. -/
structure Partitions (ws : List (U64 × U64)) (first last maxSpan : U64) : Prop where
  count : ws.length = (last.toNat+1-first.toNat) ⌈/⌉ max maxSpan.toNat 1
  sizes : ∀ w ∈ ws, w.1 ≤ w.2 ∧ w.2.toNat+1-w.1.toNat ≤ max maxSpan.toNat 1
  blocks : (ws.flatMap fun w => Windows.interval w.1.toNat w.2.toNat) =
    Windows.interval first.toNat last.toNat

theorem blockWindows_partitions (build : Build) (first last maxSpan : U64) {fuel : ℕ}
    (hfuel : (last.toNat+1-first.toNat) ⌈/⌉ max maxSpan.toNat 1 < fuel) :
    ∃ ws, blockWindows build fuel first last maxSpan = .ok ws ∧ Partitions ws first last maxSpan := by
  have hmax : (Unsigned.max maxSpan 1).toNat = max maxSpan.toNat 1 := Unsigned.toNat_max maxSpan 1
  have hspan : 0 < max maxSpan.toNat 1 := by omega
  obtain ⟨ws,hloop,hws⟩ := @windowLoop_eq build (Unsigned.max maxSpan 1) last (by rwa [hmax]) fuel first []
    (by rwa [Windows.length_windows,hmax])
  rw [hmax] at hws
  refine ⟨ws,hloop,?_,?_,?_⟩
  · rw [← List.length_map (f:=bounds),hws,Windows.length_windows]
  · intro w hw
    have hmem := List.mem_map_of_mem (f:=bounds) hw
    rw [hws] at hmem
    exact Windows.size_of_mem hspan _ hmem
  · rw [← Windows.flatMap_windows hspan,← hws,List.flatMap_map]
    rfl

/-- However a range is cut, fetching it window by window terminates without an overflow and
gives what one request for all of it gives. -/
theorem chunked_eq_single (build : Build) (decodeLog : LogData → Except String Transfer)
    (token : Address) (logs : ℕ → List Log) (P : Type) [Provider P] (h : Serves P token logs)
    (first last maxSpan : U64) (fuel : ℕ)
    (hfuel : (last.toNat+1-first.toNat) ⌈/⌉ max maxSpan.toNat 1 < fuel) (p : P) :
    ∃ ws result r, blockWindows build fuel first last maxSpan = .ok ws ∧
      fetchTransfersChunked decodeLog build fuel token first last maxSpan (⟨p,[]⟩ : Recorder P) =
        .ok (result,r) ∧
      Partitions ws first last maxSpan ∧ Asked decodeLog token logs ws r.requests result ∧
      (first ≤ last → result = (fetchTransfersWith decodeLog token first last p).1) ∧
      (last < first → r.requests = [] ∧ result = .ok []) := by
  obtain ⟨ws,hws,hparts⟩ := blockWindows_partitions build first last maxSpan hfuel
  obtain ⟨hresult,requests,hrequests,hasked⟩ := @fetchWindows_eq decodeLog token logs P _ h ws
    (fun w hw => (hparts.sizes w hw).1) [] ⟨p,[]⟩
  rw [List.nil_append] at hrequests
  rw [← hrequests] at hasked
  refine ⟨ws,_,_,hws,by rw [fetchTransfersChunked,hws]; rfl,hparts,hasked,fun hle => ?_,fun hlt => ?_⟩
  · rw [hresult,hparts.blocks,fetchTransfersWith_eq h (w:=(first,last)) hle,windowEvents]
    cases eventsOf decodeLog logs (Windows.interval first.toNat last.toNat) <;> rfl
  · have hnone : ws = [] := by
      rw [BitVec.lt_def] at hlt
      rw [← List.length_eq_zero_iff,hparts.count,show last.toNat+1-first.toNat = 0 by omega,
        zero_ceilDiv]
    rw [hnone]
    exact ⟨rfl,rfl⟩

def sampleLogs (pending : ℕ) (n : ℕ) : List Log :=
  [⟨⟨9,[Transfer.signatureHash,1,2],List.replicate 30 0 ++ [3,232]⟩,
    if n = pending then none else some (BitVec.ofNat 64 n),some 3,some 7⟩]

theorem chunked_eq_single_at_max :
    ∃ ws result r, blockWindows .checked 3 (-3) (-1) 2 = .ok ws ∧
      fetchTransfersChunked Transfer.decodeLog .checked 3 9 (-3) (-1) 2
        (⟨⟨⟩,[]⟩ : Recorder (Archive (sampleLogs 0))) = .ok (result,r) ∧
      Partitions ws (-3) (-1) 2 ∧ Asked Transfer.decodeLog 9 (sampleLogs 0) ws r.requests result := by
  have hserves : Serves (Archive (sampleLogs 0)) 9 (sampleLogs 0) := fun _ _ _ _ => rfl
  obtain ⟨ws,result,r,h1,h2,h3,h4,_,_⟩ := chunked_eq_single .checked Transfer.decodeLog 9 (sampleLogs 0)
    (Archive (sampleLogs 0)) hserves (-3) (-1) 2 3 (by decide +kernel) ⟨⟩
  exact ⟨ws,result,r,h1,h2,h3,h4⟩

/-- The windows behind a log that does not decode are never asked for. -/
theorem chunked_stops_early :
    Serves (Archive (sampleLogs 0)) 9 (sampleLogs 0) ∧
    ∃ result r, fetchTransfersChunked Transfer.decodeLog .checked 3 9 0 1 1
        (⟨⟨⟩,[]⟩ : Recorder (Archive (sampleLogs 0))) = .ok (result,r) ∧
      result = .error (.incompleteLog "block_number") ∧
      r.requests.length ≠ ((1 : U64).toNat+1-(0 : U64).toNat) ⌈/⌉ max (1 : U64).toNat 1 :=
  ⟨fun _ _ _ _ => rfl,_,_,rfl,rfl,by decide +kernel⟩

end Backfill
end Fintrails
