import Fintrails.Source
import Fintrails.Attempts
import Fintrails.Duration

/-! Retrying calls that fail in transport.  The loop ends with the first outcome that is not
such a failure, or with the one that spends the budget; in between it sleeps for delays that
double up to a ceiling. -/
namespace Fintrails

abbrev U32 := BitVec 32

/-- Only transient transport failures qualify. -/
def SourceError.isRetryable : SourceError → Bool
  | .rpc _ => true
  | _ => false

/-- How an operation backs off and gives up across transient failures. -/
structure RetryPolicy where
  maxRetries : U32
  baseDelay : Duration
  maxDelay : Duration
  deriving DecidableEq, Repr

namespace RetryPolicy

/-- `RetryPolicy::default()`. -/
instance : Inhabited RetryPolicy := ⟨⟨5,.fromMillis 200,.fromSecs 5⟩⟩

/-- Backoff before the retry that follows attempt `attempt`. -/
def delayFor (policy : RetryPolicy) (attempt : U32) : Duration :=
  min (policy.baseDelay.saturatingMul (Unsigned.saturatingPow 2 attempt)) policy.maxDelay

def factor (i : ℕ) : ℕ := if i < 32 then 2^i else 2^32-1

theorem factor_eq (i : ℕ) : factor i = min (2^i) (2^32-1) := by
  rw [factor]
  split
  · rename_i h
    have hle := Nat.pow_le_pow_right (show 0 < 2 by decide) (show i ≤ 31 by omega)
    omega
  · rename_i h
    have hle := Nat.pow_le_pow_right (show 0 < 2 by decide) (show 32 ≤ i by omega)
    omega

theorem factor_mono : Monotone factor := by
  intro i j h
  rw [factor_eq,factor_eq]
  exact min_le_min_right _ (Nat.pow_le_pow_right (by decide) h)

variable (policy : RetryPolicy)

/-- No product that matters is cut off: beyond the longest span the ceiling is reached. -/
theorem toNanos_delayFor (attempt : U32) : (policy.delayFor attempt).toNanos =
    min (policy.baseDelay.toNanos*factor attempt.toNat) policy.maxDelay.toNanos := by
  rw [delayFor,Duration.toNanos_min,Duration.toNanos_saturatingMul,Unsigned.toNat_saturatingPow,
    min_assoc,min_eq_right policy.maxDelay.toNanos_le_longest,factor_eq]
  rfl

example : [0,1,4,5,64].map (default : RetryPolicy).delayFor =
    [.fromMillis 200,.fromMillis 400,.fromMillis 3200,.fromSecs 5,.fromSecs 5] := by decide +kernel

theorem delayFor_le_maxDelay (attempt : U32) : policy.delayFor attempt ≤ policy.maxDelay :=
  min_le_right _ _

theorem delayFor_le_delayFor {i j : U32} (h : i.toNat ≤ j.toNat) :
    policy.delayFor i ≤ policy.delayFor j := by
  rw [Duration.le_iff,toNanos_delayFor,toNanos_delayFor]
  exact min_le_min_right _ (Nat.mul_le_mul_left _ (factor_mono h))

end RetryPolicy

namespace Retry

open Attempts

variable {α σ : Type}

inductive Action (α : Type)
  | call (outcome : Except SourceError α)
  | sleep (delay : Duration)
  deriving DecidableEq

def Action.outcome? : Action α → Option (Except SourceError α)
  | .call o => some o
  | .sleep _ => none

def Action.delay? : Action α → Option Duration
  | .call _ => none
  | .sleep delay => some delay

/-- What `withRetry` returns, the state it leaves the operation in, and what it has done, which
no code reads. -/
structure Run (α σ : Type) where
  result : Except SourceError α
  state : σ
  actions : List (Action α)

def Run.calls (run : Run α σ) : List (Except SourceError α) :=
  run.actions.filterMap Action.outcome?

def Run.delays (run : Run α σ) : List Duration := run.actions.filterMap Action.delay?

theorem add_one_of_lt (build : Build) {a b : U32} (h : a < b) :
    Unsigned.add build a 1 = some (a+1) ∧ (a+1).toNat = a.toNat+1 := by
  have hlt : a.toNat+1 < 2^32 := Nat.lt_of_le_of_lt (BitVec.lt_def.mp h) b.isLt
  exact Unsigned.add_of_lt build hlt

section Loop

variable (build : Build) (policy : RetryPolicy) (op : σ → Except SourceError α × σ)

/-- The loop of `withRetry`; `none` is a panic. -/
def retryLoop (attempt : U32) (s : σ) (actions : List (Action α)) : Option (Run α σ) :=
  match (op s).1 with
  | .ok value => some ⟨.ok value,(op s).2,actions ++ [.call (.ok value)]⟩
  | .error err =>
    if h : err.isRetryable = true ∧ attempt < policy.maxRetries then
      match hnext : Unsigned.add build attempt 1 with
      | none => none
      | some next => retryLoop next (op s).2
          (actions ++ [.call (.error err),.sleep (policy.delayFor attempt)])
    else some ⟨.error err,(op s).2,actions ++ [.call (.error err)]⟩
termination_by policy.maxRetries.toNat-attempt.toNat
decreasing_by
  have hlt := BitVec.lt_def.mp h.2
  obtain ⟨hadd,hsucc⟩ := add_one_of_lt build h.2
  rw [hadd] at hnext
  rw [← Option.some.inj hnext,hsucc]
  omega

/-- Runs `op`, retrying while it fails in transport and the budget of the policy is not spent. -/
def withRetry (s : σ) : Option (Run α σ) := retryLoop build policy op 0 s []

end Loop

def RpcError (o : Except SourceError α) : Prop := ∃ message, o = .error (.rpc message)

theorem rpcError_error_iff {err : SourceError} :
    RpcError (.error err : Except SourceError α) ↔ err.isRetryable = true := by
  cases err <;> simp [RpcError,SourceError.isRetryable]

variable {build : Build} {policy : RetryPolicy} {op : σ → Except SourceError α × σ}
  {attempt : U32} {s : σ}

theorem retryLoop_again (hagain : RpcError (op s).1) (hlt : attempt < policy.maxRetries)
    (actions : List (Action α)) : retryLoop build policy op attempt s actions =
      retryLoop build policy op (attempt+1) (op s).2
        (actions ++ [.call (op s).1,.sleep (policy.delayFor attempt)]) := by
  obtain ⟨message,hrpc⟩ := hagain
  obtain ⟨hadd,_⟩ := add_one_of_lt build hlt
  rw [retryLoop]
  simp only [hrpc]
  rw [dif_pos ⟨rfl,hlt⟩]
  split
  · rename_i hnone
    rw [hadd] at hnone
    cases hnone
  · rename_i next hnext
    rw [hadd] at hnext
    rw [Option.some.inj hnext]

theorem retryLoop_stops (hstop : attempt < policy.maxRetries → ¬RpcError (op s).1)
    (actions : List (Action α)) : retryLoop build policy op attempt s actions =
      some ⟨(op s).1,(op s).2,actions ++ [.call (op s).1]⟩ := by
  rw [retryLoop]
  cases hcall : (op s).1 with
  | ok value => rfl
  | error err =>
    rw [hcall,rpcError_error_iff] at hstop
    exact dif_neg fun h => hstop h.2 h.1

def history (policy : RetryPolicy) (outcomes : ℕ → Except SourceError α) (attempt k : ℕ) :
    List (Action α) :=
  ((List.range k).flatMap fun i =>
    [.call (outcomes i),.sleep (policy.delayFor (.ofNat 32 (attempt+i)))]) ++ [.call (outcomes k)]

theorem history_succ (policy : RetryPolicy) (outcomes : ℕ → Except SourceError α)
    (attempt k : ℕ) : history policy outcomes attempt (k+1) =
      [.call (outcomes 0),.sleep (policy.delayFor (.ofNat 32 attempt))] ++
        history policy (fun n => outcomes (n+1)) (attempt+1) k := by
  simp only [history,List.range_succ_eq_map,List.flatMap_cons,List.flatMap_map,Nat.add_zero,
    List.append_assoc,Nat.add_assoc,Nat.add_comm 1]

theorem retryLoop_ends {k : ℕ} {actions : List (Action α)}
    (h : EndsAt RpcError (policy.maxRetries.toNat-attempt.toNat) (outcome op s) k) :
    retryLoop build policy op attempt s actions = some ⟨outcome op s k,after op s (k+1),
      actions ++ history policy (outcome op s) attempt.toNat k⟩ := by
  induction k generalizing attempt s actions with
  | zero =>
    refine (retryLoop_stops (fun hlt => h.stops ?_) actions).trans rfl
    have hlt' := BitVec.lt_def.mp hlt
    omega
  | succ k ih =>
    have hle := h.within
    have hagain : RpcError (op s).1 := h.before 0 (Nat.succ_pos k)
    have hlt : attempt < policy.maxRetries := BitVec.lt_def.mpr (by omega)
    obtain ⟨_,hsucc⟩ := add_one_of_lt build hlt
    have htail : EndsAt RpcError (policy.maxRetries.toNat-(attempt+1).toNat)
        (outcome op (op s).2) k := by
      rw [show policy.maxRetries.toNat-attempt.toNat =
        policy.maxRetries.toNat-(attempt+1).toNat+1 by omega] at h
      exact h.tail
    rw [retryLoop_again hagain hlt,ih htail,history_succ,hsucc,
      BitVec.ofNat_toNat,BitVec.setWidth_eq,List.append_assoc]
    rfl

theorem withRetry_ends (build : Build) {k : ℕ}
    (h : EndsAt RpcError policy.maxRetries.toNat (outcome op s) k) :
    withRetry build policy op s = some ⟨outcome op s k,after op s (k+1),
      history policy (outcome op s) 0 k⟩ := by
  rw [withRetry]
  exact retryLoop_ends h

/-- Over a given sequence of outcomes the state counts the calls. -/
theorem withRetry_replay (build : Build) {outcomes : ℕ → Except SourceError α} {k : ℕ}
    (h : EndsAt RpcError policy.maxRetries.toNat outcomes k) :
    withRetry build policy (replay outcomes) 0 =
      some ⟨outcomes k,k+1,history policy outcomes 0 k⟩ := by
  rw [← outcome_replay outcomes] at h
  rw [withRetry_ends build h,outcome_replay,after_replay,Nat.zero_add]

theorem calls_history (policy : RetryPolicy) (outcomes : ℕ → Except SourceError α)
    (attempt k : ℕ) : (history policy outcomes attempt k).filterMap Action.outcome? =
      (List.range (k+1)).map outcomes := by
  rw [history,List.filterMap_append,List.filterMap_flatMap,List.range_succ,List.map_append,
    List.map_eq_flatMap]
  rfl

theorem delays_history (policy : RetryPolicy) (outcomes : ℕ → Except SourceError α)
    (attempt k : ℕ) : (history policy outcomes attempt k).filterMap Action.delay? =
      (List.range k).map fun i => policy.delayFor (.ofNat 32 (attempt+i)) := by
  rw [history,List.filterMap_append,List.filterMap_flatMap,List.map_eq_flatMap]
  exact List.append_nil _

/-- The run returns the outcome that ends the calling, the first that is not a failure in
transport or the one that spends the budget.  It makes no further call, and sleeps once between
any two calls, for delays that double up to the ceiling. -/
structure Obeys (policy : RetryPolicy) (op : σ → Except SourceError α × σ) (s : σ) (k : ℕ)
    (run : Run α σ) : Prop where
  ends : EndsAt RpcError policy.maxRetries.toNat (outcome op s) k
  result : run.result = outcome op s k
  state : run.state = after op s (k+1)
  calls : run.calls = (List.range (k+1)).map (outcome op s)
  actions : run.actions = history policy (outcome op s) 0 k
  delays : run.delays.map Duration.toNanos = (List.range k).map fun i =>
    min (policy.baseDelay.toNanos*RetryPolicy.factor i) policy.maxDelay.toNanos
  sorted : run.delays.Pairwise (· ≤ ·)
  bounded : ∀ delay ∈ run.delays, delay ≤ policy.maxDelay

/-- Whatever the operation returns from call to call, `withRetry` comes to an end, and no
arithmetic overflows on the way. -/
theorem retry_law (build : Build) (policy : RetryPolicy) (op : σ → Except SourceError α × σ)
    (s : σ) : ∃ k run, withRetry build policy op s = some run ∧ Obeys policy op s k run := by
  obtain ⟨k,hends⟩ := exists_endsAt RpcError policy.maxRetries.toNat (outcome op s)
  have hdelays := delays_history policy (outcome op s) 0 k
  have hnum : ∀ i < k, (BitVec.ofNat 32 (0+i)).toNat = i := by
    intro i hi
    have hwithin := hends.within
    rw [BitVec.toNat_ofNat,Nat.zero_add]
    exact Nat.mod_eq_of_lt (by omega)
  refine ⟨k,_,withRetry_ends build hends,hends,rfl,rfl,calls_history _ _ _ _,rfl,?_,?_,?_⟩
  · rw [Run.delays,hdelays,List.map_map]
    refine List.map_congr_left fun i hi => ?_
    rw [Function.comp_apply,RetryPolicy.toNanos_delayFor,hnum i (List.mem_range.mp hi)]
  · rw [Run.delays,hdelays,List.pairwise_map]
    refine List.pairwise_lt_range.imp_of_mem fun {i j} hi hj hlt => ?_
    apply RetryPolicy.delayFor_le_delayFor
    rw [hnum i (List.mem_range.mp hi),hnum j (List.mem_range.mp hj)]
    exact hlt.le
  · intro delay hdelay
    rw [Run.delays,hdelays] at hdelay
    obtain ⟨i,_,rfl⟩ := List.mem_map.mp hdelay
    exact policy.delayFor_le_maxDelay _

end Retry

/-- A source whose every call is retried under the policy. -/
structure RetryingSource (S : Type) where
  inner : S
  policy : RetryPolicy

namespace RetryingSource

open Retry Attempts

variable {S α : Type}

theorem withRetry_isSome (build : Build) (policy : RetryPolicy)
    (op : S → Except SourceError α × S) (s : S) : (withRetry build policy op s).isSome = true := by
  obtain ⟨k,hends⟩ := exists_endsAt RpcError policy.maxRetries.toNat (outcome op s)
  rw [withRetry_ends build hends]
  rfl

/-- One call of the wrapped source; it is the same in either build. -/
def retrying (op : S → Except SourceError α × S) (source : RetryingSource S) :
    Except SourceError α × RetryingSource S :=
  let run := (withRetry .checked source.policy op source.inner).get (withRetry_isSome _ _ _ _)
  (run.result,⟨run.state,source.policy⟩)

instance [BlockSource S] : BlockSource (RetryingSource S) where
  headNumber := retrying BlockSource.headNumber
  blockRef number := retrying (BlockSource.blockRef number)
  transfers first last := retrying (BlockSource.transfers first last)

theorem retrying_eq {op : S → Except SourceError α × S} {source : RetryingSource S} {k : ℕ}
    (h : EndsAt RpcError source.policy.maxRetries.toNat (outcome op source.inner) k) :
    retrying op source =
      (outcome op source.inner k,⟨after op source.inner (k+1),source.policy⟩) := by
  simp only [retrying,withRetry_ends .checked h,Option.get_some]

end RetryingSource
end Fintrails
