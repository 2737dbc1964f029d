import Mathlib.Data.ENat.Basic
import Fintrails.Retry
import Fintrails.RunLoop

/-! A source that now and then fails in transport.  Whenever it does, a process that polls it
does what it would do over a source that answers every call, up to the point where it gives
up; and behind retries it gives up only in an outage that outlasts them. -/
namespace Fintrails

open Retry Attempts

variable {S S' C α β : Type}

/-- A call is answered, or, if there are outages at all, it fails in transport and moves
nothing. -/
def Falters (outage : Prop) (R : S → S' → Prop) (call : S → Except SourceError α × S)
    (call' : S' → Except SourceError α × S') : Prop :=
  ∀ {s s'}, R s s' → (outage ∧ RpcError (call' s').1 ∧ R s (call' s').2) ∨
    ((call' s').1 = (call s).1 ∧ R (call s).2 (call' s').2)

structure Steadfast (S : Type) [BlockSource S] : Prop where
  headNumber : ∀ s : S, ¬RpcError (BlockSource.headNumber s).1
  blockRef : ∀ n (s : S), ¬RpcError (BlockSource.blockRef n s).1
  transfers : ∀ first last (s : S), ¬RpcError (BlockSource.transfers first last s).1

theorem node_steadfast : Steadfast Node where
  headNumber s := by simp [RpcError,BlockSource.headNumber]
  blockRef n s := by
    simp only [RpcError,BlockSource.blockRef]
    split <;> simp
  transfers first last s := by simp [RpcError,BlockSource.transfers]

/-- Sources in related states answer alike, but for failures in transport of the second. -/
structure Unreliable [BlockSource S] [BlockSource S'] (outage : Prop) (R : S → S' → Prop) :
    Prop where
  headNumber : Falters outage R BlockSource.headNumber BlockSource.headNumber
  blockRef : ∀ n, Falters outage R (BlockSource.blockRef n) (BlockSource.blockRef n)
  transfers : ∀ first last, Falters outage R (BlockSource.transfers first last)
    (BlockSource.transfers first last)

/-- A call is answered, or it fails in transport: before the answer it fails `k` times at most,
and before the answers to come `limit` times each. -/
def FaltersWithin (limit : ℕ∞) (R : ℕ∞ → S → S' → Prop) (call : S → Except SourceError α × S)
    (call' : S' → Except SourceError α × S') : Prop :=
  ∀ {k s s'}, R k s s' → (RpcError (call' s').1 ∧ ∃ j, j+1 ≤ k ∧ R j s (call' s').2) ∨
    ((call' s').1 = (call s).1 ∧ R limit (call s).2 (call' s').2)

structure UnreliableWithin [BlockSource S] [BlockSource S'] (limit : ℕ∞)
    (R : ℕ∞ → S → S' → Prop) : Prop where
  headNumber : FaltersWithin limit R BlockSource.headNumber BlockSource.headNumber
  blockRef : ∀ n, FaltersWithin limit R (BlockSource.blockRef n) (BlockSource.blockRef n)
  transfers : ∀ first last, FaltersWithin limit R (BlockSource.transfers first last)
    (BlockSource.transfers first last)

namespace RetryingSource

variable {limit : ℕ∞} {R : ℕ∞ → S → S' → Prop} {call : S → Except SourceError α × S}
  {call' : S' → Except SourceError α × S'} {s : S} {s' : S'}

theorem falters_after (h : FaltersWithin limit R call call') (hcall : ¬RpcError (call s).1)
    {k : ℕ∞} (hs : R k s s') {n : ℕ} (hn : ∀ i < n, RpcError (outcome call' s' i)) :
    ∃ j, j+n ≤ k ∧ R j s (after call' s' n) := by
  induction n generalizing k s' with
  | zero => exact ⟨k,by simp,hs⟩
  | succ n ih =>
    have hfirst : RpcError (call' s').1 := hn 0 (Nat.succ_pos n)
    rcases h hs with ⟨_,j,hj,hnext⟩ | ⟨hanswer,_⟩
    · obtain ⟨i,hi,hrest⟩ := ih hnext fun i hi => hn (i+1) (Nat.succ_lt_succ hi)
      refine ⟨i,?_,hrest⟩
      rw [Nat.cast_add,Nat.cast_one,← add_assoc]
      exact (add_le_add_left hi 1).trans hj
    · rw [hanswer] at hfirst
      exact absurd hfirst hcall

/-- The source behind the retries stands for `s`, in an outage of at most `limit` failures. -/
def Retried (policy : RetryPolicy) (limit : ℕ∞) (R : ℕ∞ → S → S' → Prop) (s : S)
    (source : RetryingSource S') : Prop :=
  source.policy = policy ∧ ∃ k ≤ limit, R k s source.inner

/-- Behind retries a call fails only in an outage that outlasts them. -/
theorem falters_retrying (h : FaltersWithin limit R call call') (hcall : ∀ s, ¬RpcError (call s).1)
    (policy : RetryPolicy) : Falters ((policy.maxRetries.toNat : ℕ∞) < limit)
      (Retried policy limit R) call (retrying call') := by
  rintro s ⟨s',policy'⟩ ⟨hpolicy,k,hk,hs⟩
  obtain rfl : policy' = policy := hpolicy
  obtain ⟨n,hends⟩ := exists_endsAt RpcError policy'.maxRetries.toNat (outcome call' s')
  obtain ⟨j,hj,hat⟩ := falters_after h (hcall s) hs hends.before
  have hlast : after call' s' (n+1) = (call' (after call' s' n)).2 :=
    Function.iterate_succ_apply' _ _ _
  rw [retrying_eq hends,hlast]
  rcases h hat with ⟨hfailed,i,hi,hnext⟩ | ⟨hanswer,hnext⟩
  · -- a failure is returned when the budget is spent
    have hn : n = policy'.maxRetries.toNat := by
      by_contra hne
      have hwithin := hends.within
      exact hends.stops (by omega) hfailed
    have hspent : (policy'.maxRetries.toNat : ℕ∞)+1 ≤ limit := by
      rw [← hn]
      calc (n : ℕ∞)+1 ≤ i+(n+1) := le_add_self
        _ = i+1+n := by rw [add_assoc,add_comm (n : ℕ∞) 1]
        _ ≤ j+n := add_le_add_left hi _
        _ ≤ limit := hj.trans hk
    refine .inl ⟨?_,hfailed,rfl,i,?_,hnext⟩
    · exact (ENat.add_one_le_iff (ENat.natCast_ne_top _)).mp hspent
    · exact (le_self_add.trans hi).trans ((le_self_add.trans hj).trans hk)
  · exact .inr ⟨hanswer,rfl,limit,le_rfl,hnext⟩

theorem unreliable_retrying [BlockSource S] [BlockSource S'] (hS : Steadfast S)
    (h : UnreliableWithin limit R) (policy : RetryPolicy) :
    Unreliable ((policy.maxRetries.toNat : ℕ∞) < limit) (Retried policy limit R) where
  headNumber := falters_retrying h.headNumber hS.headNumber policy
  blockRef n := falters_retrying (h.blockRef n) (hS.blockRef n) policy
  transfers first last := falters_retrying (h.transfers first last) (hS.transfers first last) policy

end RetryingSource

namespace Poller

def GaveUp (r : EStateM.Result PollerError (Poller S C) α) : Prop :=
  ∃ message q, r = .error (.source (.rpc message)) q

section Rules

variable {outage : Prop} {R : S → S' → Prop} {p : Poller S C} {p' : Poller S' C}

theorem Agrees.ended {r : EStateM.Result PollerError (Poller S C) α}
    {r' : EStateM.Result PollerError (Poller S' C) α} (h : Agrees R r r') :
    ∃ source, (Poller.ended r').1 = (Poller.ended r).1 ∧
      (Poller.ended r').2 = (Poller.ended r).2.withSource source := by
  cases h with
  | ok a _ => exact ⟨_,rfl,rfl⟩
  | error e _ => exact ⟨_,rfl,rfl⟩

theorem gaveUp_or_agrees_bind {x : Method S C α} {x' : Method S' C α} {f : α → Method S C β}
    {f' : α → Method S' C β} (h : (outage ∧ GaveUp (x'.run p')) ∨ Agrees R (x.run p) (x'.run p'))
    (hf : ∀ a q q', Beside R q q' →
      (outage ∧ GaveUp ((f' a).run q')) ∨ Agrees R ((f a).run q) ((f' a).run q')) :
    (outage ∧ GaveUp ((x' >>= f').run p')) ∨
      Agrees R ((x >>= f).run p) ((x' >>= f').run p') := by
  rw [EStateM.run_bind,EStateM.run_bind]
  rcases h with ⟨hout,message,q,hx⟩ | hx
  · exact .inl ⟨hout,message,q,by rw [hx]⟩
  · generalize x.run p = r,x'.run p' = r' at hx
    cases hx with
    | ok a hs => exact hf a _ _ ⟨_,rfl,hs⟩
    | error e hs => exact .inr (.error e hs)

theorem gaveUp_or_agrees_fetch {call : S → Except SourceError α × S}
    {call' : S' → Except SourceError α × S'} (hp : Beside R p p') (h : Falters outage R call call') :
    (outage ∧ GaveUp ((fetch call' : Method S' C α).run p')) ∨
      Agrees R ((fetch call : Method S C α).run p) ((fetch call' : Method S' C α).run p') := by
  obtain ⟨s',rfl,hs⟩ := hp
  have hcall := h hs
  simp only [fetch,EStateM.run,withSource]
  generalize call p.source = r,call' s' = r' at hcall ⊢
  obtain ⟨answer,t⟩ := r
  obtain ⟨answer',t'⟩ := r'
  rcases hcall with ⟨hout,⟨message,hfailed⟩,_⟩ | ⟨hanswer,hnext⟩
  · obtain rfl : answer' = .error (.rpc message) := hfailed
    exact .inl ⟨hout,message,_,rfl⟩
  · obtain rfl : answer' = answer := hanswer
    cases answer' with
    | error e => exact .inr (.error _ hnext)
    | ok a => exact .inr (.ok a hnext)

variable [BlockSource S] [BlockSource S']

theorem relates_unreliable (h : Unreliable outage R) : @Relates S S' C C _ _ (Beside R)
    fun p p' x x' => (outage ∧ GaveUp (x'.run p')) ∨ Agrees R (x.run p) (x'.run p') where
  same := by
    rintro p _ ⟨s',rfl,_⟩
    exact ⟨rfl,rfl⟩
  pure a hp := .inr (agrees_pure a hp)
  bind := gaveUp_or_agrees_bind
  get hf := hf
  headNumber hp := gaveUp_or_agrees_fetch hp h.headNumber
  blockRef n hp := gaveUp_or_agrees_fetch hp (h.blockRef n)
  transfers first last hp := gaveUp_or_agrees_fetch hp (h.transfers first last)
  observe b hp := .inr (agrees_observe b hp)

end Rules

section Runs

variable [BlockSource S] [BlockSource S'] [Checkpoint C] {outage : Prop} {R : S → S' → Prop}

/-- A poll that gives up has had no effect; any other does the same. -/
theorem poll_unreliable (h : Unreliable outage R) {p : Poller S C} {p' : Poller S' C}
    (hp : Beside R p p') :
    (outage ∧ ∃ message, (poll p').2 = .error (.source (.rpc message)) ∧
        (poll p').1.effects = p'.effects) ∨
      ((poll p').2 = (poll p).2 ∧ Beside R (poll p).1 (poll p').1) := by
  have hcollect := (relates_unreliable h).collect hp
  rcases hcollect with ⟨hout,message,q,hcollect⟩ | hcollect
  · have hkept : q.effects = p'.effects := by
      rw [collect_error hcollect]
      rfl
    rw [poll_of_error hcollect]
    exact .inl ⟨hout,message,rfl,hkept⟩
  · right
    generalize hr : EStateM.run collect p = r at hcollect
    generalize hr' : EStateM.run collect p' = r' at hcollect
    cases hcollect with
    | error e hs =>
      rw [poll_of_error hr,poll_of_error hr']
      exact ⟨rfl,_,rfl,hs⟩
    | @ok msgs q s' hs =>
      have hdue' : (q.withSource s').dueSave = q.dueSave := rfl
      cases hdue : q.dueSave with
      | none =>
        rw [poll_of_unsaved hr hdue,poll_of_unsaved hr' (hdue'.trans hdue)]
        exact ⟨rfl,_,rfl,hs⟩
      | some height =>
        rcases hsave : Checkpoint.save height q.checkpoint with ⟨e | ⟨⟩,c⟩
        · rw [poll_of_save_error hr hdue hsave,poll_of_save_error hr' (hdue'.trans hdue) hsave]
          exact ⟨rfl,_,rfl,hs⟩
        · rw [poll_of_saved hr hdue hsave,poll_of_saved hr' (hdue'.trans hdue) hsave]
          exact ⟨rfl,_,rfl,hs⟩

theorem poll_effects_prefix (p : Poller S C) : p.effects <+: (poll p).1.effects := by
  obtain ⟨saves,hsaves⟩ := poll_withEffects p
  exact ⟨saves.map .save,(congrArg (fun r => r.1.effects) (hsaves p.effects)).symm⟩

theorem run_effects_prefix (p : Poller S C) (moves : List (S → S)) (rx : Receiver) :
    p.effects <+: (ended ((run moves rx : Method S C (Option Receiver)).run p)).2.effects := by
  induction moves generalizing p rx with
  | nil => exact List.prefix_rfl
  | cons move moves ih =>
    have hpolled : p.effects <+: (pollAfter p move).1.effects :=
      poll_effects_prefix { p with source := move p.source }
    rcases hpoll : pollAfter p move with ⟨q,e | msgs⟩
    · rw [hpoll] at hpolled
      rw [run_cons_error hpoll]
      exact hpolled
    · rw [hpoll] at hpolled
      rw [run_cons_ok hpoll]
      have hsent := hpolled.trans
        (List.prefix_append q.effects ((rx.accepted msgs).map .send))
      cases rx.after msgs.length with
      | none => exact hsent
      | some rx' =>
        exact hsent.trans (ih { q with effects := q.effects ++ (rx.accepted msgs).map .send } rx')

/-- Over a source that fails in transport now and then, a call of `run` does what it does over
one that never fails: the same to its end, or less because it gives up. -/
theorem run_unreliable (h : Unreliable outage R) {p : Poller S C} {p' : Poller S' C}
    (hp : Beside R p p') (moves : List ((S → S) × (S' → S')))
    (hmoves : ∀ m ∈ moves, ∀ s s', R s s' → R (m.1 s) (m.2 s')) (rx : Receiver) :
    (outage ∧ ∃ message q, (run (moves.map Prod.snd) rx : Method S' C (Option Receiver)).run p' =
        .error (.source (.rpc message)) q ∧
      q.effects <+: (ended ((run (moves.map Prod.fst) rx :
        Method S C (Option Receiver)).run p)).2.effects) ∨
    Agrees R ((run (moves.map Prod.fst) rx : Method S C (Option Receiver)).run p)
      ((run (moves.map Prod.snd) rx : Method S' C (Option Receiver)).run p') := by
  induction moves generalizing p p' rx with
  | nil => exact .inr (agrees_pure (some rx) hp)
  | cons m moves ih =>
    obtain ⟨s',rfl,hs⟩ := hp
    have hmoved : Beside R { p with source := m.1 p.source }
        { p.withSource s' with source := m.2 s' } := ⟨_,rfl,hmoves m (by simp) _ _ hs⟩
    have hstart := run_effects_prefix p (m.1::moves.map Prod.fst) rx
    have hpolls := poll_unreliable h hmoved
    rw [List.map_cons,List.map_cons]
    rcases hpolls with ⟨hout,message,hfailed,heffects⟩ | ⟨hsame,hbeside⟩
    · have hpoll : pollAfter (p.withSource s') m.2 =
          ((pollAfter (p.withSource s') m.2).1,.error (.source (.rpc message))) :=
        Prod.ext rfl hfailed
      refine .inl ⟨hout,message,_,run_cons_error hpoll _ rx,?_⟩
      have hnone : (pollAfter (p.withSource s') m.2).1.effects = p.effects := heffects
      rw [hnone]
      exact hstart
    · obtain ⟨t',hnext,ht⟩ := hbeside
      have hpolled : pollAfter (p.withSource s') m.2 =
          ((pollAfter p m.1).1.withSource t',(pollAfter p m.1).2) := Prod.ext hnext hsame
      rcases hpoll : pollAfter p m.1 with ⟨q,e | msgs⟩
      · rw [hpoll] at hpolled
        rw [run_cons_error hpoll,run_cons_error hpolled]
        refine .inr (.error e ?_)
        change R (pollAfter p m.1).1.source t' at ht
        rwa [hpoll] at ht
      · rw [hpoll] at hpolled
        rw [run_cons_ok hpoll,run_cons_ok hpolled]
        change R (pollAfter p m.1).1.source t' at ht
        rw [hpoll] at ht
        cases rx.after msgs.length with
        | none => exact .inr (.ok none (q:={ q with effects := _ }) ht)
        | some rx' =>
          exact ih (p:={ q with effects := q.effects ++ (rx.accepted msgs).map .send })
            ⟨t',rfl,ht⟩ (fun m hm => hmoves m (by simp [hm])) rx'

end Runs

end Poller
end Fintrails
