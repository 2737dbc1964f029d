import Mathlib.Algebra.Ring.Nat
import Mathlib.Data.List.DropRight
import Fintrails.Machine
import Fintrails.Numbered
import Fintrails.Standing

/-! The chain tracker: which blocks it retains, which it reports as confirmed and
which as orphaned.  `observe` is the code's function with its four phases under
their own names; the spec lemmas at the end state each phase through one number,
the `frontier` (the first height not yet confirmed), and are all that later
modules use. -/
namespace Fintrails

abbrev B256 := BitVec 256

/-- `n + 1` on a `u64`.  It wraps, as in a release build; a build with overflow
checks stops instead. -/
def succU64 (n : ℕ) : ℕ := (n+1) % 2^64

theorem succU64_of_lt {n : ℕ} (h : n+1 < 2^64) : succU64 n = n+1 := Nat.mod_eq_of_lt h

def checkedSub (a b : ℕ) : Option ℕ := if b ≤ a then some (a-b) else none

/-- Minimal header of a block; `number` is a `u64`. -/
structure BlockRef where
  number : ℕ
  hash : B256
  parentHash : B256
  deriving DecidableEq, Repr

/-- What changed after a call to `observe`: the blocks that reached the
confirmation depth, and those a reorg orphaned, each ascending. -/
structure TrackerUpdate where
  confirmed : List BlockRef
  reorged : List BlockRef
  deriving DecidableEq, Repr

/-- The chain is kept oldest first.  `with_window` asserts the last field, so no
tracker without it exists. -/
structure Tracker where
  confirmations : ℕ
  chain : List BlockRef
  window : ℕ
  confirmedThrough : Option ℕ
  window_exceeds : confirmations < window

namespace Tracker

def defaultWindow : ℕ := 256

/-- `none` is the panic of the assertion. -/
def withWindow (confirmations window : ℕ) : Option Tracker :=
  if h : confirmations < window then some ⟨confirmations,[],window,none,h⟩ else none

def new (confirmations : ℕ) : Option Tracker := withWindow confirmations defaultWindow

def attaches (block top : BlockRef) : Bool :=
  succU64 top.number == block.number && top.hash == block.parentHash

/-- The rollback loop, over the chain newest first: pop until `block` attaches
to the top.  Popped blocks are pushed in front, hence come out ascending. -/
def rollBack (block : BlockRef) : List BlockRef → List BlockRef → List BlockRef × List BlockRef
  | [], reorged => ([],reorged)
  | top::rest, reorged =>
    if attaches block top then (top::rest,reorged) else rollBack block rest (top::reorged)

/-- Pull the watermark back below the lowest orphaned block. -/
def pullBack (watermark : Option ℕ) (reorged : List BlockRef) : Option ℕ :=
  match reorged.head?.map BlockRef.number with
  | none => watermark
  | some lowest =>
    match watermark, checkedSub lowest 1 with
    | some w, some maxAllowed => if maxAllowed < w then some maxAllowed else some w
    | some _, none => none
    | none, _ => none

/-- Report the blocks past the watermark that are `confirmations` below `head`,
and raise the watermark to that height. -/
def confirm (confirmations head : ℕ) (chain : List BlockRef) (watermark : Option ℕ) :
    List BlockRef × Option ℕ :=
  match checkedSub head confirmations with
  | none => ([],watermark)
  | some confirmedMax =>
    let start := watermark.elim 0 succU64
    (chain.filter fun b => decide (start ≤ b.number) && decide (b.number ≤ confirmedMax),
      if watermark.all fun w => w < confirmedMax then some confirmedMax else watermark)

def trim (window : ℕ) : List BlockRef → List BlockRef
  | [] => []
  | b::bs => if window < (b::bs).length then trim window bs else b::bs

/-- Feed one block: roll back to where it attaches, push it, pull the watermark
back, confirm below the new head, trim. -/
def observe (t : Tracker) (block : BlockRef) : Tracker × TrackerUpdate :=
  let rolled := rollBack block t.chain.reverse []
  let chain := rolled.1.reverse ++ [block]
  let confirming := confirm t.confirmations block.number chain (pullBack t.confirmedThrough rolled.2)
  ({ t with chain := trim t.window chain, confirmedThrough := confirming.2 },
    ⟨confirming.1,rolled.2⟩)

def confirmedHeight (t : Tracker) : Option ℕ := t.confirmedThrough

def head (t : Tracker) : Option BlockRef := t.chain.getLast?

def blockAt (t : Tracker) (number : ℕ) : Option BlockRef :=
  t.chain.find? fun b => b.number == number

def observeAll (t : Tracker) (bs : List BlockRef) : Tracker × List TrackerUpdate :=
  (Machine.final observe t bs,Machine.outputs observe t bs)

@[simp] theorem observeAll_nil (t : Tracker) : observeAll t [] = (t,[]) := rfl

@[simp] theorem observeAll_cons (t : Tracker) (b : BlockRef) (bs : List BlockRef) :
    observeAll t (b::bs) =
      ((observeAll (observe t b).1 bs).1,(observe t b).2::(observeAll (observe t b).1 bs).2) := rfl

theorem observeAll_append (t : Tracker) (bs cs : List BlockRef) :
    observeAll t (bs++cs) = ((observeAll (observeAll t bs).1 cs).1,
      (observeAll t bs).2 ++ (observeAll (observeAll t bs).1 cs).2) := by
  simp [observeAll]

def kept (t : Tracker) (block : BlockRef) : List BlockRef :=
  t.chain.rdropWhile fun top => !attaches block top

def orphaned (t : Tracker) (block : BlockRef) : List BlockRef :=
  t.chain.rtakeWhile fun top => !attaches block top

/-- The first height not yet reported as confirmed. -/
def nextHeight : Option ℕ → ℕ
  | none => 0
  | some w => w+1

theorem nextHeight_injective : Function.Injective nextHeight := by
  intro v w h
  cases v <;> cases w <;> simp_all [nextHeight]

def frontier (t : Tracker) : ℕ := nextHeight t.confirmedThrough

theorem confirmedHeight_none_iff (t : Tracker) : t.confirmedHeight = none ↔ t.frontier = 0 := by
  cases h : t.confirmedThrough <;> simp [confirmedHeight,frontier,nextHeight,h]

theorem confirmedHeight_some_iff {t : Tracker} {w : ℕ} :
    t.confirmedHeight = some w ↔ t.frontier = w+1 := by
  cases h : t.confirmedThrough <;> simp [confirmedHeight,frontier,nextHeight,h]

/-- The frontier once `block` has pulled the watermark back. -/
def pulled (t : Tracker) (block : BlockRef) : ℕ :=
  nextHeight (pullBack t.confirmedThrough (t.orphaned block))

theorem rollBack_eq (block : BlockRef) (l reorged : List BlockRef) :
    rollBack block l reorged = (l.dropWhile (fun top => !attaches block top),
      (l.takeWhile fun top => !attaches block top).reverse ++ reorged) := by
  induction l generalizing reorged with
  | nil => rfl
  | cons top rest ih => cases h : attaches block top <;> simp [rollBack,h,ih]

theorem rollBack_chain (t : Tracker) (block : BlockRef) :
    rollBack block t.chain.reverse [] = ((t.kept block).reverse,t.orphaned block) := by
  simp [rollBack_eq,kept,orphaned,List.rdropWhile,List.rtakeWhile]

theorem kept_append_orphaned (t : Tracker) (block : BlockRef) :
    t.kept block ++ t.orphaned block = t.chain :=
  List.rdropWhile_append_rtakeWhile

theorem kept_prefix (t : Tracker) (block : BlockRef) : t.kept block <+: t.chain :=
  ⟨t.orphaned block,t.kept_append_orphaned block⟩

theorem orphaned_suffix (t : Tracker) (block : BlockRef) : t.orphaned block <:+ t.chain :=
  ⟨t.kept block,t.kept_append_orphaned block⟩

theorem attaches_last_kept (t : Tracker) (block : BlockRef) {top : BlockRef}
    (h : (t.kept block).getLast? = some top) : attaches block top = true := by
  have hne : t.kept block ≠ [] := by
    intro he
    rw [he] at h
    cases h
  have hlast := List.rdropWhile_last_not (fun top => !attaches block top) t.chain hne
  rw [List.getLast?_eq_some_getLast hne] at h
  rw [← Option.some.inj h]
  simpa only [kept,Bool.not_eq_true',Bool.not_eq_false] using hlast

theorem not_attaches_orphaned (t : Tracker) (block : BlockRef) {top : BlockRef}
    (h : top ∈ t.orphaned block) : attaches block top = false := by
  simpa using List.mem_rtakeWhile_imp h

theorem trim_eq_drop (window : ℕ) (l : List BlockRef) :
    trim window l = l.drop (l.length-window) := by
  induction l with
  | nil => simp [trim]
  | cons b l ih =>
    simp only [trim]
    split
    · rename_i h
      simp only [List.length_cons] at h
      rw [ih,show (b::l).length-window = (l.length-window)+1 by simp; omega,List.drop_succ_cons]
    · rename_i h
      rw [show (b::l).length-window = 0 by omega,List.drop_zero]

theorem trim_suffix (window : ℕ) (l : List BlockRef) : trim window l <:+ l := by
  rw [trim_eq_drop]
  exact List.drop_suffix _ _

theorem trim_length_le (window : ℕ) (l : List BlockRef) : (trim window l).length ≤ window := by
  rw [trim_eq_drop,List.length_drop]
  omega

theorem trim_concat_getLast? {window : ℕ} (hw : 0 < window) (l : List BlockRef) (b : BlockRef) :
    (trim window (l++[b])).getLast? = some b := by
  rw [trim_eq_drop,List.drop_append_of_le_length (by simp; omega)]
  simp

theorem nextHeight_pullBack (watermark : Option ℕ) (reorged : List BlockRef) :
    nextHeight (pullBack watermark reorged) =
      match reorged.head? with
      | none => nextHeight watermark
      | some b => min (nextHeight watermark) b.number := by
  cases reorged with
  | nil => rfl
  | cons b bs =>
    cases watermark with
    | none => simp [pullBack,nextHeight]
    | some w =>
      simp only [pullBack,List.head?_cons,Option.map_some,checkedSub]
      by_cases hb : 1 ≤ b.number
      · simp only [hb,if_true]
        split <;> simp only [nextHeight] <;> omega
      · simp only [hb,if_false,nextHeight]
        omega

theorem pulled_eq (t : Tracker) (block : BlockRef) :
    t.pulled block = match (t.orphaned block).head? with
      | none => t.frontier
      | some b => min t.frontier b.number :=
  nextHeight_pullBack _ _

theorem pulled_le_frontier (t : Tracker) (block : BlockRef) : t.pulled block ≤ t.frontier := by
  rw [pulled_eq]
  split
  · exact le_refl _
  · exact min_le_left _ _

theorem nextHeight_confirm (confirmations head : ℕ) (chain : List BlockRef)
    (watermark : Option ℕ) :
    nextHeight (confirm confirmations head chain watermark).2 =
      max (nextHeight watermark) (head+1-confirmations) := by
  by_cases h : confirmations ≤ head
  · cases watermark with
    | none =>
      simp only [confirm,checkedSub,h,if_true,Option.all_none,nextHeight]
      omega
    | some w =>
      simp only [confirm,checkedSub,h,if_true,Option.all_some,decide_eq_true_eq]
      split <;> simp only [nextHeight] <;> omega
  · cases watermark <;> simp only [confirm,checkedSub,h,if_false,nextHeight] <;> omega

theorem confirm_confirmed {confirmations head : ℕ} {chain : List BlockRef}
    {watermark : Option ℕ} (h : nextHeight watermark < 2^64) :
    (confirm confirmations head chain watermark).1 =
      Numbered.slice BlockRef.number (nextHeight watermark) (head+1-confirmations) chain := by
  by_cases hc : confirmations ≤ head
  · have hstart : watermark.elim 0 succU64 = nextHeight watermark := by
      cases watermark with
      | none => rfl
      | some w => exact succU64_of_lt h
    simp only [confirm,checkedSub,hc,if_true,hstart,Numbered.slice]
    apply List.filter_congr
    intro b _
    congr 1
    rw [decide_eq_decide]
    omega
  · simp only [confirm,checkedSub,hc,if_false]
    symm
    apply Numbered.slice_eq_nil
    intro b _ _
    omega

/-! Spec of `observe`, one lemma a component. -/

@[simp] theorem observe_confirmations (t : Tracker) (b : BlockRef) :
    (observe t b).1.confirmations = t.confirmations := rfl

theorem observeAll_confirmations (t : Tracker) (bs : List BlockRef) :
    (observeAll t bs).1.confirmations = t.confirmations := by
  induction bs generalizing t with
  | nil => rfl
  | cons b bs ih => exact ih (observe t b).1

@[simp] theorem observe_window (t : Tracker) (b : BlockRef) :
    (observe t b).1.window = t.window := rfl

theorem observe_chain (t : Tracker) (b : BlockRef) :
    (observe t b).1.chain = trim t.window (t.kept b ++ [b]) := by
  simp [observe,rollBack_chain]

@[simp] theorem observe_reorged (t : Tracker) (b : BlockRef) :
    (observe t b).2.reorged = t.orphaned b := by
  simp [observe,rollBack_chain]

theorem observe_frontier (t : Tracker) (b : BlockRef) :
    (observe t b).1.frontier = max (t.pulled b) (b.number+1-t.confirmations) := by
  simp only [observe,frontier,rollBack_chain,pulled]
  exact nextHeight_confirm _ _ _ _

theorem observe_confirmed {t : Tracker} {b : BlockRef} (h : t.pulled b < 2^64) :
    (observe t b).2.confirmed = Numbered.slice BlockRef.number (t.pulled b)
      (b.number+1-t.confirmations) (t.kept b ++ [b]) := by
  simp only [observe,rollBack_chain,List.reverse_reverse]
  exact confirm_confirmed h

theorem window_pos (t : Tracker) : 0 < t.window := Nat.lt_of_le_of_lt (Nat.zero_le _) t.window_exceeds

@[simp] theorem observe_head (t : Tracker) (b : BlockRef) : (observe t b).1.head = some b := by
  rw [head,observe_chain]
  exact trim_concat_getLast? t.window_pos _ _

theorem observe_chain_length_le (t : Tracker) (b : BlockRef) :
    (observe t b).1.chain.length ≤ t.window := by
  rw [observe_chain]
  exact trim_length_le _ _

theorem observe_chain_ne_nil (t : Tracker) (b : BlockRef) : (observe t b).1.chain ≠ [] := by
  intro h
  have hh := observe_head t b
  rw [head,h] at hh
  cases hh

end Tracker
end Fintrails
