import Fintrails.TrackerSteps

/-! The poller's boundary: the chain it reads, the checkpoint it persists to, and
what it hands downstream.  A source or a checkpoint answers a call and moves to a
new state of its own, so that a node which reorganises or fails between two calls
is a source like any other. -/
namespace Fintrails

abbrev Address := BitVec 160

abbrev U256 := BitVec 256

structure ChainEvent where
  token : Address
  sender : Address
  receiver : Address
  value : U256
  blockNumber : ℕ
  txHash : B256
  logIndex : ℕ
  deriving DecidableEq, Repr

inductive SourceError
  | invalidUrl (message : String)
  | rpc (message : String)
  | decode (message : String)
  | incompleteLog (field : String)
  deriving DecidableEq, Repr

inductive CheckpointError
  | store (message : String)
  deriving DecidableEq, Repr

inductive PollerError
  | source (error : SourceError)
  | checkpoint (error : CheckpointError)
  deriving DecidableEq, Repr

/-- What the poller hands downstream as the chain advances. -/
inductive IndexerMessage
  | confirmed (event : ChainEvent)
  | reorged (orphaned : List BlockRef)
  deriving DecidableEq, Repr

/-- A block that carries the number it was asked for. -/
abbrev BlockAt (number : ℕ) := { b : BlockRef // b.number = number }

/-- Reads block metadata and transfers from a chain.  A call may fail, and leaves
the source in whatever state the chain is in by then. -/
class BlockSource (S : Type) where
  headNumber : S → Except SourceError ℕ × S
  blockRef : (number : ℕ) → S → Except SourceError (BlockAt number) × S
  transfers : (first last : ℕ) → S → Except SourceError (List ChainEvent) × S

/-- Durable record of the highest confirmed height whose events were emitted. -/
class Checkpoint (C : Type) where
  load : C → Except CheckpointError (Option ℕ)
  save : ℕ → C → Except CheckpointError Unit × C

structure InMemoryCheckpoint where
  height : Option ℕ
  deriving DecidableEq, Repr

instance : Checkpoint InMemoryCheckpoint where
  load c := .ok c.height
  save height _ := (.ok (),⟨some height⟩)

structure NoCheckpoint where
  deriving DecidableEq, Repr

instance : Checkpoint NoCheckpoint where
  load _ := .ok none
  save _ c := (.ok (),c)

/-- A canonical chain: the block at every number up to `height`, each naming the one
below it as its parent.  Heights stay below `u64::MAX`. -/
structure Chain where
  height : ℕ
  block : ℕ → BlockRef
  number_block : ∀ n ≤ height, (block n).number = n
  linked : ∀ n < height, (block (n+1)).parentHash = (block n).hash
  height_lt : height < 2^64-1

namespace Chain

theorem number_lt (c : Chain) {n : ℕ} (hn : n ≤ c.height) : (c.block n).number < 2^64-1 := by
  rw [c.number_block n hn]
  exact Nat.lt_of_le_of_lt hn c.height_lt

def segment (c : Chain) (first last : ℕ) : List BlockRef :=
  (List.range' first (min last c.height+1-first)).map c.block

theorem mem_segment {c : Chain} {first last : ℕ} {b : BlockRef} :
    b ∈ c.segment first last ↔ ∃ n, first ≤ n ∧ n ≤ last ∧ n ≤ c.height ∧ c.block n = b := by
  simp only [segment,List.mem_map,List.mem_range'_1]
  constructor
  · rintro ⟨n,hn,rfl⟩
    exact ⟨n,hn.1,by omega,by omega,rfl⟩
  · rintro ⟨n,h1,h2,h3,rfl⟩
    exact ⟨n,by omega,rfl⟩

theorem segment_nil {c : Chain} {first last : ℕ} (h : last < first) : c.segment first last = [] := by
  simp [segment,show min last c.height+1-first = 0 by omega]

theorem segment_cons {c : Chain} {first last : ℕ} (h : first ≤ last) (hlast : last ≤ c.height) :
    c.segment first last = c.block first :: c.segment (first+1) last := by
  rw [segment,segment,show min last c.height+1-first = (min last c.height+1-(first+1))+1 by omega,
    List.range'_succ,List.map_cons]

theorem linked_segment {c : Chain} {first last : ℕ} (hlast : last ≤ c.height) :
    Linked (c.segment first last) := by
  obtain ⟨k,hk⟩ : ∃ k, k = last+1-first := ⟨_,rfl⟩
  induction k generalizing first with
  | zero =>
    rw [segment_nil (by omega)]
    exact List.isChain_nil
  | succ k ih =>
    have hrest : Linked (c.segment (first+1) last) := ih (by omega)
    rw [segment_cons (by omega) hlast]
    by_cases hle : first+1 ≤ last
    · rw [segment_cons hle hlast] at hrest ⊢
      refine List.isChain_cons_cons.mpr ⟨⟨?_,c.linked first (by omega)⟩,hrest⟩
      rw [c.number_block _ (by omega),c.number_block _ (by omega)]
    · rw [segment_nil (by omega)]
      exact List.isChain_singleton _

theorem exists_segment_concat {c : Chain} {first last : ℕ} (h : first ≤ last)
    (hlast : last ≤ c.height) : ∃ l, c.segment first last = l ++ [c.block last] := by
  refine ⟨(List.range' first (last-first)).map c.block,?_⟩
  rw [segment,show min last c.height+1-first = (last-first)+1 by omega,List.range'_1_concat,
    List.map_append,List.map_singleton,show first+(last-first) = last by omega]

theorem segment_append {c : Chain} {first mid last : ℕ} (h : first ≤ mid+1) (hmid : mid ≤ last)
    (hlast : last ≤ c.height) :
    c.segment first mid ++ c.segment (mid+1) last = c.segment first last := by
  rw [segment,segment,segment,← List.map_append,
    show mid+1 = first+(min mid c.height+1-first) by omega,List.range'_append_1]
  congr 2
  omega

/-- The linear chain of the tests up to `fork`, then an alternative branch of it. -/
def branching (fork height : ℕ) (h : height < 2^64-1) : Chain where
  height := height
  block n := if n < fork then Tracker.block n
    else Tracker.alt n (if n ≤ fork then (Tracker.block (n-1)).hash else (Tracker.alt (n-1) 0).hash)
  number_block n _ := by split <;> rfl
  linked n _ := by
    by_cases h1 : n+1 < fork
    · simp [h1,show n < fork by omega,Tracker.block]
    · by_cases h2 : n+1 ≤ fork
      · simp [h1,h2,show n < fork by omega,Tracker.alt]
      · simp [h1,h2,show ¬n < fork by omega,Tracker.alt]
  height_lt := h

def linear (height : ℕ) (h : height < 2^64-1) : Chain := branching (height+1) height h

end Chain

/-- A node that serves one chain and reports `head` as its head number, which for
a node that lags lies below the chain's height. -/
structure Node where
  chain : Chain
  events : BlockRef → List ChainEvent
  head : ℕ
  head_le : head ≤ chain.height

def Node.quiet (c : Chain) : Node := ⟨c,fun _ => [],c.height,le_refl _⟩

instance : BlockSource Node where
  headNumber s := (.ok s.head,s)
  blockRef number s :=
    if h : number ≤ s.chain.height then
      (.ok ⟨s.chain.block number,s.chain.number_block number h⟩,s)
    else (.error (.incompleteLog "block"),s)
  transfers first last s := (.ok ((s.chain.segment first last).flatMap s.events),s)

end Fintrails
