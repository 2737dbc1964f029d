import Mathlib.Data.Set.Function
import Fintrails.Feeding
import Fintrails.TrackerReports

/-! The blocks that exist, whichever chain is canonical at the moment.  Hashes do not
collide among them, so a linked list that ends on a chain lies on that chain, and
what a node serves for the blocks an update confirms are the transfers of those
blocks. -/
namespace Fintrails

/-- Every block of every chain that is ever canonical, and the transfers in each. -/
structure World where
  blocks : Set BlockRef
  events : BlockRef → List ChainEvent
  hash_inj : Set.InjOn BlockRef.hash blocks
  events_number : ∀ b, ∀ e ∈ events b, e.blockNumber = b.number

namespace World

variable {W : World}

/-- The node serves a chain of this world, and the transfers of its blocks. -/
def Serves (W : World) (s : Node) : Prop :=
  s.events = W.events ∧ ∀ n ≤ s.chain.height, s.chain.block n ∈ W.blocks

/-- A linked list that ends on a chain lies on it. -/
theorem Serves.on_chain {s : Node} (h : W.Serves s) {l : List BlockRef} (hl : Linked l)
    (hmem : ∀ b ∈ l, b ∈ W.blocks) {n : ℕ} (hn : n ≤ s.chain.height)
    (hlast : l.getLast? = some (s.chain.block n)) :
    ∀ b ∈ l, b = s.chain.block b.number ∧ b.number ≤ s.chain.height := by
  induction l using List.reverseRecOn generalizing n with
  | nil => simp
  | append_singleton l top ih =>
    have htop : top = s.chain.block n := by simpa using hlast
    have hnum := s.chain.number_block n hn
    intro b hb
    rcases List.mem_append.mp hb with hb | hb
    · obtain ⟨y,hy⟩ := Option.isSome_iff_exists.mp
        (List.getLast?_isSome.mpr (List.ne_nil_of_mem hb))
      have hlink := List.isChain_append.mp hl
      have hstep := hlink.2.2 y hy top (by simp)
      have hyn : n = y.number+1 := by
        rw [← hstep.1,htop,hnum]
      have hlow := s.chain.linked y.number (by omega)
      rw [← hyn,← htop,hstep.2] at hlow
      have hyb : y = s.chain.block y.number :=
        W.hash_inj (hmem y (List.mem_append_left _ (List.mem_of_getLast? hy)))
          (h.2 _ (by omega)) hlow
      refine ih hl.append_left (fun x hx => hmem x (List.mem_append_left _ hx))
        (n:=y.number) (by omega) ?_ b hb
      rw [← hyb]
      exact hy
    · rw [List.mem_singleton.mp hb,htop,hnum]
      exact ⟨rfl,hn⟩

theorem eq_segment {c : Chain} {lo : ℕ} {l : List BlockRef}
    (hfrom : Numbered.From BlockRef.number lo l)
    (hl : ∀ b ∈ l, b = c.block b.number ∧ b.number ≤ c.height) (hne : l ≠ []) :
    l = c.segment lo (lo+l.length-1) := by
  have hpos : 0 < l.length := List.length_pos_of_ne_nil hne
  obtain ⟨b,hb,hnum⟩ := hfrom.exists_num (n:=lo+l.length-1) (by omega) (by omega)
  have hle := (hl b hb).2
  rw [Chain.segment,show min (lo+l.length-1) c.height+1-lo = l.length by omega]
  exact hfrom.eq_map fun b hb => (hl b hb).1

/-- What a node serves for an update whose confirmed blocks lie on its chain. -/
theorem confirmedEvents_eq {s : Node} {u : TrackerUpdate} {lo : ℕ}
    (hfrom : Numbered.From BlockRef.number lo u.confirmed)
    (hl : ∀ b ∈ u.confirmed, b = s.chain.block b.number ∧ b.number ≤ s.chain.height) :
    s.confirmedEvents u = u.confirmed.flatMap s.events := by
  by_cases hne : u.confirmed = []
  · simp [Node.confirmedEvents,Poller.confirmedRange,hne]
  · obtain ⟨first,rest,hfirst⟩ := List.exists_cons_of_ne_nil hne
    obtain ⟨init,last,hlast⟩ := (List.eq_nil_or_concat' u.confirmed).resolve_left hne
    have hlo : first.number = lo := by
      rw [hfirst] at hfrom
      exact hfrom.1
    have hhi : last.number = lo+u.confirmed.length-1 := by
      rw [hlast] at hfrom ⊢
      rw [((Numbered.from_append _ _ _).mp hfrom).2.1]
      simp
    have hrange : Poller.confirmedRange u = some (first.number,last.number) := by
      have h1 : u.confirmed.head? = some first := by rw [hfirst]; rfl
      have h2 : u.confirmed.getLast? = some last := by rw [hlast]; simp
      simp [Poller.confirmedRange,h1,h2]
    simp only [Node.confirmedEvents,hrange]
    rw [hlo,hhi,← eq_segment hfrom hl hne]

def node (W : World) (c : Chain) : Node := { Node.quiet c with events := W.events }

def busy (l : List BlockRef) (h : ∀ a ∈ l, ∀ b ∈ l, a.hash = b.hash → a = b) : World where
  blocks := {b | b ∈ l}
  events b := [⟨0,0,0,1,b.number,b.hash,0⟩]
  hash_inj := h
  events_number := by simp

def linear : World :=
  busy ((Chain.linear 5 (by decide)).segment 0 5) (by decide +kernel)

theorem linear_serves {height : ℕ} (h : height ≤ 5) (hlt : height < 2^64-1) :
    linear.Serves (linear.node (.linear height hlt)) := by
  refine ⟨rfl,fun n hn => ?_⟩
  have hn' : n ≤ height := hn
  refine Chain.mem_segment.mpr ⟨n,by omega,by omega,show n ≤ 5 by omega,?_⟩
  change (if n < 5+1 then _ else _) = if n < height+1 then _ else _
  rw [if_pos (by omega),if_pos (by omega)]

def linearAt (head : ℕ) (h : head ≤ 5) : Node :=
  ⟨.linear 5 (by decide),linear.events,head,h⟩

def forkedLinear : Chain := .linear 4 (by decide)

def forkedBranch : Chain := .branching 2 5 (by decide)

/-- A linear chain of five blocks, and a longer one that leaves it after block 1. -/
def forked : World := busy (forkedLinear.segment 0 4 ++ forkedBranch.segment 2 5) (by decide +kernel)

theorem forked_linear : forked.Serves (forked.node forkedLinear) := by
  have hmem : ∀ n ≤ 4, forkedLinear.block n ∈
      forkedLinear.segment 0 4 ++ forkedBranch.segment 2 5 := by decide +kernel
  exact ⟨rfl,hmem⟩

theorem forked_branch : forked.Serves (forked.node forkedBranch) := by
  have hmem : ∀ n ≤ 5, forkedBranch.block n ∈
      forkedLinear.segment 0 4 ++ forkedBranch.segment 2 5 := by decide +kernel
  exact ⟨rfl,hmem⟩

end World

/-- What a message means to a consumer that holds transfers by block number. -/
def IndexerMessage.batch : IndexerMessage → Standing.Batch ChainEvent
  | .confirmed e => ⟨[],[e]⟩
  | .reorged orphaned => ⟨orphaned.map BlockRef.number,[]⟩

/-- The transfers handed down and not retracted: a `Reorged` retracts every event whose
block number it names. -/
def standingEvents (msgs : List IndexerMessage) : List ChainEvent :=
  Standing.standing ChainEvent.blockNumber (msgs.map IndexerMessage.batch)

theorem standingEvents_append (msgs new : List IndexerMessage) :
    standingEvents (msgs++new) = Standing.standingFrom ChainEvent.blockNumber
      (standingEvents msgs) (new.map IndexerMessage.batch) := by
  rw [standingEvents,List.map_append,Standing.standing_append]
  rfl

theorem Node.mem_messages {s : Node} {u : TrackerUpdate} {m : IndexerMessage}
    (hm : m ∈ s.messages u) :
      m = .reorged u.reorged ∨ ∃ e ∈ s.confirmedEvents u, m = .confirmed e := by
  rcases List.mem_append.mp hm with hm | hm
  · unfold Poller.orphanNotice at hm
    split at hm
    · cases hm
    · exact .inl (List.mem_singleton.mp hm)
  · obtain ⟨e,he,rfl⟩ := List.mem_map.mp hm
    exact .inr ⟨e,he,rfl⟩

theorem Node.mem_retracted {s : Node} {u : TrackerUpdate} {m : IndexerMessage}
    (hm : m ∈ s.messages u) {n : ℕ} (hn : n ∈ m.batch.retracted) : ∃ x ∈ u.reorged, x.number = n := by
  obtain rfl | ⟨e,-,rfl⟩ := s.mem_messages hm
  · exact List.mem_map.mp hn
  · cases hn

def TrackerUpdate.transfers (events : BlockRef → List ChainEvent) (u : TrackerUpdate) :
    Standing.Batch ChainEvent :=
  ⟨u.reorged.map BlockRef.number,u.confirmed.flatMap events⟩

theorem standingFrom_messages {s : Node} {u : TrackerUpdate}
    (h : s.confirmedEvents u = u.confirmed.flatMap s.events) (held : List ChainEvent) :
    Standing.standingFrom ChainEvent.blockNumber held ((s.messages u).map IndexerMessage.batch) =
      Standing.absorb ChainEvent.blockNumber held (u.transfers s.events) := by
  have hsingles : ((s.confirmedEvents u).map IndexerMessage.confirmed).map IndexerMessage.batch =
      (u.confirmed.flatMap s.events).map fun e => ⟨[],[e]⟩ := by
    rw [h,List.map_map]
    rfl
  simp only [Node.messages,List.map_append,hsingles,Standing.standingFrom,List.foldl_append]
  refine (Standing.standingFrom_singles _ _).trans ?_
  by_cases hr : u.reorged = []
  · simp [Poller.orphanNotice,hr,TrackerUpdate.transfers]
  · have hr' : u.reorged.isEmpty = false := by simpa using hr
    simp [Poller.orphanNotice,hr',TrackerUpdate.transfers,Standing.absorb,IndexerMessage.batch]

theorem standingFrom_updates {s : Node} {us : List TrackerUpdate}
    (h : ∀ u ∈ us, s.confirmedEvents u = u.confirmed.flatMap s.events) (held : List ChainEvent) :
    Standing.standingFrom ChainEvent.blockNumber held
        ((us.flatMap s.messages).map IndexerMessage.batch) =
      Standing.standingFrom ChainEvent.blockNumber held
        (us.map (TrackerUpdate.transfers s.events)) := by
  induction us generalizing held with
  | nil => rfl
  | cons u us ih =>
    have hu := standingFrom_messages (h u (by simp)) held
    have hus := ih (fun v hv => h v (by simp [hv]))
      (Standing.absorb ChainEvent.blockNumber held (u.transfers s.events))
    simp only [Standing.standingFrom,List.flatMap_cons,List.map_append,List.foldl_append,
      List.map_cons,List.foldl_cons] at hu hus ⊢
    rw [hu,hus]

theorem standing_transfers_eq (W : World) (us : List TrackerUpdate) :
    Standing.standing ChainEvent.blockNumber (us.map (TrackerUpdate.transfers W.events)) =
      (reported us).flatMap W.events := by
  have hh := (@Standing.standing_flatMap _ _ BlockRef.number ChainEvent.blockNumber W.events
    (us.map TrackerUpdate.batch) fun _ _ b _ e he => W.events_number b e he).1
  rw [List.map_map] at hh
  exact hh

namespace Tracker

variable {W : World}

/-- The tracker holds only blocks of the world. -/
structure Inhabits (W : World) (t : Tracker) : Prop where
  sound : t.Sound
  world : ∀ x ∈ t.chain, x ∈ W.blocks

theorem Inhabits.observe {t : Tracker} (h : t.Inhabits W) {b : BlockRef} (hb : b ∈ W.blocks)
    (hnum : b.number < 2^64-1) : (observe t b).1.Inhabits W := by
  refine ⟨h.sound.observe hnum,?_⟩
  intro x hx
  rw [observe_chain] at hx
  rcases List.mem_append.mp ((trim_suffix _ _).subset hx) with hx | hx
  · exact h.world x (Sound.mem_kept hx)
  · rw [List.mem_singleton.mp hx]
    exact hb

theorem Inhabits.confirmed_on_chain {t : Tracker} (h : t.Inhabits W) {s : Node}
    (hs : W.Serves s) {n : ℕ} (hn : n ≤ s.chain.height) :
    ∀ b ∈ (Tracker.observe t (s.chain.block n)).2.confirmed,
      b = s.chain.block b.number ∧ b.number ≤ s.chain.height := by
  have hmem : ∀ x ∈ t.kept (s.chain.block n) ++ [s.chain.block n], x ∈ W.blocks := by
    intro x hx
    rcases List.mem_append.mp hx with hx | hx
    · exact h.world x (Sound.mem_kept hx)
    · rw [List.mem_singleton.mp hx]
      exact hs.2 n hn
  intro b hb
  rw [h.sound.confirmed] at hb
  exact hs.on_chain (h.sound.linked_kept _) hmem hn (by simp) b (Numbered.mem_slice.mp hb).1

theorem Inhabits.confirmedEvents {t : Tracker} (h : t.Inhabits W) {s : Node}
    (hs : W.Serves s) {n : ℕ} (hn : n ≤ s.chain.height) :
    s.confirmedEvents (Tracker.observe t (s.chain.block n)).2 =
      (Tracker.observe t (s.chain.block n)).2.confirmed.flatMap s.events := by
  have hfrom := (h.sound.linked_kept (s.chain.block n)).numbered.from_slice
    (a:=t.pulled (s.chain.block n)) (b:=(s.chain.block n).number+1-t.confirmations)
  rw [← h.sound.confirmed] at hfrom
  exact World.confirmedEvents_eq hfrom (h.confirmed_on_chain hs hn)

/-- Whatever part of its chain a node feeds, the blocks that are confirmed lie on it, and
it serves their transfers. -/
theorem Inhabits.observeAll {t : Tracker} (h : t.Inhabits W) {s : Node} (hs : W.Serves s)
    {bs : List BlockRef} (hbs : ∀ b ∈ bs, ∃ n ≤ s.chain.height, s.chain.block n = b) :
    (Tracker.observeAll t bs).1.Inhabits W ∧ ∀ u ∈ (Tracker.observeAll t bs).2,
      s.confirmedEvents u = u.confirmed.flatMap s.events ∧
        ∀ b ∈ u.confirmed, b = s.chain.block b.number := by
  have hstep : ∀ us (t' : Tracker) b,
      (t'.Inhabits W ∧ ∀ u ∈ us, s.confirmedEvents u = u.confirmed.flatMap s.events ∧
        ∀ b ∈ u.confirmed, b = s.chain.block b.number) →
      (∃ n ≤ s.chain.height, s.chain.block n = b) →
      (Tracker.observe t' b).1.Inhabits W ∧ ∀ u ∈ us ++ [(Tracker.observe t' b).2],
        s.confirmedEvents u = u.confirmed.flatMap s.events ∧
          ∀ b ∈ u.confirmed, b = s.chain.block b.number := by
    rintro us t' b ⟨h',hus⟩ ⟨n,hn,rfl⟩
    refine ⟨h'.observe (hs.2 n hn) (s.chain.number_lt hn),?_⟩
    intro u hu
    rcases List.mem_append.mp hu with hu | hu
    · exact hus u hu
    · rw [List.mem_singleton.mp hu]
      exact ⟨h'.confirmedEvents hs hn,fun b hb => (h'.confirmed_on_chain hs hn b hb).1⟩
  have hrun := Machine.outputs_run hstep ⟨h,by simp⟩
    (Machine.guarded_of_forall fun b hb _ => hbs b hb)
  exact hrun

theorem Inhabits.plan {t : Tracker} (h : t.Inhabits W) {s : Node} (hs : W.Serves s)
    (startBlock : ℕ) : (Tracker.observeAll t (t.plan s startBlock)).1.Inhabits W ∧
      ∀ u ∈ (Tracker.observeAll t (t.plan s startBlock)).2,
        s.confirmedEvents u = u.confirmed.flatMap s.events ∧
          ∀ b ∈ u.confirmed, b = s.chain.block b.number :=
  h.observeAll hs fun _ hb => mem_plan hb

end Tracker
end Fintrails
