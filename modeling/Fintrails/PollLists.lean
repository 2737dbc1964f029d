import Fintrails.AppendOnly
import Fintrails.Persistence

/-! What exactly one poll hands down over a node that stands still meanwhile, whatever the
polls before it have met: at most one `Reorged`, in front, and behind it the transfers of
one range of the chain that is served, up to the confirmation depth. -/
namespace Fintrails

namespace Tracker

/-- The first height that is not confirmed any more once `orphaned` is rolled back. -/
def nextAfter (t : Tracker) (orphaned : List BlockRef) : ℕ :=
  match orphaned.head? with
  | none => t.frontier
  | some lowest => min t.frontier lowest.number

/-- What holds of the tracker between two polls. -/
structure Poised (startBlock : ℕ) (t : Tracker) : Prop where
  sound : t.Sound
  idle : t.chain = [] → t.frontier = 0
  base_le : t.chain ≠ [] → base t.chain ≤ max startBlock t.frontier
  le_frontier : ∀ top ∈ t.head, top.number+1 ≤ t.frontier+t.confirmations

def firstConfirmed (t : Tracker) (b : BlockRef) : ℕ := max (t.pulled b) (base (t.kept b ++ [b]))

variable {startBlock : ℕ} {t : Tracker} {s : Node} {b : BlockRef}

theorem pulled_eq_nextAfter (t : Tracker) (b : BlockRef) : t.pulled b = t.nextAfter (t.orphaned b) :=
  t.pulled_eq b

theorem Poised.observe (h : t.Poised startBlock) (hb : t.Reaches startBlock b) :
    (Tracker.observe t b).1.Poised startBlock := by
  refine ⟨h.sound.observe hb.1,fun hnil => absurd hnil (observe_chain_ne_nil t b),
    fun _ => h.sound.base_observe_le h.base_le hb,?_⟩
  intro top htop
  rw [observe_head] at htop
  rw [← Option.some.inj htop,observe_frontier,observe_confirmations]
  omega

theorem Poised.plan (h : t.Poised startBlock) (s : Node) :
    (observeAll t (t.plan s startBlock)).1.Poised startBlock :=
  Machine.state_invariant (fun _ _ hpoised hb => hpoised.observe hb) h
    (h.sound.plan_reaches s startBlock)

theorem Sound.firstConfirmed_observe (h : t.Sound) (b : BlockRef) :
    max (Tracker.observe t b).1.frontier (base (Tracker.observe t b).1.chain) =
      max (t.firstConfirmed b) (b.number+1-t.confirmations) := by
  have hle := base_trim_le t.window_exceeds (h.linked_kept b)
  have hlow : base (t.kept b ++ [b]) ≤ base (trim t.window (t.kept b ++ [b])) := by
    have hne := observe_chain_ne_nil t b
    rw [observe_chain] at hne
    obtain ⟨x,l,hx⟩ := List.exists_cons_of_ne_nil hne
    have hmem : x ∈ t.kept b ++ [b] := (trim_suffix _ _).subset (by rw [hx]; simp)
    rw [hx]
    exact ((h.linked_kept b).numbered.bounds hmem).1
  rw [observe_frontier,observe_chain,firstConfirmed]
  omega

theorem Sound.confirmedEvents_observe (h : t.Sound) {n : ℕ} (hn : n ≤ s.chain.height) :
    s.confirmedEvents (Tracker.observe t (s.chain.block n)).2 =
      (s.chain.upTo (t.firstConfirmed (s.chain.block n)) (n+1-t.confirmations)).flatMap s.events := by
  have hlinked := h.linked_kept (s.chain.block n)
  have hend := hlinked.base_concat
  have hnum := s.chain.number_block n hn
  have hconfirmed := h.confirmed (s.chain.block n)
  have hfrom := hlinked.numbered.from_slice (a:=t.pulled (s.chain.block n))
    (b:=n+1-t.confirmations)
  have hlength := hlinked.numbered.length_slice (t.pulled (s.chain.block n)) (n+1-t.confirmations)
  rw [hnum] at hconfirmed hend
  rw [← hconfirmed] at hfrom hlength
  rw [List.length_append,List.length_singleton] at hlength
  rw [firstConfirmed,max_comm]
  cases hlast : (Tracker.observe t (s.chain.block n)).2.confirmed.getLast? with
  | none =>
    rw [List.getLast?_eq_none_iff.mp hlast] at hlength
    rw [Chain.upTo_nil (by simp at hlength; omega)]
    simp [Node.confirmedEvents,Poller.confirmedRange,hlast]
  | some last =>
    obtain ⟨init,hinit⟩ := List.getLast?_eq_some_iff.mp hlast
    obtain ⟨first,rest,hfirst⟩ := List.exists_cons_of_ne_nil (List.ne_nil_of_mem
      (List.mem_of_getLast? hlast))
    have hrange : Poller.confirmedRange (Tracker.observe t (s.chain.block n)).2 =
        some (first.number,last.number) := by
      have hstart : (Tracker.observe t (s.chain.block n)).2.confirmed.head? = some first := by
        rw [hfirst]
        rfl
      simp [Poller.confirmedRange,hlast,hstart]
    have hlow := hfrom
    rw [hfirst] at hlow
    rw [hinit] at hfrom hlength
    have hhigh := ((Numbered.from_append _ init [last]).mp hfrom).2.1
    have hlow' := hlow.1
    rw [List.length_append,List.length_singleton] at hlength
    simp only [Node.confirmedEvents,hrange,Chain.segment,Chain.upTo]
    rw [hlow',show min last.number s.chain.height+1 = n+1-t.confirmations by omega]

theorem messages_observe (h : t.Sound) {n : ℕ} (hn : n ≤ s.chain.height) :
    s.messages (Tracker.observe t (s.chain.block n)).2 =
      Poller.orphanNotice ⟨[],t.orphaned (s.chain.block n)⟩ ++
        ((s.chain.upTo (t.firstConfirmed (s.chain.block n)) (n+1-t.confirmations)).flatMap
          s.events).map .confirmed := by
  rw [Node.messages,h.confirmedEvents_observe hn,Poller.orphanNotice,observe_reorged]
  rfl

theorem Sound.messages_extending (h : t.Sound) {n last first : ℕ} (hlast : last ≤ s.chain.height)
    (hhead : t.head = some (s.chain.block n)) (hn : n ≤ last)
    (hfirst : max t.frontier (base t.chain) = max first (n+1-t.confirmations)) :
    (Tracker.observeAll t (s.chain.segment (n+1) last)).2.flatMap s.messages =
      ((s.chain.upTo (max first (n+1-t.confirmations)) (last+1-t.confirmations)).flatMap
        s.events).map .confirmed := by
  obtain ⟨k,hk⟩ : ∃ k, k = last-n := ⟨_,rfl⟩
  induction k generalizing t n with
  | zero =>
    rw [Chain.segment_nil (by omega),Chain.upTo_nil (by omega)]
    rfl
  | succ k ih =>
    have hext := extends_head (show n < s.chain.height by omega) hhead
    have horphaned : t.orphaned (s.chain.block (n+1)) = [] := by
      obtain ⟨-,top,htop,ha⟩ := hext
      exact h.orphaned_of_head htop ha
    have hkept : t.kept (s.chain.block (n+1)) = t.chain := by
      have hwhole := t.kept_append_orphaned (s.chain.block (n+1))
      rwa [horphaned,List.append_nil] at hwhole
    have hne : t.chain ≠ [] := List.ne_nil_of_mem (List.mem_of_getLast? hhead)
    have hnum := s.chain.number_block (n+1) (by omega)
    have hsame : t.firstConfirmed (s.chain.block (n+1)) = max first (n+1-t.confirmations) := by
      rw [firstConfirmed,pulled_eq_nextAfter,horphaned,hkept,base_append hne]
      exact hfirst
    have hnext := h.firstConfirmed_observe (s.chain.block (n+1))
    rw [hsame,hnum] at hnext
    have hrest := @ih _ (h.observe (s.chain.number_lt (by omega))) (n+1) (observe_head _ _) (by omega)
      (by rw [observe_confirmations,hnext]; omega) (by omega)
    rw [observe_confirmations] at hrest
    have hjoin := @Chain.upTo_append s.chain (max first (n+1-t.confirmations))
      (n+1+1-t.confirmations) (last+1-t.confirmations) (by omega)
    rw [show max (max first (n+1-t.confirmations)) (n+1+1-t.confirmations) =
      max first (n+1+1-t.confirmations) by omega] at hjoin
    rw [Chain.segment_cons (by omega) hlast,observeAll_cons,List.flatMap_cons,
      messages_observe h (by omega),horphaned,hsame,hrest,← hjoin,List.flatMap_append,
      List.map_append]
    rfl

theorem Sound.messages_plan (h : t.Sound) {first : ℕ} (hle : first ≤ s.head) :
    (Tracker.observeAll t (s.chain.segment first s.head)).2.flatMap s.messages =
      Poller.orphanNotice ⟨[],t.orphaned (s.chain.block first)⟩ ++
        ((s.chain.upTo (t.firstConfirmed (s.chain.block first)) (s.head+1-t.confirmations)).flatMap
          s.events).map .confirmed := by
  have hheight := s.head_le
  have hnum := s.chain.number_block first (by omega)
  have hnext := h.firstConfirmed_observe (s.chain.block first)
  rw [hnum] at hnext
  have hrest := (h.observe (s.chain.number_lt (n:=first) (by omega))).messages_extending hheight
    (observe_head _ _) hle hnext
  rw [observe_confirmations] at hrest
  rw [Chain.segment_cons hle hheight,observeAll_cons,List.flatMap_cons,messages_observe h (by omega),
    hrest,List.append_assoc,← List.map_append,← List.flatMap_append,s.chain.upTo_append (by omega)]

/-- The number of the oldest of some blocks, or the start block. -/
def oldest (startBlock : ℕ) (l : List BlockRef) : ℕ :=
  (l.head?.map BlockRef.number).getD startBlock

theorem oldest_eq_base {l : List BlockRef} (hne : l ≠ []) (startBlock : ℕ) :
    oldest startBlock l = base l := by
  obtain ⟨b,l,rfl⟩ := List.exists_cons_of_ne_nil hne
  rfl

/-- What the messages of one poll look like, of the retained blocks of which it keeps the older
and orphans the newer ones: the first height is the first that is not confirmed any more, but
not below the oldest block that is kept, or else the first that the poll feeds. -/
structure Shaped (startBlock : ℕ) (t : Tracker) (s : Node) (kept orphaned : List BlockRef)
    (msgs : List IndexerMessage) : Prop where
  split : kept ++ orphaned = t.chain
  messages : msgs = Poller.orphanNotice ⟨[],orphaned⟩ ++ ((s.chain.upTo
    (max (t.nextAfter orphaned) (oldest startBlock (kept ++ t.plan s startBlock)))
    (s.head+1-t.confirmations)).flatMap s.events).map .confirmed
  no_gap : max (t.nextAfter orphaned) (oldest startBlock (kept ++ t.plan s startBlock)) ≤
    max startBlock (t.nextAfter orphaned)

theorem Poised.shaped_segment (h : t.Poised startBlock) {first : ℕ} (hle : first ≤ s.head)
    (hplan : t.plan s startBlock = s.chain.segment first s.head)
    (hreaches : t.Reaches startBlock (s.chain.block first)) :
    ∃ kept orphaned, Shaped startBlock t s kept orphaned
      ((Tracker.observeAll t (t.plan s startBlock)).2.flatMap s.messages) := by
  have hheight := s.head_le
  have hbase := h.sound.base_kept_le h.base_le hreaches
  have holdest : oldest startBlock (t.kept (s.chain.block first) ++ t.plan s startBlock) =
      base (t.kept (s.chain.block first) ++ [s.chain.block first]) := by
    rw [hplan,Chain.segment_cons hle hheight,← List.singleton_append,← List.append_assoc,
      oldest_eq_base (by simp),base_append (by simp)]
  refine ⟨t.kept (s.chain.block first),t.orphaned (s.chain.block first),
    t.kept_append_orphaned _,?_,?_⟩ <;> rw [holdest,← pulled_eq_nextAfter]
  · rw [hplan]
    exact h.sound.messages_plan hle
  · omega

theorem Poised.shaped (h : t.Poised startBlock) (s : Node) :
    ∃ kept orphaned, Shaped startBlock t s kept orphaned
      ((Tracker.observeAll t (t.plan s startBlock)).2.flatMap s.messages) := by
  have hreaches := h.sound.plan_reaches s startBlock
  have hle := s.head_le
  -- a poll that feeds nothing has nothing to hand down
  have hquiet : t.plan s startBlock = [] →
      s.head+1-t.confirmations ≤ max t.frontier (oldest startBlock t.chain) →
      ∃ kept orphaned, Shaped startBlock t s kept orphaned
        ((Tracker.observeAll t (t.plan s startBlock)).2.flatMap s.messages) := by
    intro hplan hend
    refine ⟨t.chain,[],List.append_nil _,?_,?_⟩ <;> rw [hplan,List.append_nil]
    · rw [show t.nextAfter [] = t.frontier from rfl,Chain.upTo_nil hend]
      rfl
    · by_cases hne : t.chain = []
      · rw [hne]
        exact (max_comm _ _).le
      · rw [oldest_eq_base hne]
        have hbase := h.base_le hne
        change max t.frontier _ ≤ max startBlock t.frontier
        omega
  cases hhead : t.head with
  | none =>
    have hplan := plan_idle hhead s startBlock
    by_cases hstart : startBlock ≤ s.head
    · rw [hplan,Chain.segment_cons hstart hle] at hreaches
      exact h.shaped_segment hstart hplan hreaches.1
    · refine hquiet (by rw [hplan,Chain.segment_nil (by omega)]) ?_
      rw [List.getLast?_eq_none_iff.mp hhead]
      change _ ≤ max t.frontier startBlock
      omega
  | some top =>
    rcases plan_cases hhead s startBlock with ⟨hplan,hlow,-⟩ | ⟨hplan,-⟩
    · have hreached := h.le_frontier top hhead
      exact hquiet hplan (by omega)
    · have hfork := (t.fork_le s.chain (walkFrom top s)).trans (walkFrom_le top s)
      rw [hplan,Chain.segment_cons hfork hle] at hreaches
      exact h.shaped_segment hfork hplan hreaches.1

theorem fresh_poised (confirmations window : ℕ) (h : confirmations < window) (startBlock : ℕ) :
    (fresh confirmations window h).Poised startBlock :=
  ⟨fresh_sound _ _ _,fun _ => rfl,fun hne => absurd rfl hne,fun top htop => by cases htop⟩

end Tracker

namespace Poller

theorem poised_tick {p : Poller Node InMemoryCheckpoint} {startBlock : ℕ}
    (h : p.startBlock = startBlock ∧ p.tracker.Poised startBlock) (s : Node) :
    (p.tick s).1.startBlock = startBlock ∧ (p.tick s).1.tracker.Poised startBlock := by
  obtain ⟨rfl,hpoised⟩ := h
  rw [tick_eq p s hpoised.sound save_inMemory,settled_tracker,settled_startBlock]
  exact ⟨rfl,hpoised.plan s⟩

/-- Over any run, from any checkpoint and whatever chains the polls have met: the list that the
next poll returns has at most one `Reorged`, in front, which names the newest blocks retained,
and behind it the transfers of the chain now served, from the first height that is not
confirmed (any more) up to the confirmation depth, in order and each block once. -/
theorem poll_lists (source : Node) (checkpoint : InMemoryCheckpoint) (confirmations window : ℕ)
    (h : confirmations < window) (startBlock : ℕ) (p : Poller Node InMemoryCheckpoint)
    (hp : resume source checkpoint (Tracker.fresh confirmations window h) startBlock = .ok p)
    (nodes : List Node) (s : Node) :
    ∃ msgs kept orphaned, ((Machine.final tick p nodes).tick s).2 = .ok msgs ∧
      (Machine.final tick p nodes).tracker.Shaped p.startBlock s kept orphaned msgs := by
  have h0 : p.tracker.Poised p.startBlock := by
    obtain rfl := Except.ok.inj hp
    exact Tracker.fresh_poised _ _ _ _
  have hall : Machine.Guarded tick (fun _ _ => True) p nodes :=
    Machine.guarded_of_forall fun _ _ _ => trivial
  have hstep : ∀ (q : Poller Node InMemoryCheckpoint) (s : Node),
      q.startBlock = p.startBlock ∧ q.tracker.Poised p.startBlock → True →
      (q.tick s).1.startBlock = p.startBlock ∧ (q.tick s).1.tracker.Poised p.startBlock :=
    fun _ s hq _ => poised_tick hq s
  obtain ⟨hstart,hpoised⟩ := Machine.state_invariant hstep ⟨rfl,h0⟩ hall
  obtain ⟨kept,orphaned,hshaped⟩ := hpoised.shaped s
  refine ⟨_,kept,orphaned,?_,hshaped⟩
  rw [tick_eq _ s hpoised.sound save_inMemory,hstart]
  rfl

/-- Blocks 2 to 4 are replaced by blocks 2' to 5', between two polls of a poller that resumed at
height 0. -/
theorem poll_lists_forked :
    let p : Poller Node InMemoryCheckpoint := ⟨World.forked.node World.forkedLinear,⟨some 0⟩,
      Tracker.fresh 1 4 (by decide),1,some 0,[],[]⟩
    ∃ msgs kept orphaned,
      ((Machine.final tick p [World.forked.node World.forkedLinear]).tick
        (World.forked.node World.forkedBranch)).2 = .ok msgs ∧
      (Machine.final tick p [World.forked.node World.forkedLinear]).tracker.Shaped 1
        (World.forked.node World.forkedBranch) kept orphaned msgs ∧
      kept.length+orphaned.length = 4 := by
  intro p
  obtain ⟨msgs,kept,orphaned,hmsgs,hshaped⟩ := poll_lists (World.forked.node World.forkedLinear)
    ⟨some 0⟩ 1 4 (by decide) 0 p rfl [World.forked.node World.forkedLinear]
    (World.forked.node World.forkedBranch)
  refine ⟨msgs,kept,orphaned,hmsgs,hshaped,?_⟩
  rw [← List.length_append,hshaped.split]
  decide +kernel

end Poller
end Fintrails
