import Fintrails.PollLists
import Fintrails.World

/-! Reorgs deeper than the window.  The blocks below the window that a new branch has replaced
are never retracted, but as long as no reported head lies below the oldest retained block they
are not confirmed anew either: what stands is one block for each height up to the watermark. -/
namespace Fintrails

namespace Tracker

/-- What stands reported is one block for each height from the start block up to the frontier:
of `old`, which the tracker has let go of, and of the chain it retains. -/
structure Layered (W : World) (startBlock : ℕ) (old : List BlockRef) (us : List TrackerUpdate)
    (t : Tracker) : Prop where
  inhabits : t.Inhabits W
  world : ∀ b ∈ old, b ∈ W.blocks
  numbered : Numbered.From BlockRef.number startBlock (old ++ t.chain)
  idle : t.chain = [] → old = [] ∧ t.frontier = 0
  base_le : t.chain ≠ [] → base t.chain ≤ max startBlock t.frontier
  frontier_le : ∀ top ∈ t.head, t.frontier ≤ top.number+1
  standing : reported us = Numbered.slice BlockRef.number 0 t.frontier (old ++ t.chain)

/-- A block that attaches to a retained block, or else takes the place of the oldest of them. -/
def Meets (W : World) (startBlock : ℕ) (t : Tracker) (b : BlockRef) : Prop :=
  b.number < 2^64-1 ∧ b ∈ W.blocks ∧ ((∃ x ∈ t.chain, Attaches b x) ∨
    ((∀ x ∈ t.chain, ¬Attaches b x) ∧ (t.chain = [] → b.number = startBlock) ∧
      (t.chain ≠ [] → b.number = base t.chain)))

variable {W : World} {startBlock : ℕ} {old : List BlockRef} {us : List TrackerUpdate} {t : Tracker}
  {b : BlockRef}

theorem Meets.reaches (hb : t.Meets W startBlock b) : t.Reaches startBlock b := by
  obtain ⟨hnum,-,hcases⟩ := hb
  refine ⟨hnum,fun hnil => ?_,fun hne => ?_⟩
  · rcases hcases with ⟨x,hx,-⟩ | ⟨-,hstart,-⟩
    · rw [hnil] at hx
      cases hx
    · exact (hstart hnil).le
  · exact hcases.imp id fun h => (h.2.2 hne).le

theorem Layered.base_chain (h : Layered W startBlock old us t) (hne : t.chain ≠ []) :
    base t.chain = startBlock+old.length := by
  obtain ⟨x,l,hx⟩ := List.exists_cons_of_ne_nil hne
  have hnum := h.numbered
  rw [hx] at hnum ⊢
  exact ((Numbered.from_append _ _ _).mp hnum).2.1

theorem Layered.numbered_kept (h : Layered W startBlock old us t) (hb : t.Meets W startBlock b) :
    Numbered.From BlockRef.number startBlock (old ++ t.kept b ++ [b]) := by
  have hwhole := h.numbered
  rw [← t.kept_append_orphaned b,← List.append_assoc] at hwhole
  have hparts := (Numbered.from_append _ _ _).mp hwhole
  refine (Numbered.from_append _ _ _).mpr ⟨hparts.1,?_,trivial⟩
  rcases h.inhabits.sound.kept_cases b with ⟨top,htop,ha,hlast,-⟩ | ⟨hnone,hkept,-⟩
  · obtain ⟨l,hl⟩ := List.getLast?_eq_some_iff.mp hlast
    have hnum := hparts.1
    rw [hl,← List.append_assoc] at hnum
    have htopnum := ((Numbered.from_append _ _ _).mp hnum).2.1
    rw [ha.1,htopnum,hl]
    simp only [List.length_append,List.length_singleton]
    omega
  · obtain ⟨-,hidle,hbase⟩ := hb.2.2.resolve_left fun ⟨x,hx,ha⟩ => hnone x hx ha
    rw [hkept,List.append_nil]
    by_cases hchain : t.chain = []
    · rw [hidle hchain,(h.idle hchain).1]
      rfl
    · rw [hbase hchain,h.base_chain hchain]

theorem Layered.old_lt_pulled (h : Layered W startBlock old us t) (b : BlockRef) :
    ∀ x ∈ old, x.number < t.pulled b := by
  intro x hx
  have hlow := ((Numbered.from_append _ _ _).mp h.numbered).1.bounds hx
  by_cases hchain : t.chain = []
  · rw [(h.idle hchain).1] at hx
    cases hx
  have hbase := h.base_chain hchain
  have hle := h.base_le hchain
  rcases h.inhabits.sound.kept_cases b with ⟨top,htop,ha,-,hfrom⟩ | ⟨-,-,horphaned⟩
  · have hnum := ha.1
    have htoplow := (h.inhabits.sound.linked.numbered.bounds htop).1
    rw [pulled_of_attaches hfrom]
    split <;> omega
  · rw [pulled_of_drained horphaned,if_neg hchain]
    omega

theorem Layered.pulled_le_number (h : Layered W startBlock old us t) (hb : t.Meets W startBlock b) :
    t.pulled b ≤ b.number := by
  rcases hb.2.2 with ⟨x,hx,ha⟩ | ⟨hnone,-,hbase⟩
  · exact h.inhabits.sound.pulled_le_number h.frontier_le hx ha
  · rcases h.inhabits.sound.kept_cases b with ⟨top,htop,ha,-⟩ | ⟨-,-,horphaned⟩
    · exact absurd ha (hnone top htop)
    · rw [pulled_of_drained horphaned]
      split
      · rename_i hchain
        rw [(h.idle hchain).2]
        exact Nat.zero_le _
      · rename_i hchain
        rw [hbase hchain]
        exact min_le_right _ _

theorem Layered.standing_kept (h : Layered W startBlock old us t) (b : BlockRef) :
    (reported us).filter (fun x => decide (x.number ∉ (t.orphaned b).map BlockRef.number)) =
      Numbered.slice BlockRef.number 0 (t.pulled b) (old ++ t.kept b) := by
  rw [h.standing,filter_kept h.numbered b]

def letGo (t : Tracker) (b : BlockRef) : List BlockRef :=
  (t.kept b ++ [b]).take ((t.kept b ++ [b]).length-t.window)

theorem letGo_append (t : Tracker) (b : BlockRef) :
    t.letGo b ++ (Tracker.observe t b).1.chain = t.kept b ++ [b] := by
  rw [observe_chain,trim_eq_drop]
  exact List.take_append_drop _ _

/-- One observed block: it stands on what it left in place. -/
theorem Layered.observe (h : Layered W startBlock old us t) (hb : t.Meets W startBlock b) :
    Layered W startBlock (old ++ t.letGo b) (us ++ [(Tracker.observe t b).2])
      (Tracker.observe t b).1 := by
  have hnumbered := h.numbered_kept hb
  have hbelow := h.old_lt_pulled b
  have hpulled := h.pulled_le_number hb
  have hfrontier := observe_frontier t b
  have hmem : ∀ x ∈ t.kept b ++ [b], x ∈ W.blocks := by
    intro x hx
    rcases List.mem_append.mp hx with hx | hx
    · exact h.inhabits.world x (Sound.mem_kept hx)
    · rw [List.mem_singleton.mp hx]
      exact hb.2.1
  have hsame : old ++ t.letGo b ++ (Tracker.observe t b).1.chain = old ++ t.kept b ++ [b] := by
    rw [List.append_assoc,letGo_append,List.append_assoc]
  refine ⟨h.inhabits.observe hb.2.1 hb.1,?_,?_,
    fun hnil => absurd hnil (observe_chain_ne_nil t b),
    fun _ => h.inhabits.sound.base_observe_le h.base_le hb.reaches,?_,?_⟩
  · intro x hx
    rcases List.mem_append.mp hx with hx | hx
    · exact h.world x hx
    · exact hmem x (List.mem_of_mem_take hx)
  · rwa [hsame]
  · intro top htop
    rw [observe_head] at htop
    rw [← Option.some.inj htop]
    omega
  · rw [hsame,reported_concat,observe_reorged,h.standing_kept b,h.inhabits.sound.confirmed,hfrontier,
      ← hnumbered.slice_join (Nat.zero_le (t.pulled b)) (le_max_left _ _)]
    congr 1
    · rw [Numbered.slice_append _ _ (old ++ t.kept b)]
      rw [Numbered.slice_eq_nil (l:=[b]) (by simp; omega),List.append_nil]
    · rw [List.append_assoc,Numbered.slice_append _ _ old,Numbered.slice_eq_nil (l:=old),
        List.nil_append]
      · apply Numbered.slice_congr
        intro x _
        omega
      · intro x hx hle
        have hlt := hbelow x hx
        omega

theorem fresh_layered (W : World) (confirmations window : ℕ) (h : confirmations < window)
    (startBlock : ℕ) : Layered W startBlock [] [] (fresh confirmations window h) where
  inhabits := ⟨fresh_sound _ _ _,by simp [fresh]⟩
  world := by simp
  numbered := trivial
  idle _ := ⟨rfl,rfl⟩
  base_le hne := absurd rfl hne
  frontier_le := by simp [fresh,head]
  standing := rfl

/-- A node whose head is not below the oldest retained block. -/
def InReach (t : Tracker) (s : Node) : Prop := t.chain ≠ [] → base t.chain ≤ s.head

instance inReachDecidable (t : Tracker) (s : Node) : Decidable (t.InReach s) :=
  inferInstanceAs (Decidable (_ → _))

theorem Sound.plan_meets (h : t.Sound) {s : Node} (hs : W.Serves s) (hreach : t.InReach s) :
    Machine.Guarded Tracker.observe (Meets W startBlock) t (t.plan s startBlock) := by
  have hle := s.head_le
  refine h.guarded_plan (fun hhead hstart => ?_) (fun top hhead _ => ?_)
    fun t' n hn hext => ⟨hext.1,hs.2 _ (by omega),.inl hext.attaches⟩
  · have hnil : t.chain = [] := List.getLast?_eq_none_iff.mp hhead
    refine ⟨s.chain.number_lt (by omega),hs.2 _ (by omega),.inr ⟨?_,fun _ =>
      s.chain.number_block startBlock (by omega),fun hne => absurd hnil hne⟩⟩
    simp [hnil]
  · have hne : t.chain ≠ [] := List.ne_nil_of_mem (List.mem_of_getLast? hhead)
    have hfork := (t.fork_le s.chain (walkFrom top s)).trans (walkFrom_le top s)
    have hbase := h.base_le_fork hhead (hreach hne)
    have hcases := h.fork_cases (c:=s.chain) hhead (walkFrom_le_succ top s)
      ((walkFrom_le top s).trans hle)
    refine ⟨s.chain.number_lt (by omega),hs.2 _ (by omega),?_⟩
    by_cases ha : ∃ x ∈ t.chain, Attaches (s.chain.block (t.fork s.chain (walkFrom top s))) x
    · exact .inl ha
    · refine .inr ⟨fun x hx hxa => ha ⟨x,hx,hxa⟩,fun hnil => absurd hnil hne,fun _ => ?_⟩
      rw [s.chain.number_block _ (by omega)]
      exact le_antisymm (hcases.resolve_left ha) hbase

theorem Layered.plan (h : Layered W startBlock old us t) {s : Node} (hs : W.Serves s)
    (hreach : t.InReach s) :
    ∃ old', Layered W startBlock old' (us ++ (observeAll t (t.plan s startBlock)).2)
      (observeAll t (t.plan s startBlock)).1 := by
  have hstep : ∀ vs (t' : Tracker) b, (∃ old', Layered W startBlock old' vs t') →
      t'.Meets W startBlock b →
      ∃ old', Layered W startBlock old' (vs ++ [(Tracker.observe t' b).2])
        (Tracker.observe t' b).1 :=
    fun _ _ _ ⟨_,h'⟩ hb => ⟨_,h'.observe hb⟩
  exact Machine.outputs_invariant hstep ⟨old,h⟩ (h.inhabits.sound.plan_meets hs hreach)

end Tracker

namespace Poller

variable {W : World} {startBlock : ℕ} {results : List (Except PollerError (List IndexerMessage))}
  {p : Poller Node InMemoryCheckpoint} {s : Node}

theorem standingEvents_tick (h : p.tracker.Inhabits W) (hs : W.Serves s) {us : List TrackerUpdate}
    (hstanding : standingEvents (returned results) =
      Standing.standing ChainEvent.blockNumber (us.map (TrackerUpdate.transfers W.events))) :
    standingEvents (returned (results ++ [(p.tick s).2])) =
      Standing.standing ChainEvent.blockNumber
        ((us ++ (Tracker.observeAll p.tracker (p.tracker.plan s p.startBlock)).2).map
          (TrackerUpdate.transfers W.events)) := by
  have hserved := fun u hu => ((h.plan hs p.startBlock).2 u hu).1
  rw [tick_eq p s h.sound save_inMemory,returned_ok,standingEvents_append,hstanding,List.map_append,
    Standing.standing_append,← hs.1]
  exact standingFrom_updates hserved _

def Layers (W : World) (startBlock : ℕ)
    (results : List (Except PollerError (List IndexerMessage)))
    (p : Poller Node InMemoryCheckpoint) : Prop :=
  p.startBlock = startBlock ∧ ∃ old us, p.tracker.Layered W startBlock old us ∧
    standingEvents (returned results) =
      Standing.standing ChainEvent.blockNumber (us.map (TrackerUpdate.transfers W.events))

theorem Layers.tick (h : Layers W startBlock results p) (hs : W.Serves s)
    (hreach : p.tracker.InReach s) :
    Layers W startBlock (results ++ [(p.tick s).2]) (p.tick s).1 := by
  obtain ⟨rfl,old,us,hlayered,hstanding⟩ := h
  obtain ⟨old',hnext⟩ := hlayered.plan hs hreach
  have hstanding' := standingEvents_tick hlayered.inhabits hs hstanding
  have htracker := settled_tracker { p with source := s } (p.tracker.plan s p.startBlock)
  rw [tick_eq p s hlayered.inhabits.sound save_inMemory] at hstanding' ⊢
  exact ⟨settled_startBlock _ _,old',_,by rwa [htracker],hstanding'⟩

/-- One block for each height from the start block up to the watermark: of the chain that is
retained, or below it. -/
structure Stack (W : World) (p : Poller Node InMemoryCheckpoint) (blocks : List BlockRef) : Prop where
  numbers : blocks.map BlockRef.number =
    List.range' p.startBlock (p.tracker.frontier-p.startBlock)
  world : ∀ b ∈ blocks, b ∈ W.blocks
  retained : ∀ b ∈ blocks, b ∈ p.tracker.chain ∨ ∀ x ∈ p.tracker.chain, b.number < x.number

theorem Layers.stack (h : Layers W startBlock results p) :
    ∃ blocks, standingEvents (returned results) = blocks.flatMap W.events ∧ Stack W p blocks := by
  obtain ⟨rfl,old,us,hlayered,hstanding⟩ := h
  have hnumbered := hlayered.numbered
  have hslice := hnumbered.from_slice (a:=0) (b:=p.tracker.frontier)
  have hlength := hnumbered.length_slice 0 p.tracker.frontier
  rw [Nat.max_zero] at hslice hlength
  refine ⟨Numbered.slice BlockRef.number 0 p.tracker.frontier (old ++ p.tracker.chain),?_,?_,?_,?_⟩
  · rw [hstanding,standing_transfers_eq,hlayered.standing]
  · rw [hslice.map_num,hlength]
    have hend : p.tracker.frontier ≤ p.startBlock+(old ++ p.tracker.chain).length := by
      cases hhead : p.tracker.head with
      | none =>
        rw [(hlayered.idle (List.getLast?_eq_none_iff.mp hhead)).2]
        exact Nat.zero_le _
      | some top =>
        have hle := hlayered.frontier_le top hhead
        have hmem := List.mem_append_right old (List.mem_of_getLast? hhead)
        have htop := (hnumbered.bounds hmem).2
        omega
    congr 1
    omega
  · intro b hb
    rcases List.mem_append.mp (Numbered.mem_slice.mp hb).1 with hold | hkept
    · exact hlayered.world b hold
    · exact hlayered.inhabits.world b hkept
  · intro b hb
    rcases List.mem_append.mp (Numbered.mem_slice.mp hb).1 with hold | hkept
    · exact .inr fun x hx => hnumbered.lt_of_append hold hx
    · exact .inl hkept

/-- Over every run, from any checkpoint, of chains that replace each other at any depth, as long
as no reported head lies below the oldest retained block: for every height from the start
block up to the watermark the transfers of exactly one block stand, in order, and nothing else
does; within the window it is the block retained there. -/
theorem stands_once (W : World) (source : Node) (checkpoint : InMemoryCheckpoint)
    (confirmations window : ℕ) (h : confirmations < window) (startBlock : ℕ)
    (p : Poller Node InMemoryCheckpoint)
    (hp : resume source checkpoint (Tracker.fresh confirmations window h) startBlock = .ok p)
    (nodes : List Node)
    (hnodes : Machine.Guarded tick (fun q s => W.Serves s ∧ q.tracker.InReach s) p nodes) :
    ∃ blocks, standingEvents (returned (Machine.outputs tick p nodes)) = blocks.flatMap W.events ∧
      Stack W (Machine.final tick p nodes) blocks := by
  have hstep : ∀ results (q : Poller Node InMemoryCheckpoint) s,
      Layers W p.startBlock results q → (W.Serves s ∧ q.tracker.InReach s) →
      Layers W p.startBlock (results ++ [(q.tick s).2]) (q.tick s).1 :=
    fun _ _ _ hq hs => hq.tick hs.1 hs.2
  have h0 : Layers W p.startBlock [] p := by
    obtain rfl := Except.ok.inj hp
    exact ⟨rfl,[],[],Tracker.fresh_layered _ _ _ _ _,rfl⟩
  exact (Machine.outputs_run hstep h0 hnodes).stack

/-- Blocks 2 to 4 are replaced while only block 4 is retained: the old blocks 2 and 3 stay. -/
theorem stands_once_shallow :
    let p : Poller Node InMemoryCheckpoint := ⟨World.forked.node World.forkedLinear,⟨none⟩,
      Tracker.fresh 0 1 (by decide),0,none,[],[]⟩
    let nodes := [World.forked.node World.forkedLinear,World.forked.node World.forkedBranch]
    ∃ blocks, standingEvents (returned (Machine.outputs tick p nodes)) =
        blocks.flatMap World.forked.events ∧
      Stack World.forked (Machine.final tick p nodes) blocks ∧
      (Machine.final tick p nodes).tracker.frontier = 6 := by
  intro p nodes
  obtain ⟨blocks,hstanding,hstack⟩ := stands_once World.forked (World.forked.node World.forkedLinear)
    ⟨none⟩ 0 1 (by decide) 0 p rfl nodes
    ⟨⟨World.forked_linear,by decide +kernel⟩,⟨World.forked_branch,by decide +kernel⟩,trivial⟩
  exact ⟨blocks,hstanding,hstack,by decide +kernel⟩

/-- A head below the window in between, and height 3 stands twice. -/
example :
    let p : Poller Node InMemoryCheckpoint := ⟨World.forked.node World.forkedLinear,⟨none⟩,
      Tracker.fresh 0 1 (by decide),0,none,[],[]⟩
    let nodes := [World.forked.node World.forkedLinear,
      { World.forked.node World.forkedLinear with head := 2, head_le := by decide },
      World.forked.node World.forkedBranch]
    (standingEvents (returned (Machine.outputs tick p nodes))).map ChainEvent.blockNumber =
      [0,1,3,2,3,4,5] := by
  decide +kernel

end Poller
end Fintrails
