import Fintrails.TrackerWindow
import Fintrails.World

/-! Two pollers that differ only in the windows of their trackers.  The walk of `feed` reads the
retained blocks too, and the wider tracker retains more of them; but as long as the chain that
is served has a block the narrow one retains, both walk back to the same fork point. -/
namespace Fintrails

namespace Tracker

/-- The chain has, at or below the reported head, the hash of a retained block. -/
def Overlaps (t : Tracker) (s : Node) : Prop :=
  t.chain = [] ∨ ∃ x ∈ t.chain, x.number ≤ s.head ∧ (s.chain.block x.number).hash = x.hash

instance overlapsDecidable (t : Tracker) (s : Node) : Decidable (t.Overlaps s) :=
  inferInstanceAs (Decidable (_ ∨ _))

variable {t wide : Tracker} {c : Chain} {s : Node} {x : BlockRef} {n startBlock : ℕ}

theorem Widens.head_eq (h : Widens t wide) : wide.head = t.head := by
  obtain ⟨e,hchain,-,hempty⟩ := h.extra
  rw [head,head,hchain]
  by_cases hnil : t.chain = []
  · rw [hempty hnil,hnil]
    rfl
  · exact List.getLast?_append_of_ne_nil _ hnil

theorem Widens.blockAt_eq (h : Widens t wide) (hx : x ∈ t.chain) (hn : x.number ≤ n) :
    wide.blockAt n = t.blockAt n := by
  obtain ⟨e,hchain,-,-⟩ := h.extra
  have hnum := h.wide_sound.linked.numbered
  rw [hchain] at hnum
  have hnone : e.find? (fun b => b.number == n) = none := by
    rw [List.find?_eq_none]
    intro y hy
    have hlt := hnum.lt_of_append hy hx
    simp only [beq_iff_eq]
    omega
  rw [blockAt,blockAt,hchain,List.find?_append,hnone]
  rfl

/-- The walk stops above a retained block whose hash is the canonical one. -/
theorem Sound.lt_fork (h : t.Sound) (hx : x ∈ t.chain) (hhash : (c.block x.number).hash = x.hash)
    (hn : x.number < n) (hheight : n ≤ c.height) : x.number < t.fork c n := by
  by_contra hle
  obtain ⟨known,hknown,hne⟩ := t.fork_mismatch c (n:=n) (j:=x.number) (by omega) hn
  rw [h.blockAt_mem hx] at hknown
  rw [← Option.some.inj hknown,c.linked x.number (by omega)] at hne
  exact hne hhash.symm

theorem Widens.fork_eq (h : Widens t wide) (hx : x ∈ t.chain)
    (hhash : (c.block x.number).hash = x.hash) (hn : x.number < n) (hheight : n ≤ c.height) :
    wide.fork c n = t.fork c n := by
  induction n with
  | zero => rfl
  | succ n ih =>
    have hat := h.blockAt_eq hx (n:=n) (by omega)
    simp only [fork,hat]
    cases hknown : t.blockAt n with
    | none => rfl
    | some known =>
      by_cases hmatch : known.hash = (c.block (n+1)).parentHash
      · simp [hmatch]
      · -- the walk goes on, so that it has not reached `x`
        have hlower : x.number ≠ n := by
          rintro rfl
          rw [h.sound.blockAt_mem hx] at hknown
          rw [← Option.some.inj hknown,c.linked x.number (by omega)] at hmatch
          exact hmatch hhash.symm
        simpa [hmatch] using ih (by omega) (by omega)

/-- Both trackers are fed the same blocks. -/
theorem Widens.plan_eq (h : Widens t wide) (ho : t.Overlaps s) (startBlock : ℕ) :
    wide.plan s startBlock = t.plan s startBlock := by
  have hle := s.head_le
  rcases ho with hnil | ⟨x,hx,hlow,hhash⟩
  · have hnone : t.head = none := by rw [head,hnil]; rfl
    rw [plan_idle hnone,plan_idle (h.head_eq.trans hnone)]
  · simp only [plan,h.head_eq]
    cases htop : t.head with
    | none => rfl
    | some top =>
      have hend := h.sound.linked.number_le htop hx
      by_cases hgrew : top.number < s.head
      · simp only [hgrew,if_true]
        rw [h.fork_eq hx hhash (by omega) (by omega)]
      · simp only [hgrew,if_false,h.blockAt_eq hx hlow]
        by_cases hsame : (t.blockAt s.head).any fun b => b.hash == (s.chain.block s.head).hash
        · simp only [hsame,if_true]
        · have hbelow : x.number ≠ s.head := by
            intro heq
            rw [← heq,h.sound.blockAt_mem hx] at hsame
            exact hsame (by simp [hhash])
          simp only [hsame]
          rw [h.fork_eq hx hhash (by omega) hle]

theorem Sound.plan_forksInside (h : t.Sound) (ho : t.Overlaps s) :
    Machine.Guarded Tracker.observe ForksInside t (t.plan s startBlock) := by
  have hle := s.head_le
  refine h.guarded_plan (fun hhead hstart => ?_) (fun top hhead hchanged => ?_)
    fun t' n hn hext => ⟨hext.1,.inr hext.attaches⟩
  · exact ⟨s.chain.number_lt (by omega),.inl (List.getLast?_eq_none_iff.mp hhead)⟩
  · obtain ⟨x,hx,hlow,hhash⟩ := ho.resolve_left (List.ne_nil_of_mem (List.mem_of_getLast? hhead))
    have hwalk := walkFrom_le top s
    have hfork := t.fork_le s.chain (walkFrom top s)
    have hend := h.linked.number_le hhead hx
    have hbase := (h.linked.numbered.bounds hx).1
    have hbelow : x.number < walkFrom top s := by
      by_contra hge
      have hsame : x.number = s.head ∧ s.head ≤ top.number := by
        unfold walkFrom at hge
        split at hge <;> omega
      refine hchanged hsame.2 x (hsame.1 ▸ h.blockAt_mem hx) ?_
      rw [← hsame.1,hhash]
    have habove := h.lt_fork hx hhash hbelow (hwalk.trans hle)
    have hcases := h.fork_cases (c:=s.chain) hhead (walkFrom_le_succ top s) (hwalk.trans hle)
    exact ⟨s.chain.number_lt (by omega),.inr (hcases.resolve_right (by omega))⟩

theorem Widens.observeAll (h : Widens t wide) (ho : t.Overlaps s) (startBlock : ℕ) :
    (Tracker.observeAll t (t.plan s startBlock)).2 =
        (Tracker.observeAll wide (wide.plan s startBlock)).2 ∧
      Widens (Tracker.observeAll t (t.plan s startBlock)).1
        (Tracker.observeAll wide (wide.plan s startBlock)).1 := by
  have hstep : ∀ t wide b, Widens t wide → t.ForksInside b →
      (Tracker.observe t b).2 = (Tracker.observe wide b).2 ∧
        Widens (Tracker.observe t b).1 (Tracker.observe wide b).1 :=
    fun t wide b hR hb => hR.observe hb
  rw [h.plan_eq ho]
  exact Machine.simulation hstep h (h.sound.plan_forksInside ho)

end Tracker

namespace Poller

variable {C : Type} [Checkpoint C]

def tracking (p : Poller Node C) (t : Tracker) : Poller Node C := { p with tracker := t }

theorem settled_tracking (p : Poller Node C) {wide : Tracker} {bs bs' : List BlockRef}
    (hupdates : (Tracker.observeAll p.tracker bs).2 = (Tracker.observeAll wide bs').2)
    (hwatermark : (Tracker.observeAll wide bs').1.confirmedHeight =
      (Tracker.observeAll p.tracker bs).1.confirmedHeight) :
    (p.tracking wide).settled bs' = (p.settled bs).tracking (Tracker.observeAll wide bs').1 := by
  have hdue : ((p.tracking wide).observed bs').dueSave = (p.observed bs).dueSave := by
    simp only [dueSave,observed,tracking,hwatermark]
    rfl
  simp only [settled,hdue]
  cases (p.observed bs).dueSave <;> simp [observed,tracking,hupdates]

theorem tracking_tick {p : Poller Node C} {wide : Tracker} (h : Tracker.Widens p.tracker wide)
    (hsave : ∀ height (c : C), (Checkpoint.save height c).1 = .ok ()) {s : Node}
    (ho : p.tracker.Overlaps s) :
    (p.tick s).2 = ((p.tracking wide).tick s).2 ∧
      ∃ wide', Tracker.Widens (p.tick s).1.tracker wide' ∧
        ((p.tracking wide).tick s).1 = (p.tick s).1.tracking wide' := by
  obtain ⟨hupdates,hnext⟩ := h.observeAll ho p.startBlock
  have hwatermark : (Tracker.observeAll wide (wide.plan s p.startBlock)).1.confirmedHeight =
      (Tracker.observeAll p.tracker (p.tracker.plan s p.startBlock)).1.confirmedHeight :=
    hnext.watermark
  rw [tick_eq p s h.sound hsave,tick_eq (p.tracking wide) s h.wide_sound hsave]
  refine ⟨?_,_,by rw [settled_tracker]; exact hnext,
    settled_tracking { p with source := s } hupdates hwatermark⟩
  simp only [updates,tracking,hupdates]

/-- Over every run of polls whose chain overlaps what the narrower tracker retains: two pollers that
differ only in their windows return equal lists, persist equal heights, and end with the same
head and the same watermark. -/
theorem windows_agree (hsave : ∀ height (c : C), (Checkpoint.save height c).1 = .ok ())
    (source : Node) (checkpoint : C) (confirmations window window' : ℕ)
    (h : confirmations < window) (hw : window < window') (startBlock : ℕ) (p q : Poller Node C)
    (hp : resume source checkpoint (Tracker.fresh confirmations window h) startBlock = .ok p)
    (hq : resume source checkpoint (Tracker.fresh confirmations window' (h.trans hw)) startBlock = .ok q)
    (nodes : List Node)
    (hnodes : Machine.Guarded tick (fun (p : Poller Node C) s => p.tracker.Overlaps s) p nodes) :
    Machine.outputs tick p nodes = Machine.outputs tick q nodes ∧
      ∃ wide, Machine.final tick q nodes = (Machine.final tick p nodes).tracking wide ∧
        wide.head = (Machine.final tick p nodes).tracker.head ∧
        wide.confirmedHeight = (Machine.final tick p nodes).tracker.confirmedHeight := by
  have hstart : Tracker.Widens p.tracker (Tracker.fresh confirmations window' (h.trans hw)) ∧
      q = p.tracking (Tracker.fresh confirmations window' (h.trans hw)) := by
    unfold resume at hp hq
    cases hload : Checkpoint.load checkpoint with
    | error e =>
      rw [hload] at hp
      cases hp
    | ok resumedFrom =>
      rw [hload] at hp hq
      obtain rfl := Except.ok.inj hp
      obtain rfl := Except.ok.inj hq
      exact ⟨Tracker.fresh_widens h hw,rfl⟩
  have hstep : ∀ (p q : Poller Node C) s,
      (∃ wide, Tracker.Widens p.tracker wide ∧ q = p.tracking wide) → p.tracker.Overlaps s →
      (p.tick s).2 = (q.tick s).2 ∧
        ∃ wide, Tracker.Widens (p.tick s).1.tracker wide ∧ (q.tick s).1 = (p.tick s).1.tracking wide := by
    rintro p q s ⟨wide,hwidens,rfl⟩ ho
    exact tracking_tick hwidens hsave ho
  obtain ⟨houtputs,wide,hwidens,hfinal⟩ := Machine.simulation hstep ⟨_,hstart⟩ hnodes
  exact ⟨houtputs,wide,hfinal,hwidens.head_eq,hwidens.watermark⟩

/-- Blocks 2 to 4 are replaced, of which a tracker with the window 4 retains block 1. -/
theorem windows_agree_forked :
    let p : Poller Node InMemoryCheckpoint := ⟨World.forked.node World.forkedLinear,⟨none⟩,
      Tracker.fresh 1 4 (by decide),0,none,[],[]⟩
    let q : Poller Node InMemoryCheckpoint := ⟨World.forked.node World.forkedLinear,⟨none⟩,
      Tracker.fresh 1 256 (by decide),0,none,[],[]⟩
    let nodes := [World.forked.node World.forkedLinear,World.forked.node World.forkedBranch]
    Machine.outputs tick p nodes = Machine.outputs tick q nodes := by
  intro p q nodes
  have hnodes : Machine.Guarded tick
      (fun (p : Poller Node InMemoryCheckpoint) s => p.tracker.Overlaps s) p nodes :=
    ⟨by decide +kernel,by decide +kernel,trivial⟩
  exact (windows_agree save_inMemory (World.forked.node World.forkedLinear) ⟨none⟩ 1 4 256
    (by decide) (by decide) 0 p q rfl rfl nodes hnodes).1

end Poller
end Fintrails
