import Fintrails.Feeding
import Fintrails.TrackerReports

/-! The persisted height against what has been reported.  Everything between the
start block and the frontier stands reported, whatever the chain does between two
polls.  The persisted height follows the frontier except where a reorg replaces
block 0 on a chain too short to confirm anything: the watermark is then gone and
the old height stays persisted. -/
namespace Fintrails

namespace Tracker

/-- Every height from `startBlock` up to the frontier has been reported and stands,
and no retained chain leaves a gap above them. -/
structure Covers (startBlock : ℕ) (us : List TrackerUpdate) (t : Tracker) : Prop where
  sound : t.Sound
  idle : t.chain = [] → t.frontier = 0
  base_le : t.chain ≠ [] → base t.chain ≤ max startBlock t.frontier
  standing : ∀ n, startBlock ≤ n → n < t.frontier → n ∈ (reported us).map BlockRef.number

theorem Covers.observe {startBlock : ℕ} {us : List TrackerUpdate} {t : Tracker}
    (h : Covers startBlock us t) {b : BlockRef} (hb : t.Reaches startBlock b) :
    Covers startBlock (us ++ [(Tracker.observe t b).2]) (Tracker.observe t b).1 := by
  have hbase := h.sound.base_kept_le h.base_le hb
  have hfrontier := observe_frontier t b
  have hl := h.sound.linked_kept b
  refine ⟨h.sound.observe hb.1,fun hnil => absurd hnil (observe_chain_ne_nil t b),?_,?_⟩
  · exact fun _ => h.sound.base_observe_le h.base_le hb
  · intro n hn hlt
    rw [reported_concat,List.map_append,List.mem_append,observe_reorged]
    by_cases hold : n < t.pulled b
    · have hle := t.pulled_le_frontier b
      obtain ⟨x,hx,rfl⟩ := List.mem_map.mp (h.standing n hn (by omega))
      refine .inl (List.mem_map.mpr ⟨x,List.mem_filter.mpr ⟨hx,?_⟩,rfl⟩)
      rw [decide_eq_true_eq]
      intro hnamed
      obtain ⟨y,hy,hxy⟩ := List.mem_map.mp hnamed
      have hpulled := h.sound.pulled_le_orphaned hy
      omega
    · have hend := hl.base_concat
      obtain ⟨x,hx,rfl⟩ := hl.numbered.exists_num (n:=n) (by omega) (by simp; omega)
      refine .inr (List.mem_map.mpr ⟨x,?_,rfl⟩)
      rw [h.sound.confirmed]
      exact Numbered.mem_slice.mpr ⟨hx,by omega,by omega⟩

theorem Sound.plan_reaches {t : Tracker} (h : t.Sound) (s : Node) (startBlock : ℕ) :
    Machine.Guarded Tracker.observe (Reaches startBlock) t (t.plan s startBlock) := by
  have hc := s.chain.height_lt
  have hle := s.head_le
  have hnext : ∀ (t' : Tracker) n, t'.head = some (s.chain.block n) → n < s.head →
      t'.Reaches startBlock (s.chain.block (n+1)) := by
    intro t' n hhead hn
    have hext := extends_head (show n < s.chain.height by omega) hhead
    refine ⟨hext.1,fun hnil => ?_,fun _ => .inl hext.attaches⟩
    rw [head,hnil] at hhead
    cases hhead
  cases hhead : t.head with
  | none =>
    have hnil : t.chain = [] := List.getLast?_eq_none_iff.mp hhead
    rw [plan_idle hhead]
    refine guarded_segment h hle (fun hstart => ⟨?_,fun _ => ?_,fun hne => absurd hnil hne⟩)
      fun t' n _ hhead' _ hn => hnext t' n hhead' hn
    · rw [s.chain.number_block startBlock (by omega)]
      omega
    · rw [s.chain.number_block startBlock (by omega)]
  | some top =>
    rcases plan_cases hhead s startBlock with ⟨hplan,_⟩ | ⟨hplan,_⟩
    · rw [hplan]; trivial
    · rw [hplan]
      have hwalk := walkFrom_le top s
      have hfork := t.fork_le s.chain (walkFrom top s)
      have hcases := h.fork_cases (c:=s.chain) hhead (walkFrom_le_succ top s) (by omega)
      refine guarded_segment h hle (fun _ => ⟨?_,fun hnil => ?_,fun _ => ?_⟩)
        fun t' n _ hhead' _ hn => hnext t' n hhead' hn
      · rw [s.chain.number_block _ (by omega)]
        omega
      · rw [head,hnil] at hhead
        cases hhead
      · rwa [s.chain.number_block (t.fork s.chain (walkFrom top s)) (by omega)]

theorem Covers.plan {startBlock : ℕ} {us : List TrackerUpdate} {t : Tracker}
    (h : Covers startBlock us t) (s : Node) :
    Covers startBlock (us ++ (observeAll t (t.plan s startBlock)).2)
      (observeAll t (t.plan s startBlock)).1 :=
  Machine.outputs_invariant (fun _ _ _ hcovers hb => hcovers.observe hb) h
    (h.sound.plan_reaches s startBlock)

theorem le_frontier_segment (t : Tracker) {c : Chain} {first last : ℕ} (hle : first ≤ last)
    (hlast : last ≤ c.height) :
    last+1-t.confirmations ≤ (observeAll t (c.segment first last)).1.frontier := by
  obtain ⟨l,hl⟩ := Chain.exists_segment_concat hle hlast
  rw [hl,observeAll_append]
  change _ ≤ (observe (observeAll t l).1 (c.block last)).1.frontier
  rw [observe_frontier,observeAll_confirmations,c.number_block last hlast]
  exact le_max_right _ _

theorem Sound.fork_eq_zero {t : Tracker} (h : t.Sound) {c : Chain} {top b : BlockRef} {n : ℕ}
    (hhead : t.head = some top) (hn : n ≤ top.number+1) (hheight : n ≤ c.height)
    (hb : (t.orphaned (c.block (t.fork c n))).head? = some b) (hzero : b.number = 0) :
    t.fork c n = 0 := by
  have horphaned := List.mem_of_mem_head? hb
  rcases h.fork_cases (c:=c) hhead hn hheight with ⟨x,hx,ha⟩ | hlow
  · exfalso
    rcases h.kept_cases (c.block (t.fork c n)) with ⟨y,_,hy,_,hfrom⟩ | ⟨hnone,_⟩
    · have hbounds := hfrom.bounds horphaned
      have hnum := hy.1
      omega
    · exact hnone x hx ha
  · have hbounds := h.linked.numbered.bounds ((t.orphaned_suffix _).subset horphaned)
    omega

theorem Sound.frontier_lost {t : Tracker} (h : t.Sound) {s : Node} {startBlock : ℕ}
    (hidle : t.chain = [] → t.frontier = 0) (hpos : 0 < t.frontier)
    (hlost : (Tracker.observeAll t (t.plan s startBlock)).1.frontier = 0) :
    s.head < t.confirmations ∧
      ∃ b ∈ t.chain, b.number = 0 ∧ b.hash ≠ (s.chain.block 0).hash := by
  have hle := s.head_le
  cases hhead : t.head with
  | none =>
    have hzero := hidle (List.getLast?_eq_none_iff.mp hhead)
    omega
  | some top =>
    rcases plan_cases hhead s startBlock with ⟨hplan,_⟩ | ⟨hplan,hchanged⟩
    · rw [hplan] at hlost
      exact absurd hlost (by simpa using hpos.ne')
    rw [hplan] at hlost
    have hwalk := walkFrom_le top s
    have hfork := t.fork_le s.chain (walkFrom top s)
    have hlast := t.le_frontier_segment (hfork.trans hwalk) hle
    have hpulled := h.pulled_le_segment (hfork.trans hwalk) hle
    refine ⟨by omega,?_⟩
    rw [hlost,pulled_eq] at hpulled
    obtain ⟨b,horphaned,hb⟩ : ∃ b, (t.orphaned (s.chain.block
        (t.fork s.chain (walkFrom top s)))).head? = some b ∧ b.number = 0 := by
      cases ho : (t.orphaned (s.chain.block (t.fork s.chain (walkFrom top s)))).head? with
      | none =>
        rw [ho] at hpulled
        exact absurd hpulled (by simpa using hpos.ne')
      | some b =>
        rw [ho] at hpulled
        have hmin : min t.frontier b.number ≤ 0 := hpulled
        exact ⟨b,rfl,by omega⟩
    have hmem : b ∈ t.chain :=
      (t.orphaned_suffix _).subset (List.mem_of_mem_head? horphaned)
    have hgenesis := h.fork_eq_zero hhead (walkFrom_le_succ top s) (by omega) horphaned hb
    refine ⟨b,hmem,hb,?_⟩
    have hat : t.blockAt 0 = some b := hb ▸ h.blockAt_mem hmem
    by_cases hzero : walkFrom top s = 0
    · have hs : s.head = 0 ∧ s.head ≤ top.number := by
        unfold walkFrom at hzero
        split at hzero <;> omega
      have hne := hchanged hs.2 b (by rwa [hs.1])
      rwa [hs.1] at hne
    · obtain ⟨known,hknown,hne⟩ := t.fork_mismatch s.chain (n:=walkFrom top s) (j:=0)
        (by omega) (by omega)
      rw [hat] at hknown
      rw [Option.some.inj hknown,← s.chain.linked 0 (by omega)]
      exact hne

end Tracker

namespace Poller

/-- Every block between the start block and the persisted height has been reported as
confirmed, and no reorg has named it since. -/
def Truthful (p : Poller Node InMemoryCheckpoint) : Prop :=
  ∀ h ∈ p.checkpoint.height, ∀ n, p.startBlock ≤ n → n ≤ h →
    n ∈ (reported p.reports).map BlockRef.number

/-- A poll that meets another block 0, with a height at or above the start block
persisted, meets a chain long enough to confirm a block. -/
def ConfirmsAnew (p : Poller Node InMemoryCheckpoint) (s : Node) : Prop :=
  (∃ b ∈ p.tracker.chain, b.number = 0 ∧ b.hash ≠ (s.chain.block 0).hash) →
    (∃ h ∈ p.checkpoint.height, p.startBlock ≤ h) → p.tracker.confirmations ≤ s.head

instance confirmsAnewDecidable (p : Poller Node InMemoryCheckpoint) (s : Node) :
    Decidable (p.ConfirmsAnew s) :=
  inferInstanceAs (Decidable (_ → _ → _))

/-- The persisted height is the watermark, or there is no watermark and it lies below
the start block. -/
structure Persists (p : Poller Node InMemoryCheckpoint) : Prop where
  covers : p.tracker.Covers p.startBlock p.reports
  saved : p.lastSaved = p.checkpoint.height
  stored : ∀ w ∈ p.tracker.confirmedHeight, p.checkpoint.height = some w
  stale : p.tracker.confirmedHeight = none → ∀ h ∈ p.checkpoint.height, h < p.startBlock

theorem Persists.tick {p : Poller Node InMemoryCheckpoint} (h : Persists p) {s : Node}
    (hs : p.ConfirmsAnew s) : Persists (Poller.tick p s).1 := by
  have heq := tick_eq p s h.covers.sound save_inMemory
  have hheight := settled_height (p:={ p with source := s }) h.saved
    (p.tracker.plan s p.startBlock)
  have hcovers := h.covers.plan s
  rw [heq]
  refine ⟨by simpa [updates] using hcovers,hheight.1,?_,?_⟩
  · intro w hw
    rw [settled_tracker] at hw
    rw [hheight.2,show (observed _ _).tracker.confirmedHeight = some w from hw]
    rfl
  · intro hnone stored hstored
    rw [settled_tracker] at hnone
    rw [hheight.2,show (observed _ _).tracker.confirmedHeight = none from hnone] at hstored
    cases hbefore : p.tracker.confirmedHeight with
    | none => simpa using h.stale hbefore stored hstored
    | some w =>
      have hpos : 0 < p.tracker.frontier := by
        refine Nat.pos_of_ne_zero fun hzero => ?_
        rw [(Tracker.confirmedHeight_none_iff _).mpr hzero] at hbefore
        cases hbefore
      obtain ⟨hshort,hreplaced⟩ := h.covers.sound.frontier_lost h.covers.idle hpos
        ((Tracker.confirmedHeight_none_iff _).mp hnone)
      by_contra hle
      simp only [settled_startBlock,not_lt] at hle
      have hlong := hs hreplaced ⟨stored,hstored,hle⟩
      omega

theorem Persists.truthful {p : Poller Node InMemoryCheckpoint} (h : Persists p) : Truthful p := by
  intro stored hstored n hn hle
  cases hw : p.tracker.confirmedHeight with
  | none =>
    have hlt := h.stale hw stored hstored
    omega
  | some w =>
    rw [h.stored w hw] at hstored
    have hlt : n < p.tracker.frontier := by
      by_contra hge
      have hbelow := (Tracker.frontier_le_iff p.tracker n).mp (by omega) w hw
      have := Option.some.inj hstored
      omega
    exact h.covers.standing n hn hlt

/-- From a cold checkpoint, every run whose polls meet the condition keeps the
persisted height truthful. -/
theorem persisted_truthful (confirmations window : ℕ) (h : confirmations < window)
    (source : Node) (startBlock : ℕ) (p : Poller Node InMemoryCheckpoint)
    (hp : resume source ⟨none⟩ (Tracker.fresh confirmations window h) startBlock = .ok p)
    (nodes : List Node) (hnodes : Machine.Guarded tick ConfirmsAnew p nodes) :
    Truthful (Machine.final tick p nodes) := by
  have hstart : p = ⟨source,⟨none⟩,Tracker.fresh confirmations window h,startBlock,none,[],[]⟩ :=
    (Except.ok.inj hp).symm
  have h0 : Persists p := by
    subst hstart
    refine ⟨⟨Tracker.fresh_sound _ _ _,fun _ => rfl,fun hne => absurd rfl hne,?_⟩,rfl,?_,?_⟩
    · intro n _ hlt
      simp at hlt
    · intro w hw
      cases hw
    · intro _ stored hstored
      cases hstored
  exact (Machine.state_invariant (fun _ _ hpersists hs => hpersists.tick hs) h0 hnodes).truthful

theorem persisted_truthful_replaced :
    Truthful (Machine.final tick (cold (.quiet (.linear 5 (by decide))) 2 8 (by decide) 0)
      [.quiet (.linear 5 (by decide)),.quiet (.branching 0 3 (by decide))]) :=
  persisted_truthful 2 8 (by decide) (.quiet (.linear 5 (by decide))) 0 _ rfl _ (by decide +kernel)

/-- Block 0 is replaced on a chain of two blocks: height 3 stays persisted. -/
theorem persisted_stale :
    ¬Truthful (Machine.final tick (cold (.quiet (.linear 5 (by decide))) 2 8 (by decide) 0)
      [.quiet (.linear 5 (by decide)),.quiet (.branching 0 1 (by decide))]) := by
  intro h
  exact absurd (h 3 (by decide +kernel) 0 (by decide +kernel) (by decide)) (by decide +kernel)

end Poller
end Fintrails
