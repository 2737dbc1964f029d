import Fintrails.Interrupted
import Fintrails.Reorgs
import Fintrails.Retraction

/-! Chains whose branches are replaced, but never a block that was as deep as the confirmation
depth, so that anything at or below the persisted height is final.  Whatever ends the
processes, together they confirm the chain from the floor on, and nothing that was confirmed
is ever retracted. -/
namespace Fintrails

/-- What lies `confirmations` deep below the head of the node is on the chain. -/
def Node.Buried (confirmations : ℕ) (s : Node) (c : Chain) : Prop :=
  ∀ n, n+confirmations ≤ s.head → c.block n = s.chain.block n

instance buriedDecidable (confirmations : ℕ) (s : Node) (c : Chain) :
    Decidable (s.Buried confirmations c) :=
  decidable_of_iff (∀ n < s.head+1, n+confirmations ≤ s.head → c.block n = s.chain.block n)
    ⟨fun h n hn => h n (by omega) hn,fun h n _ hn => h n hn⟩

/-- The later head is no lower, and its chain has what was deep enough by then. -/
def Node.Succeeds (confirmations : ℕ) (earlier later : Node) : Prop :=
  earlier.head ≤ later.head ∧ earlier.Buried confirmations later.chain

instance succeedsDecidable (confirmations : ℕ) (earlier later : Node) :
    Decidable (earlier.Succeeds confirmations later) :=
  inferInstanceAs (Decidable (_ ∧ _))

namespace Tracker

/-- The tracker holds blocks of the world from the start block on, and has left out none that
it has not confirmed. -/
structure Anchored (W : World) (start : ℕ) (t : Tracker) : Prop where
  inhabits : t.Inhabits W
  idle : t.chain = [] → t.frontier = 0
  start_le : t.chain ≠ [] → start ≤ base t.chain
  base_le : t.chain ≠ [] → base t.chain ≤ max start t.frontier

/-- The block continues what the tracker holds, at or above both the start block and the
frontier. -/
structure Regrows (start : ℕ) (t : Tracker) (b : BlockRef) : Prop where
  reaches : t.Reaches start b
  start_le : start ≤ b.number
  frontier_le : t.frontier ≤ b.number

variable {W : World} {start : ℕ} {t : Tracker} {b : BlockRef}

theorem Regrows.frontier_le_orphaned (h : t.Sound) (hb : t.Regrows start b) {x : BlockRef}
    (hx : x ∈ t.orphaned b) : t.frontier ≤ x.number := by
  have hle := hb.frontier_le
  rcases h.kept_cases b with ⟨_,_,_,_,hfrom⟩ | ⟨hnone,_,horphaned⟩
  · exact hle.trans (hfrom.bounds hx).1
  · rw [horphaned] at hx
    have hlow := (hb.reaches.2.2 (List.ne_nil_of_mem hx)).resolve_left fun ⟨y,hy,ha⟩ => hnone y hy ha
    exact hle.trans (hlow.trans (h.linked.numbered.bounds hx).1)

theorem Regrows.pulled_eq (h : t.Sound) (hb : t.Regrows start b) : t.pulled b = t.frontier := by
  rw [Tracker.pulled_eq]
  cases horphaned : t.orphaned b with
  | nil => rfl
  | cons x l => exact min_eq_left (hb.frontier_le_orphaned h (by simp [horphaned]))

theorem Anchored.start_le_kept (h : t.Anchored W start) (hb : t.Regrows start b) :
    start ≤ base (t.kept b ++ [b]) := by
  by_cases hnil : t.kept b = []
  · rw [hnil,List.nil_append,base_cons]
    exact hb.start_le
  · have hchain : base (t.kept b) = base t.chain := by
      rw [← base_append (m:=t.orphaned b) hnil,kept_append_orphaned]
    obtain ⟨x,hx⟩ := List.exists_mem_of_ne_nil _ hnil
    rw [base_append hnil,hchain]
    exact h.start_le (List.ne_nil_of_mem (Sound.mem_kept hx))

theorem Anchored.observe_confirmed (h : t.Anchored W start) {s : Node} (hs : W.Serves s) {n : ℕ}
    (hn : n ≤ s.chain.height) (hb : t.Regrows start (s.chain.block n)) :
    (Tracker.observe t (s.chain.block n)).2.confirmed = s.chain.upTo (max start t.frontier)
      (Tracker.observe t (s.chain.block n)).1.frontier := by
  have hnum := s.chain.number_block n hn
  have hsound := h.inhabits.sound
  have hl := hsound.linked_kept (s.chain.block n)
  have hstart := h.start_le_kept hb
  have hbase := hsound.base_kept_le h.base_le hb.reaches
  have hend := hl.base_concat
  have hmem : ∀ x ∈ t.kept (s.chain.block n) ++ [s.chain.block n], x ∈ W.blocks := by
    intro x hx
    rcases List.mem_append.mp hx with hx | hx
    · exact h.inhabits.world x (Sound.mem_kept hx)
    · rw [List.mem_singleton.mp hx]
      exact hs.2 n hn
  have hlist := hl.numbered.eq_map fun x hx => (hs.on_chain hl hmem hn (by simp) x hx).1
  have hle := hb.frontier_le
  rw [hb.pulled_eq hsound] at hbase
  rw [hnum] at hend hle
  rw [hsound.confirmed,observe_frontier,hb.pulled_eq hsound,hlist,hnum,
    Numbered.slice_map_range' t.frontier _ fun m _ hm => s.chain.number_block m ?_]
  · simp only [List.length_append,List.length_singleton]
    rw [Chain.upTo]
    congr 2 <;> omega
  · simp only [List.length_append,List.length_singleton] at hm
    omega

theorem Anchored.observe (h : t.Anchored W start) (hmem : b ∈ W.blocks) (hb : t.Regrows start b) :
    (Tracker.observe t b).1.Anchored W start := by
  refine ⟨h.inhabits.observe hmem hb.reaches.1,fun hnil => absurd hnil (observe_chain_ne_nil t b),
    fun hne => ?_,fun _ => h.inhabits.sound.base_observe_le h.base_le hb.reaches⟩
  obtain ⟨x,l,hx⟩ := List.exists_cons_of_ne_nil hne
  have hsub := trim_suffix t.window (t.kept b ++ [b])
  rw [← observe_chain,hx] at hsub
  have hlow := ((h.inhabits.sound.linked_kept b).numbered.bounds (hsub.subset List.mem_cons_self)).1
  rw [hx,base_cons]
  exact (h.start_le_kept hb).trans hlow

/-- No update names a block number at or below that of a block confirmed before it. -/
def Spares (us : List TrackerUpdate) : Prop :=
  us.Pairwise fun u v => ∀ x ∈ u.confirmed, ∀ y ∈ v.reorged, x.number < y.number

/-- What a tracker answers while it is fed blocks of one chain. -/
structure Renews (W : World) (c : Chain) (start : ℕ) (t : Tracker) (us : List TrackerUpdate)
    (t' : Tracker) : Prop where
  anchored : t'.Anchored W start
  confirmations : t'.confirmations = t.confirmations
  frontier_le : t.frontier ≤ t'.frontier
  confirmed : us.flatMap TrackerUpdate.confirmed = c.upTo (max start t.frontier) t'.frontier
  spares : Spares us
  orphaned : ∀ u ∈ us, ∀ y ∈ u.reorged, max start t.frontier ≤ y.number

theorem Anchored.renews_nil (h : t.Anchored W start) (c : Chain) : Renews W c start t [] t :=
  ⟨h,rfl,le_refl _,by rw [Chain.upTo_nil (le_max_right _ _)]; rfl,List.Pairwise.nil,by simp⟩

theorem Renews.observe {t' : Tracker} {us : List TrackerUpdate} {s : Node}
    (h : Renews W s.chain start t us t') (hs : W.Serves s) {n : ℕ} (hn : n ≤ s.chain.height)
    (hb : t'.Regrows start (s.chain.block n)) :
    Renews W s.chain start t (us ++ [(Tracker.observe t' (s.chain.block n)).2])
      (Tracker.observe t' (s.chain.block n)).1 := by
  have hconfirmed := h.anchored.observe_confirmed hs hn hb
  have hold := h.frontier_le
  have hgrows : t'.frontier ≤ (Tracker.observe t' (s.chain.block n)).1.frontier := by
    rw [observe_frontier,hb.pulled_eq h.anchored.inhabits.sound]
    exact le_max_left _ _
  have horphaned : ∀ y ∈ (Tracker.observe t' (s.chain.block n)).2.reorged,
      start ≤ y.number ∧ t'.frontier ≤ y.number := by
    intro y hy
    rw [observe_reorged] at hy
    have hmem := (t'.orphaned_suffix _).subset hy
    exact ⟨(h.anchored.start_le (List.ne_nil_of_mem hmem)).trans
        (h.anchored.inhabits.sound.linked.numbered.bounds hmem).1,
      hb.frontier_le_orphaned h.anchored.inhabits.sound hy⟩
  refine ⟨h.anchored.observe (hs.2 n hn) hb,h.confirmations,hold.trans hgrows,?_,?_,?_⟩
  · rw [List.flatMap_append,h.confirmed,List.flatMap_singleton,hconfirmed,
      show max start t'.frontier = max (max start t.frontier) t'.frontier by omega]
    exact s.chain.upTo_append (by omega)
  · refine List.pairwise_append.mpr ⟨h.spares,List.pairwise_singleton _ _,?_⟩
    intro u hu v hv x hx y hy
    rw [List.mem_singleton.mp hv] at hy
    have hmem : x ∈ us.flatMap TrackerUpdate.confirmed := List.mem_flatMap.mpr ⟨u,hu,hx⟩
    rw [h.confirmed] at hmem
    obtain ⟨m,_,hm,rfl⟩ := Chain.mem_upTo.mp hmem
    have hle := hb.frontier_le
    rw [s.chain.number_block n hn] at hle
    rw [s.chain.number_block m (by omega)]
    exact Nat.lt_of_lt_of_le hm (horphaned y hy).2
  · intro u hu y hy
    rcases List.mem_append.mp hu with hu | hu
    · exact h.orphaned u hu y hy
    · rw [List.mem_singleton.mp hu] at hy
      obtain ⟨hstart,hfrontier⟩ := horphaned y hy
      omega

theorem Regrows.next (h : t.Sound) {c : Chain} {n : ℕ} (hn : n < c.height)
    (hb : t.Regrows start (c.block n)) :
    (Tracker.observe t (c.block n)).1.Regrows start (c.block (n+1)) := by
  have hext := extends_head hn (observe_head t (c.block n))
  have hnum := c.number_block n (by omega)
  have hle := hb.frontier_le
  have hstart := hb.start_le
  rw [hnum] at hle hstart
  refine ⟨⟨hext.1,fun hnil => absurd hnil (observe_chain_ne_nil _ _),fun _ => .inl hext.attaches⟩,
    ?_,?_⟩
  · rw [c.number_block (n+1) hn]
    omega
  · rw [c.number_block (n+1) hn,observe_frontier,hb.pulled_eq h,hnum]
    omega

theorem Renews.segment {t' : Tracker} {us : List TrackerUpdate} {s : Node}
    (h : Renews W s.chain start t us t') (hs : W.Serves s) {first last : ℕ}
    (hlast : last ≤ s.chain.height)
    (hfirst : first ≤ last → t'.Regrows start (s.chain.block first)) :
    Renews W s.chain start t (us ++ (observeAll t' (s.chain.segment first last)).2)
        (observeAll t' (s.chain.segment first last)).1 ∧
      (first ≤ last → (observeAll t' (s.chain.segment first last)).1.frontier =
        max t'.frontier (last+1-t.confirmations)) := by
  obtain ⟨k,hk⟩ : ∃ k, k = last+1-first := ⟨_,rfl⟩
  induction k generalizing t' us first with
  | zero =>
    rw [Chain.segment_nil (by omega),observeAll_nil,List.append_nil]
    exact ⟨h,fun hle => by omega⟩
  | succ k ih =>
    have hle : first ≤ last := by omega
    have hb := hfirst hle
    have hsound := h.anchored.inhabits.sound
    have hfrontier := observe_frontier t' (s.chain.block first)
    rw [hb.pulled_eq hsound,s.chain.number_block first (by omega),h.confirmations] at hfrontier
    obtain ⟨hnext,hreached⟩ := ih (h.observe hs (by omega) hb)
      (fun _ => hb.next hsound (by omega)) (by omega)
    rw [Chain.segment_cons hle hlast,observeAll_cons]
    refine ⟨by simpa using hnext,fun _ => ?_⟩
    by_cases hmore : first+1 ≤ last
    · rw [hreached hmore,hfrontier]
      omega
    · rw [Chain.segment_nil (by omega),observeAll_nil,hfrontier,show first = last by omega]

theorem Anchored.regrows_fork (h : t.Anchored W start) {r s : Node} {top : BlockRef}
    (hhead : t.head = some top) (htop : top = r.chain.block r.head)
    (hfrontier : t.frontier = r.head+1-t.confirmations) (hr : W.Serves r)
    (hsucceeds : r.Succeeds t.confirmations s)
    (hchanged : s.head ≤ top.number → ∀ b, t.blockAt s.head = some b →
      b.hash ≠ (s.chain.block s.head).hash) :
    t.Regrows start (s.chain.block (t.fork s.chain (walkFrom top s))) := by
  obtain ⟨hle,hburied⟩ := hsucceeds
  have hsound := h.inhabits.sound
  have hne : t.chain ≠ [] := List.ne_nil_of_mem (List.mem_of_getLast? hhead)
  have hheight := s.head_le
  have hnum : top.number = r.head := by rw [htop,r.chain.number_block _ r.head_le]
  have hwalk := walkFrom_le top s
  have hreach : top.number ≤ walkFrom top s := by
    unfold walkFrom
    split <;> omega
  have hfork := t.fork_le s.chain (walkFrom top s)
  have hretained := hsound.retained_iff hhead
  have hlow := h.start_le hne
  -- what the tracker retains lies on the chain it has followed
  have hold : ∀ x ∈ t.chain, x = r.chain.block x.number :=
    fun x hx => (hr.on_chain hsound.linked h.inhabits.world r.head_le (htop ▸ hhead) x hx).1
  have hend := (hsound.linked.numbered.bounds (List.mem_of_getLast? hhead)).1
  have hbase := hsound.base_le_fork hhead (s:=s) (by omega)
  have hdeep : t.frontier ≤ t.fork s.chain (walkFrom top s) := by
    by_contra hlt
    have hsame := hburied (t.fork s.chain (walkFrom top s)) (by omega)
    obtain ⟨known,hknown⟩ := (hretained (t.fork s.chain (walkFrom top s))).mpr ⟨hbase,by omega⟩
    obtain ⟨hmem,hknum⟩ := mem_of_blockAt hknown
    have hcanonical : known = s.chain.block (t.fork s.chain (walkFrom top s)) := by
      rw [hold known hmem,hknum,hsame]
    by_cases hstill : t.fork s.chain (walkFrom top s) < walkFrom top s
    · obtain ⟨known',hknown',hmismatch⟩ := t.fork_mismatch s.chain (le_refl _) hstill
      rw [hknown] at hknown'
      rw [← Option.some.inj hknown',s.chain.linked _ (by omega),hcanonical] at hmismatch
      exact hmismatch rfl
    · have hgrew : s.head ≤ top.number := by
        by_contra hgrew
        simp only [walkFrom,show top.number < s.head by omega,if_true] at hstill hlt hfork
        omega
      have hat : t.fork s.chain (walkFrom top s) = s.head := by omega
      rw [hat] at hknown hcanonical
      exact hchanged hgrew known hknown (by rw [hcanonical])
  refine ⟨⟨s.chain.number_lt (by omega),fun hnil => absurd hnil hne,fun _ => ?_⟩,?_,?_⟩
  · rw [s.chain.number_block (t.fork s.chain (walkFrom top s)) (by omega)]
    exact hsound.fork_cases hhead (walkFrom_le_succ top s) (by omega)
  · rw [s.chain.number_block _ (by omega)]
    omega
  · rw [s.chain.number_block _ (by omega)]
    exact hdeep

/-- The tracker has been fed the chain up to the head the node reports, and has confirmed what
that allows. -/
structure AtHead (W : World) (s : Node) (t : Tracker) : Prop where
  serves : W.Serves s
  head : t.head = some (s.chain.block s.head)
  frontier : t.frontier = s.head+1-t.confirmations

theorem Anchored.plan (h : t.Anchored W start) {r s : Node} (hs : W.Serves s)
    (hr : t.chain ≠ [] → t.AtHead W r ∧ r.Succeeds t.confirmations s) :
    Renews W s.chain start t (observeAll t (t.plan s start)).2 (observeAll t (t.plan s start)).1 ∧
      ((observeAll t (t.plan s start)).1.chain ≠ [] →
        (observeAll t (t.plan s start)).1.AtHead W s) := by
  have hle := s.head_le
  have hnil := h.renews_nil s.chain
  have hreached : ∀ first, first ≤ s.head → t.frontier ≤ s.head+1-t.confirmations →
      (first ≤ s.head → t.Regrows start (s.chain.block first)) →
      (observeAll t (s.chain.segment first s.head)).1.AtHead W s := by
    intro first hfirst hlow hb
    obtain ⟨hrenews,hfrontier⟩ := hnil.segment hs hle hb
    refine ⟨hs,?_,?_⟩
    · obtain ⟨l,hl⟩ := Chain.exists_segment_concat hfirst hle
      rw [hl,observeAll_head]
    · rw [hfrontier hfirst,hrenews.confirmations]
      omega
  cases hhead : t.head with
  | none =>
    have hempty : t.chain = [] := List.getLast?_eq_none_iff.mp hhead
    have hidle := h.idle hempty
    have hb : start ≤ s.head → t.Regrows start (s.chain.block start) := by
      intro hstart
      have hnum := s.chain.number_block start (by omega)
      refine ⟨⟨s.chain.number_lt (by omega),fun _ => by rw [hnum],fun hne => absurd hempty hne⟩,
        by rw [hnum],by omega⟩
    rw [plan_idle hhead]
    refine ⟨(hnil.segment hs hle hb).1,fun hne => ?_⟩
    by_cases hstart : start ≤ s.head
    · exact hreached start hstart (by omega) hb
    · rw [Chain.segment_nil (by omega)] at hne
      exact absurd hempty hne
  | some top =>
    have hne : t.chain ≠ [] := List.ne_nil_of_mem (List.mem_of_getLast? hhead)
    obtain ⟨⟨hserves,hrhead,hfrontier⟩,hsucceeds⟩ := hr hne
    have hgrown := hsucceeds.1
    obtain rfl : top = r.chain.block r.head := Option.some.inj (hhead.symm.trans hrhead)
    have hnum := r.chain.number_block _ r.head_le
    rcases plan_cases hhead s start with ⟨hplan,hlow,b,hb,hhash⟩ | ⟨hplan,hchanged⟩
    · rw [hplan]
      refine ⟨hnil,fun _ => ?_⟩
      have hsame : s.head = r.head := by omega
      have hat := h.inhabits.sound.blockAt_mem (List.mem_of_getLast? hhead)
      rw [hnum,← hsame,hb] at hat
      obtain rfl := Option.some.inj hat
      have hblock := W.hash_inj (h.inhabits.world _ (List.mem_of_getLast? hhead)) (hs.2 _ hle)
        (by rw [← hsame]; exact hhash)
      exact ⟨hs,by rw [← hblock]; exact hhead,by rw [hsame]; exact hfrontier⟩
    · have hb := h.regrows_fork hhead rfl hfrontier hserves hsucceeds hchanged
      have hfork := (t.fork_le s.chain _).trans (walkFrom_le (r.chain.block r.head) s)
      rw [hplan]
      exact ⟨(hnil.segment hs hle fun _ => hb).1,
        fun _ => hreached _ hfork (by omega) fun _ => hb⟩

end Tracker

theorem Node.Buried.upTo {confirmations : ℕ} {s : Node} {c : Chain} (h : s.Buried confirmations c)
    (first : ℕ) {next : ℕ} (hnext : next ≤ s.head+1-confirmations) :
    c.upTo first next = s.chain.upTo first next := by
  refine List.map_congr_left fun n hn => h n ?_
  rw [List.mem_range'_1] at hn
  omega

def Unretracted (msgs : List IndexerMessage) : Prop :=
  msgs.Pairwise fun m m' => ∀ e, m = .confirmed e → ∀ orphaned, m' = .reorged orphaned →
    e.blockNumber ∉ orphaned.map BlockRef.number

theorem standingEvents_of_unretracted {msgs : List IndexerMessage} (h : Unretracted msgs) :
    standingEvents msgs = confirmedOf msgs := by
  induction msgs using List.reverseRecOn with
  | nil => rfl
  | append_singleton msgs m ih =>
    obtain ⟨hinit,-,hlast⟩ := List.pairwise_append.mp h
    rw [standingEvents_append,ih hinit,confirmedOf_append]
    cases m with
    | confirmed e => exact Standing.absorb_add _ _
    | reorged orphaned =>
      have hkept : (confirmedOf msgs).filter (fun e =>
          decide (e.blockNumber ∉ orphaned.map BlockRef.number)) = confirmedOf msgs :=
        List.filter_eq_self.mpr fun e he =>
          decide_eq_true (hlast _ (mem_confirmedOf.mp he) _ (by simp) e rfl orphaned rfl)
      exact congrArg (· ++ []) hkept

theorem confirmedOf_map (events : List ChainEvent) : confirmedOf (events.map .confirmed) = events := by
  induction events with
  | nil => rfl
  | cons e events ih => exact congrArg (e :: ·) ih

theorem confirmedOf_messages {s : Node} {us : List TrackerUpdate}
    (h : ∀ u ∈ us, s.confirmedEvents u = u.confirmed.flatMap s.events) :
    confirmedOf (us.flatMap s.messages) =
      (us.flatMap TrackerUpdate.confirmed).flatMap s.events := by
  induction us with
  | nil => rfl
  | cons u us ih =>
    have hnotice : confirmedOf (Poller.orphanNotice u) = [] := by
      unfold Poller.orphanNotice
      split <;> rfl
    rw [List.flatMap_cons,List.flatMap_cons,confirmedOf_append,ih fun v hv => h v (by simp [hv]),
      List.flatMap_append,Node.messages,confirmedOf_append,hnotice,confirmedOf_map,h u (by simp)]
    rfl

theorem unretracted_messages {W : World} {s : Node} (hs : s.events = W.events)
    {us : List TrackerUpdate} (h : ∀ u ∈ us, s.confirmedEvents u = u.confirmed.flatMap s.events)
    (hspares : Tracker.Spares us) : Unretracted (us.flatMap s.messages) := by
  refine List.pairwise_flatMap.mpr ⟨fun u _ => ?_,hspares.imp_of_mem fun {u v} hu _ hlt => ?_⟩
  · refine List.pairwise_append.mpr ⟨?_,?_,?_⟩
    · unfold Poller.orphanNotice
      split
      · exact List.Pairwise.nil
      · exact List.pairwise_singleton _ _
    · refine List.Pairwise.map _ (fun a b _ e _ orphaned hm => ?_) (List.pairwise_of_forall fun _ _ => trivial)
      cases hm
    · intro m _ m' hm' e _ orphaned heq
      obtain ⟨d,_,rfl⟩ := List.mem_map.mp hm'
      cases heq
  · rintro _ hm _ hm' e rfl orphaned rfl hnamed
    obtain hm | ⟨_,he,hm⟩ := s.mem_messages hm
    · cases hm
    obtain hm' | ⟨_,_,hm'⟩ := s.mem_messages hm'
    · cases hm
      cases hm'
      rw [h u hu,hs] at he
      obtain ⟨x,hx,he⟩ := List.mem_flatMap.mp he
      obtain ⟨y,hy,hsame⟩ := List.mem_map.mp hnamed
      have hless := hlt x hx y hy
      rw [hsame,W.events_number x e he] at hless
      exact absurd hless (lt_irrefl _)
    · cases hm'

/-- The messages confirm the chain from `start` up to but not including `next`, in order and each
block once, retract none of it, and name no block below. -/
structure Certain (W : World) (c : Chain) (start next : ℕ) (msgs : List IndexerMessage) : Prop where
  confirmed : confirmedOf msgs = (c.upTo start next).flatMap W.events
  unretracted : Unretracted msgs
  below : ∀ e ∈ confirmedOf msgs, e.blockNumber < next
  orphans : ∀ orphaned, .reorged orphaned ∈ msgs → ∀ y ∈ orphaned, start ≤ y.number

theorem certain_nil (W : World) (c : Chain) {start next : ℕ} (h : next ≤ start) :
    Certain W c start next [] :=
  ⟨by rw [Chain.upTo_nil h]; rfl,List.Pairwise.nil,by simp [confirmedOf],by simp⟩

theorem Certain.append {W : World} {c : Chain} {start mid next : ℕ} {msgs more : List IndexerMessage}
    (h : Certain W c start mid msgs) (h' : Certain W c (max start mid) next more)
    (hle : mid ≤ max start next) : Certain W c start next (msgs++more) := by
  refine ⟨?_,List.pairwise_append.mpr ⟨h.unretracted,h'.unretracted,?_⟩,?_,?_⟩
  · rw [confirmedOf_append,h.confirmed,h'.confirmed,← List.flatMap_append,c.upTo_append hle]
  · rintro _ hm _ hm' e rfl orphaned rfl hnamed
    obtain ⟨y,hy,hsame⟩ := List.mem_map.mp hnamed
    have hlow := h'.orphans orphaned hm' y hy
    have hless := h.below e (mem_confirmedOf.mpr hm)
    omega
  · intro e he
    rw [confirmedOf_append] at he
    rcases List.mem_append.mp he with he | he
    · have hbelow := h.below e he
      rw [h.confirmed] at he
      obtain ⟨x,hx,_⟩ := List.mem_flatMap.mp he
      obtain ⟨n,hn,hlt,_⟩ := Chain.mem_upTo.mp hx
      omega
    · exact h'.below e he
  · intro orphaned hm y hy
    rcases List.mem_append.mp hm with hm | hm
    · exact h.orphans orphaned hm y hy
    · exact (le_max_left _ _).trans (h'.orphans orphaned hm y hy)

theorem Tracker.Renews.certain {W : World} {s : Node} {start : ℕ} {t t' : Tracker}
    {us : List TrackerUpdate} (h : Renews W s.chain start t us t') (hs : s.events = W.events)
    (hserved : ∀ u ∈ us, s.confirmedEvents u = u.confirmed.flatMap s.events)
    (hbound : t'.frontier ≤ s.chain.height+1) :
    Certain W s.chain (max start t.frontier) t'.frontier (us.flatMap s.messages) := by
  have hnew := confirmedOf_messages hserved
  rw [h.confirmed,hs] at hnew
  refine ⟨hnew,unretracted_messages hs hserved h.spares,?_,?_⟩
  · intro e he
    obtain ⟨x,hx,he⟩ := List.mem_flatMap.mp (hnew ▸ he)
    obtain ⟨n,_,hn,rfl⟩ := Chain.mem_upTo.mp hx
    have hnumber := W.events_number _ e he
    rw [s.chain.number_block n (by omega)] at hnumber
    exact hnumber ▸ hn
  · intro orphaned hm y hy
    obtain ⟨u,hu,hm⟩ := List.mem_flatMap.mp hm
    obtain hm | ⟨_,_,hm⟩ := s.mem_messages hm
    · cases hm
      exact h.orphaned u hu y hy
    · cases hm

theorem Certain.buried {W : World} {s : Node} {c : Chain} {start next confirmations : ℕ}
    {msgs : List IndexerMessage} (h : Certain W s.chain start next msgs)
    (hburied : s.Buried confirmations c) (hnext : next ≤ s.head+1-confirmations) :
    Certain W c start next msgs :=
  ⟨by rw [h.confirmed,hburied.upTo start hnext],h.unretracted,h.below,h.orphans⟩

namespace Poller

variable {W : World} {c : Chain} {confirmations window start : ℕ}

/-- What holds inside a run: the chain has been confirmed from the start block up to the
frontier. -/
structure Confirms (W : World) (c : Chain) (confirmations start : ℕ) (resumedFrom : Option ℕ)
    (results : List (Except PollerError (List IndexerMessage)))
    (p : Poller Node InMemoryCheckpoint) : Prop where
  anchored : p.tracker.Anchored W start
  startBlock : p.startBlock = start
  confirmations : p.tracker.confirmations = confirmations
  atHead : p.tracker.chain ≠ [] → p.tracker.AtHead W p.source
  certain : Certain W c start p.tracker.frontier (returned results)
  saved : p.lastSaved = p.checkpoint.height
  height : p.checkpoint.height = (p.tracker.confirmedHeight <|> resumedFrom)

structure Follows (W : World) (c : Chain) (confirmations : ℕ) (p : Poller Node InMemoryCheckpoint)
    (s : Node) : Prop where
  sound : p.tracker.Sound
  serves : W.Serves s
  buried : s.Buried confirmations c
  succeeds : p.tracker.chain ≠ [] → p.source.Succeeds confirmations s

theorem guarded_follows {p : Poller Node InMemoryCheckpoint} {nodes : List Node}
    (h : ∀ s ∈ nodes, p.Follows W c confirmations s)
    (hhistory : nodes.Pairwise (Node.Succeeds confirmations)) :
    Machine.Guarded Poller.tick (Follows W c confirmations) p nodes := by
  refine Machine.guarded_of_pairwise (fun q s s' hs hs' hsucceeds => ?_) h hhistory
  refine ⟨tick_sound hs.sound s,hs'.serves,hs'.buried,fun _ => ?_⟩
  rw [tick_eq q s hs.sound save_inMemory,settled_source]
  exact hsucceeds

theorem Confirms.tick {resumedFrom : Option ℕ}
    {results : List (Except PollerError (List IndexerMessage))}
    {p : Poller Node InMemoryCheckpoint} (h : Confirms W c confirmations start resumedFrom results p)
    {s : Node} (hs : p.Follows W c confirmations s) :
    Confirms W c confirmations start resumedFrom (results ++ [(p.tick s).2]) (p.tick s).1 := by
  obtain ⟨-,hserves,hburied,hsucceeds⟩ := hs
  have hheight := s.head_le
  obtain ⟨hrenews,hhead⟩ := h.anchored.plan (r:=p.source) hserves fun hne =>
    ⟨h.atHead hne,by rw [h.confirmations]; exact hsucceeds hne⟩
  have hserved := fun u hu => ((h.anchored.inhabits.plan hserves start).2 u hu).1
  have hbound : (Tracker.observeAll p.tracker (p.tracker.plan s start)).1.frontier ≤
      s.head+1-confirmations := by
    by_cases hne : (Tracker.observeAll p.tracker (p.tracker.plan s start)).1.chain = []
    · rw [hrenews.anchored.idle hne]
      exact Nat.zero_le _
    · rw [(hhead hne).frontier,hrenews.confirmations,h.confirmations]
  have hnew := (hrenews.certain hserves.1 hserved (by omega)).buried hburied hbound
  have hfrontier := hrenews.frontier_le
  have heq := tick_eq p s h.anchored.inhabits.sound save_inMemory
  have hstored := settled_height (p:={ p with source := s }) h.saved (p.tracker.plan s p.startBlock)
  rw [h.startBlock] at heq hstored
  rw [heq]
  refine ⟨by simpa using hrenews.anchored,settled_startBlock _ _,?_,?_,?_,hstored.1,?_⟩
  · rw [settled_tracker]
    exact hrenews.confirmations.trans h.confirmations
  · rw [settled_tracker,settled_source]
    exact hhead
  · rw [returned_ok,settled_tracker]
    exact h.certain.append hnew (hfrontier.trans (le_max_right _ _))
  · have hpersisted := hstored.2
    change _ = ((Tracker.observeAll p.tracker (p.tracker.plan s start)).1.confirmedHeight <|>
      p.checkpoint.height) at hpersisted
    rw [settled_tracker,hpersisted]
    cases hw : (Tracker.observeAll p.tracker (p.tracker.plan s start)).1.confirmedHeight with
    | some w => rfl
    | none =>
      have hzero := (Tracker.confirmedHeight_none_iff _).mp hw
      have hold := h.height
      rwa [(Tracker.confirmedHeight_none_iff _).mpr (by omega)] at hold

/-- What one run emits, and what it leaves persisted. -/
structure RanTo (W : World) (c : Chain) (confirmations start : ℕ) (resumedFrom : Option ℕ)
    (nodes : List Node) (frontier : ℕ) (r : InMemoryCheckpoint × List IndexerMessage) : Prop where
  certain : Certain W c start frontier r.2
  idle : frontier = 0 → r.1.height = resumedFrom
  persisted : ∀ w, frontier = w+1 → r.1.height = some w
  reached : frontier ≠ 0 → ∃ last ∈ nodes, start ≤ last.head ∧
    frontier = last.head+1-confirmations

theorem Confirms.reached {resumedFrom : Option ℕ}
    {results : List (Except PollerError (List IndexerMessage))}
    {p : Poller Node InMemoryCheckpoint} (h : Confirms W c confirmations start resumedFrom results p)
    (hpos : p.tracker.frontier ≠ 0) :
    start ≤ p.source.head ∧ p.tracker.frontier = p.source.head+1-confirmations := by
  have hne : p.tracker.chain ≠ [] := fun hnil => hpos (h.anchored.idle hnil)
  obtain ⟨hserves,hhead,hfrontier⟩ := h.atHead hne
  have hmem := List.mem_of_getLast? hhead
  have hlow := h.anchored.start_le hne
  have hbase := (h.anchored.inhabits.sound.linked.numbered.bounds hmem).1
  rw [p.source.chain.number_block _ p.source.head_le] at hbase
  rw [h.confirmations] at hfrontier
  exact ⟨hlow.trans hbase,hfrontier⟩

theorem source_final {p : Poller Node InMemoryCheckpoint} {nodes : List Node}
    (h : Machine.Guarded Poller.tick (Follows W c confirmations) p nodes) :
    (Machine.final Poller.tick p nodes).source = nodes.getLast?.getD p.source := by
  rcases List.eq_nil_or_concat' nodes with rfl | ⟨init,last,rfl⟩
  · rfl
  · rw [Machine.guarded_append] at h
    rw [Machine.final_append,List.getLast?_concat]
    simp only [Machine.final,tick_eq _ last h.2.1.sound save_inMemory,settled_source]
    rfl

theorem session_ranTo (h : confirmations < window) (startBlock : ℕ) (source : Node)
    {checkpoint : InMemoryCheckpoint} (hresumed : ∀ height ∈ checkpoint.height, height < 2^64-1)
    {nodes : List Node} (hnodes : ∀ s ∈ nodes, W.Serves s ∧ s.Buried confirmations c)
    (hhistory : nodes.Pairwise (Node.Succeeds confirmations)) :
    ∃ frontier, RanTo W c confirmations (effectiveStart startBlock checkpoint.height)
      checkpoint.height nodes frontier
      (session confirmations window h startBlock source checkpoint nodes) := by
  obtain ⟨p,hp⟩ : ∃ p : Poller Node InMemoryCheckpoint, p = ⟨source,checkpoint,
    Tracker.fresh confirmations window h,effectiveStart startBlock checkpoint.height,
    checkpoint.height,[],[]⟩ := ⟨_,rfl⟩
  have hempty : p.tracker.chain = [] := by rw [hp]; rfl
  have h0 : Confirms W c confirmations (effectiveStart startBlock checkpoint.height)
      checkpoint.height [] p := by
    subst hp
    exact ⟨⟨⟨Tracker.fresh_sound _ _ _,by simp⟩,fun _ => rfl,fun hne => absurd rfl hne,
      fun hne => absurd rfl hne⟩,rfl,rfl,fun hne => absurd rfl hne,
      certain_nil W c (Nat.zero_le _),rfl,rfl⟩
  have hguarded := guarded_follows (p:=p) (fun s hs => ⟨h0.anchored.inhabits.sound,(hnodes s hs).1,
    (hnodes s hs).2,fun hne => absurd hempty hne⟩) hhistory
  have hrun := Machine.outputs_run (fun _ _ _ hq hs => hq.tick hs) h0 hguarded
  refine ⟨(Machine.final Poller.tick p nodes).tracker.frontier,?_⟩
  rw [session_eq h startBlock source hresumed nodes hp]
  refine ⟨hrun.certain,?_,?_,?_⟩
  · intro hzero
    rw [hrun.height,(Tracker.confirmedHeight_none_iff _).mpr hzero]
    rfl
  · intro w hw
    rw [hrun.height,Tracker.confirmedHeight_some_iff.mpr hw]
    rfl
  · intro hpos
    obtain ⟨hstart,hfrontier⟩ := hrun.reached hpos
    cases hlast : nodes.getLast? with
    | none =>
      rw [List.getLast?_eq_none_iff] at hlast
      subst hlast
      exact absurd (h0.anchored.idle hempty) hpos
    | some last =>
      have hsource := source_final hguarded
      rw [hlast] at hsource
      rw [hsource] at hstart hfrontier
      exact ⟨last,List.mem_of_getLast? hlast,hstart,hfrontier⟩

/-- Every head reported from now on is deep enough to confirm again what is persisted. -/
structure Resumable (confirmations : ℕ) (height : Option ℕ) (later : List Node) : Prop where
  below : ∀ stored ∈ height, stored < 2^64-1
  ahead : ∀ stored ∈ height, ∀ s ∈ later, stored+confirmations ≤ s.head

theorem resumable_cold (confirmations : ℕ) (later : List Node) :
    Resumable confirmations none later :=
  ⟨by simp,by simp⟩

section RanTo

variable {startBlock frontier : ℕ} {height : Option ℕ} {nodes later : List Node}
  {r : InMemoryCheckpoint × List IndexerMessage}

theorem RanTo.certain_upTo
    (h : RanTo W c confirmations (effectiveStart startBlock height) height nodes frontier r) :
    Certain W c (effectiveStart startBlock height) (effectiveStart startBlock r.1.height) r.2 := by
  have hcertain := h.certain
  cases frontier with
  | zero =>
    have hnothing : Certain W c (max (effectiveStart startBlock height) 0)
        (effectiveStart startBlock height) [] := certain_nil W c (le_max_left _ _)
    have hidle := hcertain.append hnothing (Nat.zero_le _)
    rw [h.idle rfl]
    rwa [List.append_nil] at hidle
  | succ w =>
    rw [h.persisted w rfl]
    exact hcertain

theorem RanTo.resumable
    (h : RanTo W c confirmations (effectiveStart startBlock height) height nodes frontier r)
    (hp : Resumable confirmations height (nodes ++ later))
    (hhistory : (nodes ++ later).Pairwise (Node.Succeeds confirmations)) :
    Resumable confirmations r.1.height later := by
  cases frontier with
  | zero =>
    rw [h.idle rfl]
    exact ⟨hp.below,fun stored hs s hmem => hp.ahead stored hs s (by simp [hmem])⟩
  | succ w =>
    obtain ⟨last,hmem,-,hfrontier⟩ := h.reached (Nat.succ_ne_zero w)
    have hbelow := last.chain.height_lt
    have hhead := last.head_le
    rw [h.persisted w rfl]
    refine ⟨fun stored hs => ?_,fun stored hs s hmem' => ?_⟩
    · rw [← Option.some.inj hs]
      omega
    · rw [← Option.some.inj hs]
      have hgrows := ((List.pairwise_append.mp hhistory).2.2 last hmem s hmem').1
      omega

theorem RanTo.grows
    (h : RanTo W c confirmations (effectiveStart startBlock height) height nodes frontier r)
    (hp : Resumable confirmations height (nodes ++ later)) :
    ∀ stored ∈ height, ∃ stored' ∈ r.1.height, stored ≤ stored' := by
  intro stored hs
  cases frontier with
  | zero =>
    rw [h.idle rfl]
    exact ⟨stored,hs,le_refl _⟩
  | succ w =>
    obtain ⟨last,hmem,-,hfrontier⟩ := h.reached (Nat.succ_ne_zero w)
    have hahead := hp.ahead stored hs last (by simp [hmem])
    exact ⟨w,h.persisted w rfl,by omega⟩

end RanTo

theorem life_certain (h : confirmations < window) (startBlock : ℕ) (source : FailingNode)
    {x : Process} {later : List Node} {height : Option ℕ}
    (hnodes : ∀ s ∈ Process.nodes x, W.Serves s ∧ s.Buried confirmations c)
    (hhistory : (Process.nodes x ++ later).Pairwise (Node.Succeeds confirmations))
    (hp : Resumable confirmations height (Process.nodes x ++ later)) :
    let l := life confirmations window h startBlock source height x
    ∃ unread, (l.ending ≠ .inl none → unread = []) ∧ Resumable confirmations l.height later ∧
      (∀ stored ∈ height, ∃ stored' ∈ l.height, stored ≤ stored') ∧
      Certain W c (effectiveStart startBlock height) (effectiveStart startBlock l.height)
        (l.sent ++ unread) := by
  intro l
  obtain ⟨done,unread,hdone,hheight,hmsgs,hunread⟩ := life_session h startBlock source hp.below x
  have hsub := hdone.sublist.append_right later
  have hhistory' := hhistory.sublist hsub
  have hresumable : Resumable confirmations height (done ++ later) :=
    ⟨hp.below,fun stored hs s hmem => hp.ahead stored hs s (hsub.subset hmem)⟩
  obtain ⟨frontier,hran⟩ := @session_ranTo W c _ _ h startBlock source.node ⟨height⟩ hp.below _
    (fun s hs => hnodes s (hdone.subset hs)) (List.pairwise_append.mp hhistory').1
  have hnext := hran.resumable hresumable hhistory'
  have hgrows := hran.grows hresumable
  have hcertain := hran.certain_upTo
  rw [← hheight] at hnext hgrows hcertain
  rw [← hmsgs] at hcertain
  exact ⟨unread,hunread,hnext,hgrows,hcertain⟩

theorem start_le_max (startBlock : ℕ) {height height' : Option ℕ}
    (h : ∀ stored ∈ height, ∃ stored' ∈ height', stored ≤ stored') :
    effectiveStart startBlock height ≤ max startBlock (effectiveStart startBlock height') := by
  cases height with
  | none => exact le_max_left _ _
  | some stored =>
    obtain ⟨stored',rfl,hle⟩ := h stored rfl
    exact (Nat.succ_le_succ hle).trans (le_max_right _ _)

/-- Processes each of which leaves the next one to start at the floor or above take up where the
ones before have ended. -/
theorem lives_certain (h : confirmations < window) {startBlock : ℕ} (source : FailingNode)
    {xs : List Process} {later : List Node} {height : Option ℕ}
    (hnodes : ∀ x ∈ xs, ∀ s ∈ Process.nodes x, W.Serves s ∧ s.Buried confirmations c)
    (hhistory : (xs.flatMap Process.nodes ++ later).Pairwise (Node.Succeeds confirmations))
    (hfloor : ∀ l ∈ lives confirmations window h startBlock source height xs,
      l.KeepsFloor startBlock)
    (hp : Resumable confirmations height (xs.flatMap Process.nodes ++ later)) :
    ∃ unread, Unread (lives confirmations window h startBlock source height xs) unread ∧
      effectiveStart startBlock height ≤
        effectiveStart startBlock (leaves confirmations window h startBlock source height xs) ∧
      Resumable confirmations (leaves confirmations window h startBlock source height xs) later ∧
      Certain W c (effectiveStart startBlock height)
        (effectiveStart startBlock (leaves confirmations window h startBlock source height xs))
        (restored (lives confirmations window h startBlock source height xs) unread) := by
  induction xs generalizing height with
  | nil => exact ⟨[],⟨rfl,by simp [lives]⟩,le_refl _,hp,certain_nil W c (le_refl _)⟩
  | cons x xs ih =>
    rw [List.flatMap_cons,List.append_assoc] at hhistory hp
    obtain ⟨unread,hunread,hnext,hgrows,hcertain⟩ :=
      life_certain h startBlock source (hnodes x (by simp)) hhistory hp
    rw [lives_cons] at hfloor ⊢
    have hkept := hfloor _ List.mem_cons_self
    have hle := start_le_max startBlock hgrows
    rw [max_eq_right hkept] at hle
    obtain ⟨rest,hrest,hle',hleft,hmore⟩ := ih (fun y hy => hnodes y (by simp [hy]))
      (List.pairwise_append.mp hhistory).2.1 (fun l hl => hfloor l (List.mem_cons_of_mem _ hl)) hnext
    refine ⟨unread::rest,hrest.cons hunread,hle.trans hle',hleft,?_⟩
    rw [restored_cons]
    refine hcertain.append ?_ (hle'.trans (le_max_right _ _))
    rwa [max_eq_right hle]

theorem lives_final (h : confirmations < window) {startBlock : ℕ} (source : FailingNode)
    {xs : List Process} {later : List Node}
    (hnodes : ∀ x ∈ xs, ∀ s ∈ Process.nodes x, W.Serves s ∧ s.Buried confirmations c)
    (hhistory : (xs.flatMap Process.nodes ++ later).Pairwise (Node.Succeeds confirmations))
    (hfloor : ∀ l ∈ (lives confirmations window h startBlock source none xs).dropLast,
      l.KeepsFloor startBlock) :
    ∃ unread, Unread (lives confirmations window h startBlock source none xs) unread ∧
      Resumable confirmations (leaves confirmations window h startBlock source none xs) later ∧
      Certain W c startBlock
        (effectiveStart startBlock (leaves confirmations window h startBlock source none xs))
        (restored (lives confirmations window h startBlock source none xs) unread) := by
  have hcold : effectiveStart startBlock none = startBlock := rfl
  rcases List.eq_nil_or_concat' xs with rfl | ⟨earlier,last,rfl⟩
  · exact ⟨[],⟨rfl,by simp [lives]⟩,resumable_cold confirmations later,certain_nil W c (le_refl _)⟩
  · obtain ⟨hlives,hleaves⟩ := lives_concat h startBlock source none earlier last
    rw [hlives,List.dropLast_concat] at hfloor
    rw [List.flatMap_append,List.flatMap_singleton,List.append_assoc] at hhistory
    obtain ⟨rest,hrest,hgrown,hleft,hcertain⟩ := lives_certain h source
      (fun x hx => hnodes x (by simp [hx])) hhistory hfloor (resumable_cold confirmations _)
    obtain ⟨unread,hunread,hnext,hgrows,hlast⟩ := life_certain h startBlock source
      (hnodes last (by simp)) (List.pairwise_append.mp hhistory).2.1 hleft
    rw [← hleaves] at hnext hgrows hlast
    obtain ⟨hall,hrestored⟩ := hrest.concat hunread
    rw [← hlives] at hall hrestored
    rw [hcold] at hgrown hcertain
    refine ⟨_,hall,hnext,?_⟩
    rw [hrestored]
    refine hcertain.append ?_ (start_le_max startBlock hgrows)
    rwa [max_eq_right hgrown]

/-- From a cold checkpoint, over chains that are replaced at will but never lose a block as deep
as the confirmation depth, and whatever ends each process: up to what a dropped consumer did
not take, the transfers that were confirmed are those of the chain from the floor up to the
height that is left persisted, in order and each once, and every one of them stands. -/
theorem interrupted_final (W : World) (confirmations window : ℕ) (h : confirmations < window)
    (startBlock : ℕ) (source : FailingNode) (xs : List Process) (tip : Node)
    (hnodes : ∀ x ∈ xs, ∀ s ∈ Process.nodes x, W.Serves s)
    (hhistory : (xs.flatMap Process.nodes ++ [tip]).Pairwise (Node.Succeeds confirmations))
    (hfloor : ∀ l ∈ (lives confirmations window h startBlock source none xs).dropLast,
      l.KeepsFloor startBlock) :
    ∃ unread, Unread (lives confirmations window h startBlock source none xs) unread ∧
      confirmedOf (restored (lives confirmations window h startBlock source none xs) unread) =
        (tip.chain.upTo startBlock (effectiveStart startBlock
          (leaves confirmations window h startBlock source none xs))).flatMap W.events ∧
      standingEvents (restored (lives confirmations window h startBlock source none xs) unread) =
        confirmedOf (restored (lives confirmations window h startBlock source none xs) unread) := by
  obtain ⟨-,-,hlast⟩ := List.pairwise_append.mp hhistory
  have hburied : ∀ x ∈ xs, ∀ s ∈ Process.nodes x, s.Buried confirmations tip.chain := by
    intro x hx s hs
    exact (hlast s (List.mem_flatMap.mpr ⟨x,hx,hs⟩) tip (by simp)).2
  obtain ⟨unread,hunread,-,hcertain⟩ := lives_final h source
    (fun x hx s hs => ⟨hnodes x hx s hs,hburied x hx s hs⟩) hhistory hfloor
  exact ⟨unread,hunread,hcertain.confirmed,standingEvents_of_unretracted hcertain.unretracted⟩

/-- The consumer of the first process drops its receiver in front of the transfer of block 1, the
second process fails once the chain was replaced from block 2 on, the third goes on. -/
def replacements : List Process :=
  [⟨[⟨World.forked.node World.forkedLinear,99⟩],9,⟨some 1⟩⟩,
    ⟨[⟨World.forked.node World.forkedBranch,2⟩],9,⟨none⟩⟩,
    ⟨[⟨World.forked.node World.forkedBranch,99⟩],9,⟨none⟩⟩]

theorem replacements_serve : ∀ x ∈ replacements, ∀ s ∈ Process.nodes x, World.forked.Serves s := by
  intro x hx s hs
  simp only [replacements,List.mem_cons,List.not_mem_nil,or_false] at hx
  rcases hx with rfl | rfl | rfl <;> obtain rfl := List.mem_singleton.mp hs
  · exact World.forked_linear
  · exact World.forked_branch
  · exact World.forked_branch

theorem interrupted_final_replaced :
    ∃ unread, Unread (lives 3 5 (by decide) 0 ⟨World.forked.node World.forkedLinear,0⟩ none
        replacements) unread ∧
      confirmedOf (restored (lives 3 5 (by decide) 0 ⟨World.forked.node World.forkedLinear,0⟩ none
          replacements) unread) = (World.forkedBranch.upTo 0 3).flatMap World.forked.events := by
  have hleaves : effectiveStart 0 (leaves 3 5 (by decide) 0
      ⟨World.forked.node World.forkedLinear,0⟩ none replacements) = 3 := by decide +kernel
  obtain ⟨unread,hunread,hconfirmed,-⟩ := interrupted_final World.forked 3 5 (by decide) 0
    ⟨World.forked.node World.forkedLinear,0⟩ replacements (World.forked.node World.forkedBranch)
    replacements_serve (by decide +kernel) (by decide +kernel)
  rw [hleaves] at hconfirmed
  exact ⟨unread,hunread,hconfirmed⟩

end Poller
end Fintrails
