import Mathlib.Logic.Relation
import Fintrails.World

/-! `feed` over a node whose chain may be replaced between any two calls.  The walk asks
for ancestors by number and never compares an answer with the parent hash it was
looking for, so the branch it collects is linked exactly if the answers on the way
lie on the chain of the block that is fed. -/
namespace Fintrails

/-- A node as it is at each successive call. -/
structure ShiftingNode where
  nodes : ℕ → Node
  calls : ℕ

namespace ShiftingNode

def current (s : ShiftingNode) : Node := s.nodes s.calls

def answered (s : ShiftingNode) : ShiftingNode := { s with calls := s.calls+1 }

end ShiftingNode

instance : BlockSource ShiftingNode where
  headNumber s := ((BlockSource.headNumber s.current).1,s.answered)
  blockRef number s := ((BlockSource.blockRef number s.current).1,s.answered)
  transfers first last s := ((BlockSource.transfers first last s.current).1,s.answered)

namespace World

variable {W : World}

def Ancestor (W : World) (x b : BlockRef) : Prop :=
  Relation.TransGen (fun y z => y ∈ W.blocks ∧ Tracker.Attaches z y) x b

theorem Serves.parent_iff {s : Node} (h : W.Serves s) {n : ℕ} (hn : n ≤ s.chain.height)
    {x : BlockRef} : (x ∈ W.blocks ∧ Tracker.Attaches (s.chain.block n) x) ↔
      x.number+1 = n ∧ x = s.chain.block x.number := by
  have hnum := s.chain.number_block n hn
  constructor
  · rintro ⟨hx,hat,hhash⟩
    rw [hnum] at hat
    subst hat
    rw [s.chain.linked x.number (by omega)] at hhash
    exact ⟨rfl,W.hash_inj hx (h.2 _ (by omega)) hhash.symm⟩
  · rintro ⟨rfl,hx⟩
    have hlink := s.chain.linked x.number (by omega)
    rw [← hx] at hlink
    refine ⟨?_,hnum,hlink⟩
    rw [hx]
    exact h.2 _ (by omega)

theorem Serves.ancestor_iff {s : Node} (h : W.Serves s) {n : ℕ} (hn : n ≤ s.chain.height)
    {x : BlockRef} :
    W.Ancestor x (s.chain.block n) ↔ x.number < n ∧ x = s.chain.block x.number := by
  constructor
  · intro ha
    obtain ⟨b,hb⟩ : ∃ b, b = s.chain.block n := ⟨_,rfl⟩
    rw [← hb] at ha
    induction ha generalizing n with
    | single hparent =>
      rw [hb,h.parent_iff hn] at hparent
      exact ⟨by omega,hparent.2⟩
    | tail _ hparent ih =>
      rw [hb,h.parent_iff hn] at hparent
      obtain ⟨hnum,hy⟩ := hparent
      obtain ⟨hlt,hx⟩ := ih (by omega) hy
      exact ⟨by omega,hx⟩
  · rintro ⟨hlt,hx⟩
    induction n with
    | zero => omega
    | succ n ih =>
      have hnum := s.chain.number_block n (by omega)
      have hparent := (h.parent_iff hn (x:=s.chain.block n)).mpr ⟨by omega,by rw [hnum]⟩
      by_cases hxn : x.number = n
      · rw [hxn] at hx
        subst hx
        exact .single hparent
      · exact (ih (by omega) (by omega)).tail hparent

end World

namespace Tracker

/-- The walk from block `n` of `c` passes over `j`: retained blocks that are not on `c` lie at
every number from `j` up to `n`. -/
def Disputed (t : Tracker) (c : Chain) (n j : ℕ) : Prop :=
  ∀ i < n, j ≤ i → ∃ known ∈ t.blockAt i, known.hash ≠ (c.block i).hash

instance disputedDecidable (t : Tracker) (c : Chain) (n j : ℕ) : Decidable (t.Disputed c n j) :=
  inferInstanceAs (Decidable (∀ i < n, j ≤ i → ∃ known ∈ t.blockAt i, _))

/-- Every answer the walk from block `n` of `c` gets is the block of `c`. -/
def Undisturbed (t : Tracker) (c : Chain) (n : ℕ) (s : ShiftingNode) : Prop :=
  ∀ j < n, t.Disputed c n j → j ≤ (s.nodes (s.calls+(n-1-j))).chain.height ∧
    (s.nodes (s.calls+(n-1-j))).chain.block j = c.block j

instance undisturbedDecidable (t : Tracker) (c : Chain) (n : ℕ) (s : ShiftingNode) :
    Decidable (t.Undisturbed c n s) :=
  inferInstanceAs (Decidable (∀ j < n, t.Disputed c n j → _ ∧ _))

/-- A block that lies more than one above the head is fed only where nothing of its chain
is retained. -/
def NoGap (t : Tracker) (c : Chain) (n : ℕ) : Prop :=
  (∀ top ∈ t.head, n ≤ top.number+1) ∨ ∀ x ∈ t.chain, x ≠ c.block x.number

instance noGapDecidable (t : Tracker) (c : Chain) (n : ℕ) : Decidable (t.NoGap c n) :=
  inferInstanceAs (Decidable ((∀ top ∈ t.head, _) ∨ _))

theorem disputed_succ {t : Tracker} {c : Chain} {n j : ℕ} {known : BlockRef}
    (hat : t.blockAt n = some known) (hk : known.hash ≠ (c.block n).hash)
    (h : t.Disputed c n j) : t.Disputed c (n+1) j := by
  intro i hi hji
  by_cases hin : i = n
  · exact ⟨known,by rw [hin,hat]; rfl,by rw [hin]; exact hk⟩
  · exact h i (by omega) hji

theorem Undisturbed.next {t : Tracker} {c : Chain} {n : ℕ} {s : ShiftingNode} {known : BlockRef}
    (hat : t.blockAt n = some known) (hk : known.hash ≠ (c.block n).hash)
    (h : t.Undisturbed c (n+1) s) :
    (n ≤ s.current.chain.height ∧ s.current.chain.block n = c.block n) ∧
      t.Undisturbed c n s.answered := by
  constructor
  · have hn := h n (Nat.lt_succ_self n) fun i hi hni => by
      obtain rfl : i = n := by omega
      exact ⟨known,hat,hk⟩
    rwa [show n+1-1-n = 0 by omega] at hn
  · intro j hj hdisputed
    have hcall := h j (by omega) (disputed_succ hat hk hdisputed)
    rwa [show s.calls+(n+1-1-j) = s.answered.calls+(n-1-j) by
      simp only [ShiftingNode.answered]; omega] at hcall

end Tracker

namespace Tracker

theorem Sound.settled_of_extends {t : Tracker} (h : t.Sound) {bs : List BlockRef}
    (hbs : Machine.Guarded Tracker.observe Extends t bs) :
    ∀ u ∈ (Tracker.observeAll t bs).2, u.reorged = [] := by
  refine (Machine.outputs_run (P:=fun us (t' : Tracker) => t'.Sound ∧ ∀ u ∈ us, u.reorged = [])
    ?_ ⟨h,by simp⟩ hbs).2
  rintro us t' b ⟨ht',hus⟩ ⟨hnum,top,htop,ha⟩
  refine ⟨ht'.observe hnum,fun u hu => ?_⟩
  rcases List.mem_append.mp hu with hu | hu
  · exact hus u hu
  · rw [List.mem_singleton.mp hu,observe_reorged]
    exact ht'.orphaned_of_head htop ha

theorem Sound.observeAll_segment {t : Tracker} (h : t.Sound) {c : Chain} {first last : ℕ}
    (hfirst : first ≤ last) (hlast : last ≤ c.height) :
    (∀ u ∈ (Tracker.observeAll t (c.segment first last)).2.tail, u.reorged = []) ∧
      ∀ u ∈ (Tracker.observeAll t (c.segment first last)).2,
        u.reorged = t.orphaned (c.block first) ∨ u.reorged = [] := by
  have hb := c.number_lt (hfirst.trans hlast)
  have hrest := (h.observe hb).settled_of_extends
    ((h.observe hb).guarded_extends (observe_head _ _) hlast)
  rw [Chain.segment_cons hfirst hlast,observeAll_cons]
  refine ⟨hrest,fun u hu => ?_⟩
  rcases List.mem_cons.mp hu with rfl | hu
  · exact .inl (observe_reorged _ _)
  · exact .inr (hrest u hu)

theorem Sound.orphaned_off_chain {t : Tracker} (h : t.Sound) {c : Chain} {n : ℕ}
    (hn : n ≤ c.height) (hgap : t.NoGap c n) {x : BlockRef}
    (hx : x ∈ t.orphaned (c.block (t.fork c n))) (hlow : x.number < n) :
    x ≠ c.block x.number := by
  intro hon
  have hle := t.fork_le c n
  have hmem : x ∈ t.chain := (t.orphaned_suffix _).subset hx
  have hat := h.blockAt_mem hmem
  have hnum := c.number_block (t.fork c n) (by omega)
  by_cases hpassed : t.fork c n ≤ x.number
  · obtain ⟨known,hknown,hk⟩ := t.fork_mismatch c hpassed hlow
    rw [hat,Option.some.injEq] at hknown
    rw [c.linked x.number (by omega),← hon,hknown] at hk
    exact hk rfl
  · rcases h.kept_cases (c.block (t.fork c n)) with ⟨_,_,_,_,hfrom⟩ | ⟨hnone,_⟩
    · have hb := (hfrom.bounds hx).1
      omega
    · obtain ⟨top,htop⟩ := Option.isSome_iff_exists.mp
        (List.getLast?_isSome.mpr (List.ne_nil_of_mem hmem))
      rcases t.fork_stop c n with hzero | ⟨f,hf,hstop⟩
      · omega
      · by_cases hret : ∃ known, t.blockAt f = some known
        · obtain ⟨known,hknown⟩ := hret
          obtain ⟨hkmem,hknum⟩ := mem_of_blockAt hknown
          refine hnone known hkmem ⟨by omega,?_⟩
          rw [hf]
          exact (hstop known hknown).symm
        · have hxret := (h.retained_iff htop x.number).mp ⟨x,hat⟩
          rw [h.retained_iff htop] at hret
          rcases hgap with hhead | hoff
          · have hclose := hhead top htop
            omega
          · exact hoff x hmem hon

theorem Sound.drained_of_gap {t : Tracker} (h : t.Sound) {c : Chain} {n : ℕ} (hn : n ≤ c.height)
    {top : BlockRef} (htop : t.head = some top) (hgap : top.number+1 < n) :
    t.fork c n = n ∧ t.orphaned (c.block n) = t.chain := by
  have hle := t.fork_le c n
  constructor
  · by_contra hne
    obtain ⟨known,hknown,_⟩ := t.fork_mismatch c (j:=n-1) (n:=n) (by omega) (by omega)
    have hret := (h.retained_iff htop (n-1)).mp ⟨known,hknown⟩
    omega
  · rcases h.kept_cases (c.block n) with ⟨x,hx,ha,_⟩ | ⟨_,_,hall⟩
    · have hxle := h.linked.number_le htop hx
      have hnum := c.number_block n hn
      have hax := ha.1
      omega
    · exact hall

end Tracker

namespace Poller

section Inversion

variable {S C : Type} [BlockSource S]

theorem walk_stop {n : ℕ} {tip : BlockAt (n+1)} (branch : List BlockRef) {p : Poller S C}
    (h : ∀ known ∈ p.tracker.blockAt n, known.hash = tip.val.parentHash) :
    (walk (n+1) tip branch).run p = .ok branch p := by
  simp only [walk,EStateM.run_bind,EStateM.run_get]
  cases hat : p.tracker.blockAt n with
  | none => rfl
  | some known =>
    simp only [h known hat,if_true]
    rfl

theorem walk_step {n : ℕ} {tip : BlockAt (n+1)} (branch : List BlockRef) {p : Poller S C}
    {known : BlockRef} (hat : p.tracker.blockAt n = some known)
    (hk : known.hash ≠ tip.val.parentHash) :
    (walk (n+1) tip branch).run p = (fetch (BlockSource.blockRef n) >>= fun parent =>
      walk n parent (parent.val::branch) : Method S C (List BlockRef)).run p := by
  simp only [walk,EStateM.run_bind,EStateM.run_get,hat,hk,if_false]

theorem walk_extends {n : ℕ} {tip : BlockAt n} {branch branch' : List BlockRef}
    {p p' : Poller S C} (h : (walk n tip branch).run p = .ok branch' p') :
    ∃ l, branch' = l ++ branch := by
  induction n generalizing branch p with
  | zero => exact ⟨[],(pure_ok h).1⟩
  | succ n ih =>
    by_cases hstop : ∀ known ∈ p.tracker.blockAt n, known.hash = tip.val.parentHash
    · rw [walk_stop branch hstop] at h
      cases h
      exact ⟨[],rfl⟩
    · push Not at hstop
      obtain ⟨known,hat,hk⟩ := hstop
      rw [walk_step branch hat hk] at h
      obtain ⟨parent,q,_,hrec⟩ := bind_ok h
      obtain ⟨l,hl⟩ := ih hrec
      exact ⟨l ++ [parent.val],by simp [hl]⟩

theorem handOver_ok {b : BlockRef} {sent out : List IndexerMessage} {p q : Poller S C}
    (h : (handOver b sent).run p = .ok out q) :
    q.tracker = (p.tracker.observe b).1 ∧ ∃ new, out = sent ++ new ∧
      ∀ orphaned, IndexerMessage.reorged orphaned ∈ new ↔
        orphaned ≠ [] ∧ (p.tracker.observe b).2.reorged = orphaned := by
  have hnotice : ∀ (u : TrackerUpdate) (events : List ChainEvent) orphaned,
      IndexerMessage.reorged orphaned ∈ orphanNotice u ++ events.map .confirmed ↔
        orphaned ≠ [] ∧ u.reorged = orphaned := by
    intro u events orphaned
    by_cases hu : u.reorged = []
    · simp only [orphanNotice,hu,List.isEmpty_nil,if_true,List.nil_append,List.mem_map,
        reduceCtorEq,and_false,exists_false,false_iff]
      exact fun h => h.1 h.2.symm
    · have hu' : u.reorged.isEmpty = false := by simpa using hu
      simp only [orphanNotice,hu',Bool.false_eq_true,if_false,List.mem_append,List.mem_singleton,
        IndexerMessage.reorged.injEq,List.mem_map,reduceCtorEq,and_false,exists_false,or_false]
      exact ⟨fun he => ⟨he ▸ hu,he.symm⟩,fun he => he.2.symm⟩
  obtain ⟨u,r,hobserve,hrest⟩ := bind_ok h
  rw [observed_singleton] at hobserve
  cases hobserve
  cases hrange : confirmedRange (p.tracker.observe b).2 with
  | none =>
    simp only [hrange] at hrest
    obtain ⟨rfl,rfl⟩ := pure_ok hrest
    exact ⟨rfl,_,rfl,by simpa using hnotice (p.tracker.observe b).2 []⟩
  | some range =>
    simp only [hrange] at hrest
    obtain ⟨events,r,hfetch,hpure⟩ := bind_ok hrest
    obtain ⟨_,rfl⟩ := fetch_ok hfetch
    obtain ⟨rfl,rfl⟩ := pure_ok hpure
    exact ⟨rfl,_,List.append_assoc _ _ _,hnotice (p.tracker.observe b).2 events⟩

theorem handOverAll_ok {bs : List BlockRef} {sent out : List IndexerMessage} {p q : Poller S C}
    (h : (handOverAll bs sent).run p = .ok out q) :
    ∃ new, out = sent ++ new ∧ ∀ orphaned, IndexerMessage.reorged orphaned ∈ new ↔
      orphaned ≠ [] ∧ ∃ u ∈ (p.tracker.observeAll bs).2, u.reorged = orphaned := by
  induction bs generalizing sent p with
  | nil => exact ⟨[],by simpa using (pure_ok h).1,by simp⟩
  | cons b bs ih =>
    obtain ⟨mid,r,hone,hrest⟩ := bind_ok h
    obtain ⟨htracker,new,rfl,hnew⟩ := handOver_ok hone
    obtain ⟨more,rfl,hmore⟩ := ih hrest
    refine ⟨new ++ more,List.append_assoc _ _ _,fun orphaned => ?_⟩
    rw [List.mem_append,hnew,hmore,htracker,Tracker.observeAll_cons,← and_or_left]
    simp only [List.mem_cons,exists_eq_or_imp]

end Inversion

section Walk

variable {W : World} {C : Type}

theorem fetch_blockRef_shifting {p : Poller ShiftingNode C} {n : ℕ}
    (h : n ≤ p.source.current.chain.height) :
    (fetch (BlockSource.blockRef n) : Method ShiftingNode C (BlockAt n)).run p =
      .ok ⟨p.source.current.chain.block n,p.source.current.chain.number_block n h⟩
        { p with source := p.source.answered } := by
  simp [fetch,EStateM.run,BlockSource.blockRef,h]

theorem fetch_blockRef_ok {p q : Poller ShiftingNode C} {n : ℕ} {b : BlockAt n}
    (h : (fetch (BlockSource.blockRef n) : Method ShiftingNode C (BlockAt n)).run p = .ok b q) :
    n ≤ p.source.current.chain.height ∧ b.val = p.source.current.chain.block n ∧
      q = { p with source := p.source.answered } := by
  by_cases hle : n ≤ p.source.current.chain.height
  · rw [fetch_blockRef_shifting hle] at h
    cases h
    exact ⟨hle,rfl,rfl⟩
  · simp [fetch,EStateM.run,BlockSource.blockRef,hle] at h

theorem walk_undisturbed {p : Poller ShiftingNode C} {c : Chain} {n m : ℕ} (tip : BlockAt n)
    (htip : tip.val = c.block n) (hn : n ≤ m) (hm : m ≤ c.height)
    (h : p.tracker.Undisturbed c n p.source) :
    ∃ s, (walk n tip (c.segment n m) : Method ShiftingNode C (List BlockRef)).run p =
      .ok (c.segment (p.tracker.fork c n) m) { p with source := s } := by
  induction n generalizing p with
  | zero => exact ⟨p.source,rfl⟩
  | succ n ih =>
    have hlink := c.linked n (by omega)
    cases hat : p.tracker.blockAt n with
    | none =>
      rw [walk_stop _ (by simp [hat])]
      exact ⟨p.source,by simp [Tracker.fork,hat]⟩
    | some known =>
      by_cases hk : known.hash = (c.block (n+1)).parentHash
      · rw [walk_stop _ (by simp [hat,hk,htip])]
        exact ⟨p.source,by simp [Tracker.fork,hat,hk]⟩
      · obtain ⟨⟨hle,hblock⟩,hrest⟩ := h.next hat (by rwa [hlink] at hk)
        obtain ⟨s,hs⟩ := ih (p:={ p with source := p.source.answered })
          ⟨p.source.current.chain.block n,p.source.current.chain.number_block n hle⟩ hblock (by omega) hrest
        rw [Chain.segment_cons (show n ≤ m by omega) hm,← hblock] at hs
        refine ⟨s,?_⟩
        rw [walk_step _ hat (by rwa [htip]),EStateM.run_bind,fetch_blockRef_shifting hle]
        simp only [Tracker.fork,hat,hk,if_false]
        exact hs

/-- A walk that collects a linked branch was answered with blocks of its chain throughout. -/
theorem undisturbed_of_linked {p p' : Poller ShiftingNode C}
    (hnodes : ∀ k, W.Serves (p.source.nodes k)) {s : Node} (hs : W.Serves s) {n : ℕ}
    {tip : BlockAt n} (htip : tip.val = s.chain.block n) (hn : n ≤ s.chain.height)
    {above branch : List BlockRef} (hrun : (walk n tip (tip.val::above)).run p = .ok branch p')
    (hlinked : branch.IsChain fun a b => b.parentHash = a.hash) :
    p.tracker.Undisturbed s.chain n p.source := by
  induction n generalizing p above with
  | zero =>
    intro j hj
    omega
  | succ n ih =>
    have hlink := s.chain.linked n (by omega)
    intro j hj hdisputed
    obtain ⟨known,hat,hk⟩ := hdisputed n (Nat.lt_succ_self n) (by omega)
    rw [walk_step _ hat (by rwa [htip,hlink])] at hrun
    obtain ⟨parent,q,hfetch,hwalk⟩ := bind_ok hrun
    obtain ⟨hle,hparent,rfl⟩ := fetch_blockRef_ok hfetch
    -- the parent that was fetched is the one the tip names, hence the block of the chain
    obtain ⟨l,rfl⟩ := walk_extends hwalk
    have hstep := (List.isChain_cons_cons.mp hlinked.right_of_append).1
    have hblock : parent.val = s.chain.block n := by
      refine W.hash_inj ?_ (hs.2 n (by omega)) (by rw [← hstep,htip,hlink])
      rw [hparent]
      exact (hnodes _).2 n hle
    by_cases hjn : j = n
    · rw [hjn,show n+1-1-n = 0 by omega]
      exact ⟨hle,hparent.symm.trans hblock⟩
    · have hrest := ih (p:={ p with source := p.source.answered }) hnodes hblock (by omega) hwalk j
        (by omega) fun i hi hji => hdisputed i (by omega) hji
      rw [show p.source.calls+(n+1-1-j) = p.source.answered.calls+(n-1-j) by
        simp only [ShiftingNode.answered]; omega]
      exact hrest

/-- The branch handed to the tracker is linked, only its first block rolls anything back, and
no retained ancestor of the fed block is named in a `Reorged`. -/
structure Tolerates (W : World) (t : Tracker) (block : BlockRef) (branch : List BlockRef)
    (msgs : List IndexerMessage) : Prop where
  linked : branch.IsChain fun a b => b.parentHash = a.hash
  settled : ∀ u ∈ (t.observeAll branch).2.tail, u.reorged = []
  spared : ∀ orphaned, IndexerMessage.reorged orphaned ∈ msgs →
    ∀ x ∈ t.chain, W.Ancestor x block → x ∉ orphaned

theorem feed_ok {b : BlockRef} {n : ℕ} (hnum : b.number = n) {p p' : Poller ShiftingNode C}
    {branch : List BlockRef} {sent msgs : List IndexerMessage} {s : ShiftingNode}
    (hwalk : (walk n ⟨b,hnum⟩ [b] : Method ShiftingNode C (List BlockRef)).run p =
      .ok branch { p with source := s })
    (hfeed : (feed b sent).run p = .ok (sent ++ msgs) p') (orphaned : List BlockRef) :
    IndexerMessage.reorged orphaned ∈ msgs ↔
      orphaned ≠ [] ∧ ∃ u ∈ (p.tracker.observeAll branch).2, u.reorged = orphaned := by
  rw [feed_eq hnum,EStateM.run_bind,hwalk] at hfeed
  obtain ⟨new,hout,hnew⟩ := handOverAll_ok hfeed
  rw [List.append_cancel_left hout]
  exact hnew orphaned

/-- However the chain is replaced between the calls of the walk: it tolerates that exactly if
every call it makes is answered with a block of the chain that is fed, and the fed block does
not leave a gap above a head that lies on its chain. -/
theorem feed_tolerates_iff {p q p' : Poller ShiftingNode C} (hin : p.tracker.Inhabits W)
    (hnodes : ∀ k, W.Serves (p.source.nodes k)) {s : Node} (hs : W.Serves s) {n : ℕ}
    (hn : n ≤ s.chain.height) {branch : List BlockRef} (sent : List IndexerMessage)
    {msgs : List IndexerMessage}
    (hwalk : (walk n ⟨s.chain.block n,s.chain.number_block n hn⟩ [s.chain.block n]).run p =
      .ok branch q)
    (hfeed : (feed (s.chain.block n) sent).run p = .ok (sent ++ msgs) p') :
    Tolerates W p.tracker (s.chain.block n) branch msgs ↔
      p.tracker.Undisturbed s.chain n p.source ∧ p.tracker.NoGap s.chain n := by
  have hsegment : p.tracker.Undisturbed s.chain n p.source →
      branch = s.chain.segment (p.tracker.fork s.chain n) n ∧
      ∃ source, q = { p with source := source } := by
    intro h
    obtain ⟨source,hrun⟩ := walk_undisturbed ⟨_,s.chain.number_block n hn⟩ rfl (le_refl n) hn h
    rw [Chain.segment_cons (le_refl n) hn,Chain.segment_nil (Nat.lt_succ_self n),hwalk] at hrun
    cases hrun
    exact ⟨rfl,source,rfl⟩
  have hle := p.tracker.fork_le s.chain n
  constructor
  · intro h
    have hun := undisturbed_of_linked hnodes hs rfl hn hwalk h.linked
    refine ⟨hun,?_⟩
    by_contra hgap
    simp only [Tracker.NoGap,not_or,not_forall,not_le,ne_eq,not_not] at hgap
    obtain ⟨⟨top,htop,hlt⟩,x,hx,hon⟩ := hgap
    obtain ⟨hfork,hdrained⟩ := hin.sound.drained_of_gap hn htop hlt
    obtain ⟨hbranch,source,rfl⟩ := hsegment hun
    have hxle := hin.sound.linked.number_le htop hx
    refine h.spared p.tracker.chain ?_ x hx ((hs.ancestor_iff hn).mpr ⟨by omega,hon⟩) hx
    refine (feed_ok _ hwalk hfeed _).mpr ⟨List.ne_nil_of_mem hx,_,?_,
      (Tracker.observe_reorged _ _).trans hdrained⟩
    rw [hbranch,hfork,Chain.segment_cons (le_refl n) hn,Tracker.observeAll_cons]
    exact List.mem_cons_self
  · rintro ⟨hun,hgap⟩
    obtain ⟨rfl,source,rfl⟩ := hsegment hun
    obtain ⟨hsettled,hreorged⟩ := hin.sound.observeAll_segment hle hn
    refine ⟨(Chain.linked_segment hn).imp fun _ _ hb => hb.2,hsettled,?_⟩
    intro orphaned hmem x hx hancestor hxo
    obtain ⟨hne,u,hu,rfl⟩ := (feed_ok _ hwalk hfeed _).mp hmem
    obtain ⟨hlow,hon⟩ := (hs.ancestor_iff hn).mp hancestor
    rw [(hreorged u hu).resolve_right hne] at hxo
    exact hin.sound.orphaned_off_chain hn hgap hxo hlow hon

end Walk

def value? {S C α : Type} : EStateM.Result PollerError (Poller S C) α → Option α
  | .ok a _ => some a
  | .error _ _ => none

theorem exists_ok {S C α : Type} {x : Method S C α} {p : Poller S C} {a : α}
    (h : value? (x.run p) = some a) : ∃ q, x.run p = .ok a q := by
  cases hx : x.run p with
  | ok b q =>
    rw [hx] at h
    exact ⟨q,by rw [Option.some.inj h]⟩
  | error e q =>
    rw [hx] at h
    cases h

def followedLinear : Tracker :=
  (Tracker.observeAll (Tracker.fresh 6 8 (by decide)) (World.forkedLinear.segment 0 4)).1

theorem followedLinear_inhabits : followedLinear.Inhabits World.forked :=
  (Tracker.Inhabits.observeAll ⟨Tracker.fresh_sound _ _ _,by simp⟩ World.forked_linear
    fun _ hb => by
      obtain ⟨n,_,_,hn,rfl⟩ := Chain.mem_segment.mp hb
      exact ⟨n,hn,rfl⟩).1

/-- A poller that has followed the linear chain, over a node that serves the branch for the
next `calls` calls and the linear chain after that. -/
def turning (calls : ℕ) : Poller ShiftingNode NoCheckpoint :=
  new ⟨fun k => if k < calls then World.forked.node World.forkedBranch
    else World.forked.node World.forkedLinear,0⟩ followedLinear 0

theorem turning_serves (calls k : ℕ) : World.forked.Serves ((turning calls).source.nodes k) := by
  by_cases hk : k < calls
  · simpa [turning,new,hk] using World.forked_branch
  · simpa [turning,new,hk] using World.forked_linear

/-- The branch is replaced only after the walk, which takes three calls. -/
theorem feed_tolerates_late :
    Tolerates World.forked followedLinear (World.forkedBranch.block 5)
      (World.forkedBranch.segment 2 5) [.reorged [Tracker.block 2,Tracker.block 3,Tracker.block 4]] := by
  obtain ⟨q,hwalk⟩ := exists_ok (p:=turning 3) (a:=World.forkedBranch.segment 2 5)
    (x:=walk 5 ⟨World.forkedBranch.block 5,rfl⟩ [World.forkedBranch.block 5]) (by decide +kernel)
  obtain ⟨p',hfeed⟩ := exists_ok (p:=turning 3) (x:=feed (World.forkedBranch.block 5) [])
    (a:=[.reorged [Tracker.block 2,Tracker.block 3,Tracker.block 4]]) (by decide +kernel)
  exact (feed_tolerates_iff (p:=turning 3) followedLinear_inhabits (turning_serves 3)
    World.forked_branch (n:=5) (by decide) [] hwalk hfeed).mpr
      ⟨by decide +kernel,by decide +kernel⟩

/-- The branch is replaced by the linear chain before the first call: the walk stops on the
linear block 4, which block 5 of the branch does not attach to, and the tracker is drained
below the fork. -/
theorem feed_intolerant :
    ∃ branch q msgs p', branch = [Tracker.block 4,World.forkedBranch.block 5] ∧
      (walk 5 ⟨World.forkedBranch.block 5,rfl⟩ [World.forkedBranch.block 5]).run (turning 0) =
        .ok branch q ∧
      (feed (World.forkedBranch.block 5) []).run (turning 0) = .ok msgs p' ∧
      followedLinear.Inhabits World.forked ∧
      (∀ k, World.forked.Serves ((turning 0).source.nodes k)) ∧
      ¬(branch.IsChain fun a b => b.parentHash = a.hash) ∧
      (∃ u ∈ (followedLinear.observeAll branch).2.tail, u.reorged ≠ []) ∧
      ∃ orphaned, IndexerMessage.reorged orphaned ∈ msgs ∧ Tracker.block 1 ∈ orphaned ∧
        Tracker.block 1 ∈ followedLinear.chain ∧
        World.forked.Ancestor (Tracker.block 1) (World.forkedBranch.block 5) := by
  refine ⟨_,_,_,_,rfl,rfl,rfl,followedLinear_inhabits,turning_serves 0,by decide +kernel,
    by decide +kernel,[0,1,2,3,4].map Tracker.block,by decide +kernel,by decide +kernel,
    by decide +kernel,?_⟩
  exact (World.forked_branch.ancestor_iff (n:=5) (by decide)).mpr ⟨by decide,by decide +kernel⟩

end Poller
end Fintrails
