import Fintrails.StablePoller

/-! How the segment that one poll feeds meets the chain the tracker retains.  Its
first block either attaches to a retained block or starts no higher than the
oldest of them; every later one extends the head. -/
namespace Fintrails
namespace Tracker

theorem guarded_segment {ok : Tracker → BlockRef → Prop} {t : Tracker} {c : Chain}
    {first last : ℕ} (hs : t.Sound) (hlast : last ≤ c.height)
    (hfirst : first ≤ last → ok t (c.block first))
    (hnext : ∀ (t' : Tracker) n, t'.Sound → t'.head = some (c.block n) → first ≤ n → n < last →
      ok t' (c.block (n+1))) :
    Machine.Guarded observe ok t (c.segment first last) := by
  obtain ⟨k,hk⟩ : ∃ k, k = last+1-first := ⟨_,rfl⟩
  induction k generalizing t first with
  | zero => rw [Chain.segment_nil (by omega)]; trivial
  | succ k ih =>
    have hle : first ≤ last := by omega
    have hb := c.number_lt (n:=first) (by omega)
    rw [Chain.segment_cons hle hlast]
    refine ⟨hfirst hle,ih (hs.observe hb) ?_ ?_ (by omega)⟩
    · intro h
      exact hnext _ first (hs.observe hb) (observe_head _ _) (le_refl _) (by omega)
    · intro t' n ht' hhead hn
      exact hnext t' n ht' hhead (by omega)

theorem Sound.orphaned_of_head {t : Tracker} (h : t.Sound) {b top : BlockRef}
    (htop : t.head = some top) (ha : Attaches b top) : t.orphaned b = [] := by
  by_contra hne
  have hlast : (t.orphaned b).getLast? = some top := by
    rw [head,← t.kept_append_orphaned b,List.getLast?_append_of_ne_nil _ hne] at htop
    exact htop
  have hnot := t.not_attaches_orphaned b (List.mem_of_getLast? hlast)
  rw [(attaches_iff (h.below top (List.mem_of_getLast? htop))).mpr ha] at hnot
  cases hnot

theorem Sound.pulled_of_head {t : Tracker} (h : t.Sound) {b top : BlockRef}
    (htop : t.head = some top) (ha : Attaches b top) : t.pulled b = t.frontier := by
  rw [pulled_eq,h.orphaned_of_head htop ha]
  rfl

def Extends (t : Tracker) (b : BlockRef) : Prop :=
  b.number < 2^64-1 ∧ ∃ top, t.head = some top ∧ Attaches b top

theorem extends_head {t : Tracker} {c : Chain} {n : ℕ} (hn : n < c.height)
    (hhead : t.head = some (c.block n)) : t.Extends (c.block (n+1)) := by
  refine ⟨c.number_lt hn,c.block n,hhead,?_,c.linked n hn⟩
  rw [c.number_block (n+1) hn,c.number_block n (by omega)]

theorem Extends.attaches {t : Tracker} {b : BlockRef} (h : t.Extends b) :
    ∃ x ∈ t.chain, Attaches b x := by
  obtain ⟨_,top,htop,ha⟩ := h
  exact ⟨top,List.mem_of_getLast? htop,ha⟩

theorem Sound.guarded_extends {t : Tracker} (h : t.Sound) {c : Chain} {first last : ℕ}
    (hhead : t.head = some (c.block first)) (hlast : last ≤ c.height) :
    Machine.Guarded Tracker.observe Extends t (c.segment (first+1) last) :=
  guarded_segment h hlast (fun _ => extends_head (by omega) hhead)
    fun _ _ _ hhead' _ _ => extends_head (by omega) hhead'

theorem Sound.pulled_le_segment {t : Tracker} (h : t.Sound) {c : Chain} {first last : ℕ}
    (hle : first ≤ last) (hlast : last ≤ c.height) :
    t.pulled (c.block first) ≤ (Tracker.observeAll t (c.segment first last)).1.frontier := by
  have hb := c.number_lt (hle.trans hlast)
  have hstep : ∀ t' b, (t'.Sound ∧ t.pulled (c.block first) ≤ t'.frontier) → t'.Extends b →
      (Tracker.observe t' b).1.Sound ∧ t.pulled (c.block first) ≤ (Tracker.observe t' b).1.frontier := by
    rintro t' b ⟨hs,hle⟩ ⟨hnum,top,htop,ha⟩
    refine ⟨hs.observe hnum,?_⟩
    rw [observe_frontier,hs.pulled_of_head htop ha]
    exact hle.trans (le_max_left _ _)
  have hstart : t.pulled (c.block first) ≤ (Tracker.observe t (c.block first)).1.frontier := by
    rw [observe_frontier]
    exact le_max_left _ _
  rw [Chain.segment_cons hle hlast]
  exact (Machine.state_invariant hstep ⟨h.observe hb,hstart⟩
    ((h.observe hb).guarded_extends (observe_head _ _) hlast)).2

theorem Sound.retained_iff {t : Tracker} (h : t.Sound) {top : BlockRef}
    (htop : t.head = some top) (n : ℕ) :
    (∃ known, t.blockAt n = some known) ↔ base t.chain ≤ n ∧ n ≤ top.number := by
  have hend := h.linked.base_add_length htop
  constructor
  · rintro ⟨known,hk⟩
    obtain ⟨hmem,rfl⟩ := mem_of_blockAt hk
    have hb := h.linked.numbered.bounds hmem
    omega
  · rintro ⟨h1,h2⟩
    obtain ⟨x,hx,rfl⟩ := h.linked.numbered.exists_num h1 (by omega)
    exact ⟨x,h.blockAt_mem hx⟩

/-- Where the walk stops, the branch attaches or starts no higher than the oldest
retained block. -/
theorem Sound.fork_cases {t : Tracker} (h : t.Sound) {c : Chain} {top : BlockRef} {n : ℕ}
    (htop : t.head = some top) (hn : n ≤ top.number+1) (hheight : n ≤ c.height) :
    (∃ x ∈ t.chain, Attaches (c.block (t.fork c n)) x) ∨ t.fork c n ≤ base t.chain := by
  have hle := t.fork_le c n
  rcases t.fork_stop c n with hzero | ⟨f,hf,hstop⟩
  · exact .inr (by omega)
  · by_cases hret : ∃ known, t.blockAt f = some known
    · obtain ⟨known,hknown⟩ := hret
      obtain ⟨hmem,hnum⟩ := mem_of_blockAt hknown
      refine .inl ⟨known,hmem,?_,?_⟩
      · rw [hf,c.number_block (f+1) (by omega),hnum]
      · rw [hf]
        exact (hstop known hknown).symm
    · rw [h.retained_iff htop] at hret
      exact .inr (by omega)

/-- The number from which the walk of one poll starts. -/
def walkFrom (top : BlockRef) (s : Node) : ℕ :=
  if top.number < s.head then top.number+1 else s.head

theorem walkFrom_le (top : BlockRef) (s : Node) : walkFrom top s ≤ s.head := by
  unfold walkFrom
  split <;> omega

theorem walkFrom_le_succ (top : BlockRef) (s : Node) : walkFrom top s ≤ top.number+1 := by
  unfold walkFrom
  split <;> omega

theorem Sound.base_le_fork {t : Tracker} (h : t.Sound) {top : BlockRef} (htop : t.head = some top)
    {s : Node} (hs : base t.chain ≤ s.head) : base t.chain ≤ t.fork s.chain (walkFrom top s) := by
  have hlow := (h.linked.numbered.bounds (List.mem_of_getLast? htop)).1
  have hwalk : base t.chain ≤ walkFrom top s := by
    unfold walkFrom
    split <;> omega
  by_contra hlt
  obtain ⟨known,hknown,-⟩ := t.fork_mismatch s.chain (n:=walkFrom top s)
    (j:=t.fork s.chain (walkFrom top s)) (le_refl _) (by omega)
  have hret := (h.retained_iff htop _).mp ⟨known,hknown⟩
  omega

/-- A poll of a tracker that holds blocks feeds nothing, because the reported head
is retained as it is, or the canonical segment from the fork point. -/
theorem plan_cases {t : Tracker} {top : BlockRef} (htop : t.head = some top) (s : Node)
    (startBlock : ℕ) :
    (t.plan s startBlock = [] ∧ s.head ≤ top.number ∧
      ∃ b, t.blockAt s.head = some b ∧ b.hash = (s.chain.block s.head).hash) ∨
    (t.plan s startBlock = s.chain.segment (t.fork s.chain (walkFrom top s)) s.head ∧
      (s.head ≤ top.number → ∀ b, t.blockAt s.head = some b →
        b.hash ≠ (s.chain.block s.head).hash)) := by
  simp only [plan,htop,walkFrom]
  by_cases hgrew : top.number < s.head
  · simp only [hgrew,if_true]
    exact .inr ⟨trivial,fun h => absurd h (by omega)⟩
  · simp only [hgrew,if_false]
    cases hat : t.blockAt s.head with
    | none => exact .inr ⟨by simp,fun _ b hb => by cases hb⟩
    | some b =>
      by_cases heq : b.hash = (s.chain.block s.head).hash
      · exact .inl ⟨by simp [heq],by omega,b,rfl,heq⟩
      · refine .inr ⟨by simp [heq],?_⟩
        intro _ b' hb'
        rw [← Option.some.inj hb']
        exact heq

theorem plan_idle {t : Tracker} (h : t.head = none) (s : Node) (startBlock : ℕ) :
    t.plan s startBlock = s.chain.segment startBlock s.head := by
  simp [plan,h]

theorem mem_plan {t : Tracker} {s : Node} {startBlock : ℕ} {b : BlockRef}
    (hb : b ∈ t.plan s startBlock) : ∃ n ≤ s.chain.height, s.chain.block n = b := by
  have hseg : ∀ first, b ∈ s.chain.segment first s.head →
      ∃ n ≤ s.chain.height, s.chain.block n = b := by
    intro first hmem
    obtain ⟨n,_,_,hn,rfl⟩ := Chain.mem_segment.mp hmem
    exact ⟨n,hn,rfl⟩
  cases hhead : t.head with
  | none =>
    rw [plan_idle hhead] at hb
    exact hseg _ hb
  | some top =>
    rcases plan_cases hhead s startBlock with ⟨hplan,_⟩ | ⟨hplan,_⟩
    · rw [hplan] at hb
      cases hb
    · rw [hplan] at hb
      exact hseg _ hb

theorem Sound.plan_sound {t : Tracker} (h : t.Sound) (s : Node) (startBlock : ℕ) :
    (Tracker.observeAll t (t.plan s startBlock)).1.Sound := by
  refine h.observeAll fun b hb => ?_
  obtain ⟨n,hn,rfl⟩ := mem_plan hb
  exact s.chain.number_lt hn

/-- To show what holds of every block that a poll feeds: the start block, where nothing is
retained; the block the walk stops at; and whatever extends the head. -/
theorem Sound.guarded_plan {ok : Tracker → BlockRef → Prop} {t : Tracker} (h : t.Sound) {s : Node}
    {startBlock : ℕ}
    (hstart : t.head = none → startBlock ≤ s.head → ok t (s.chain.block startBlock))
    (hfork : ∀ top, t.head = some top → (s.head ≤ top.number → ∀ b, t.blockAt s.head = some b →
      b.hash ≠ (s.chain.block s.head).hash) →
      ok t (s.chain.block (t.fork s.chain (walkFrom top s))))
    (hnext : ∀ (t' : Tracker) n, n < s.head → t'.Extends (s.chain.block (n+1)) →
      ok t' (s.chain.block (n+1))) :
    Machine.Guarded Tracker.observe ok t (t.plan s startBlock) := by
  have hle := s.head_le
  have hlater : ∀ (t' : Tracker) n, t'.head = some (s.chain.block n) → n < s.head →
      ok t' (s.chain.block (n+1)) :=
    fun t' n hhead hn => hnext t' n hn (extends_head (by omega) hhead)
  cases hhead : t.head with
  | none =>
    rw [plan_idle hhead]
    exact guarded_segment h hle (hstart hhead) fun t' n _ hhead' _ hn => hlater t' n hhead' hn
  | some top =>
    rcases plan_cases hhead s startBlock with ⟨hplan,-⟩ | ⟨hplan,hchanged⟩
    · rw [hplan]
      trivial
    · rw [hplan]
      exact guarded_segment h hle (fun _ => hfork top hhead hchanged)
        fun t' n _ hhead' _ hn => hlater t' n hhead' hn

/-- A block that leaves no gap: it is the first one, attaches to a retained block, or
starts no higher than the oldest of them. -/
def Reaches (startBlock : ℕ) (t : Tracker) (b : BlockRef) : Prop :=
  b.number < 2^64-1 ∧ (t.chain = [] → b.number ≤ startBlock) ∧
    (t.chain ≠ [] → (∃ x ∈ t.chain, Attaches b x) ∨ b.number ≤ base t.chain)

theorem Sound.base_kept_le {t : Tracker} (h : t.Sound) {startBlock : ℕ}
    (hbase : t.chain ≠ [] → base t.chain ≤ max startBlock t.frontier) {b : BlockRef}
    (hb : t.Reaches startBlock b) : base (t.kept b ++ [b]) ≤ max startBlock (t.pulled b) := by
  rcases h.kept_cases b with ⟨top,htop,ha,hlast,hfrom⟩ | ⟨hnone,hkept,horphaned⟩
  · have hne : t.kept b ≠ [] := by
      intro hnil
      rw [hnil] at hlast
      cases hlast
    have hchain : base (t.kept b) = base t.chain := by
      rw [← base_append (m:=t.orphaned b) hne,kept_append_orphaned]
    have hle := hbase (List.ne_nil_of_mem htop)
    have hlow := (h.linked.numbered.bounds htop).1
    have hnum := ha.1
    rw [base_append hne,hchain,pulled_of_attaches hfrom]
    split <;> omega
  · rw [hkept,List.nil_append,base_cons,pulled_of_drained horphaned]
    split
    · rename_i hnil
      exact (hb.2.1 hnil).trans (le_max_left _ _)
    · rename_i hne
      have hle := hbase hne
      have hlow := (hb.2.2 hne).resolve_left fun ⟨x,hx,ha⟩ => hnone x hx ha
      omega

theorem base_trim_le {window confirmations : ℕ} (hw : confirmations < window)
    {l : List BlockRef} {b : BlockRef} (hl : Linked (l++[b])) :
    base (trim window (l++[b])) ≤ max (base (l++[b])) (b.number+1-confirmations) := by
  have hend := hl.base_concat
  have hdrop := hl.numbered.drop ((l++[b]).length-window)
  have hne : (trim window (l++[b])) ≠ [] := by
    intro hnil
    have hlast := trim_concat_getLast? (Nat.lt_of_le_of_lt (Nat.zero_le _) hw) l b
    rw [hnil] at hlast
    cases hlast
  rw [← trim_eq_drop] at hdrop
  obtain ⟨x,m,hm⟩ := List.exists_cons_of_ne_nil hne
  rw [hm] at hdrop ⊢
  rw [base_cons,hdrop.1]
  simp only [List.length_append,List.length_singleton]
  omega

theorem Sound.base_observe_le {t : Tracker} (h : t.Sound) {startBlock : ℕ}
    (hbase : t.chain ≠ [] → base t.chain ≤ max startBlock t.frontier) {b : BlockRef}
    (hb : t.Reaches startBlock b) :
    base (Tracker.observe t b).1.chain ≤ max startBlock (Tracker.observe t b).1.frontier := by
  have hkept := h.base_kept_le hbase hb
  have htrim := base_trim_le t.window_exceeds (h.linked_kept b)
  rw [observe_chain,observe_frontier]
  omega

end Tracker
end Fintrails
