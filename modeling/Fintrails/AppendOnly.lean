import Fintrails.World

/-! The poller over one chain that no block of is ever replaced.  The tracker retains
the end of what it has been fed, every update confirms the next blocks in order,
and nothing is orphaned, as long as no reported head lies below the oldest
retained block. -/
namespace Fintrails

/-- The blocks numbered from `start` up to but not including `next`. -/
def Chain.upTo (c : Chain) (start next : ℕ) : List BlockRef :=
  (List.range' start (next-start)).map c.block

theorem Chain.upTo_nil {c : Chain} {start next : ℕ} (h : next ≤ start) : c.upTo start next = [] := by
  simp [upTo,show next-start = 0 by omega]

theorem Chain.upTo_append {c : Chain} {start mid next : ℕ} (hmid : mid ≤ max start next) :
    c.upTo start mid ++ c.upTo (max start mid) next = c.upTo start next := by
  by_cases h : start ≤ mid
  · rw [upTo,upTo,upTo,show max start mid = start+(mid-start) by omega,← List.map_append,
      List.range'_append_1]
    congr 2
    omega
  · rw [upTo_nil (by omega),List.nil_append,show max start mid = start by omega]

theorem Chain.mem_upTo {c : Chain} {start next : ℕ} {b : BlockRef} :
    b ∈ c.upTo start next ↔ ∃ n, start ≤ n ∧ n < next ∧ c.block n = b := by
  simp only [upTo,List.mem_map,List.mem_range'_1]
  constructor
  · rintro ⟨n,hn,rfl⟩
    exact ⟨n,hn.1,by omega,rfl⟩
  · rintro ⟨n,h1,h2,rfl⟩
    exact ⟨n,by omega,rfl⟩

namespace Tracker

def nextNumber (start : ℕ) (t : Tracker) : ℕ :=
  match t.head with
  | none => start
  | some top => top.number+1

/-- The tracker has been fed the blocks of `c` from `start` on, in order. -/
structure Grown (c : Chain) (start : ℕ) (t : Tracker) : Prop where
  sound : t.Sound
  on_chain : ∀ b ∈ t.chain, b = c.block b.number ∧ b.number ≤ c.height
  idle : t.chain = [] → t.frontier = 0
  start_le : t.chain ≠ [] → start ≤ base t.chain
  base_le : t.chain ≠ [] → base t.chain ≤ max start t.frontier
  frontier_eq : ∀ top ∈ t.head, t.frontier = top.number+1-t.confirmations

variable {c : Chain} {start : ℕ} {t : Tracker}

theorem Grown.head_on_chain (h : Grown c start t) {top : BlockRef} (htop : t.head = some top) :
    top = c.block top.number ∧ top.number ≤ c.height :=
  h.on_chain top (List.mem_of_getLast? htop)

theorem Grown.start_le_head (h : Grown c start t) {top : BlockRef} (htop : t.head = some top) :
    start ≤ top.number := by
  have hmem := List.mem_of_getLast? htop
  exact (h.start_le (List.ne_nil_of_mem hmem)).trans (h.sound.linked.numbered.bounds hmem).1

theorem Grown.start_le_next (h : Grown c start t) : start ≤ t.nextNumber start := by
  cases htop : t.head with
  | none => simp [nextNumber,htop]
  | some top =>
    have hstart := h.start_le_head htop
    simp only [nextNumber,htop]
    omega

theorem Grown.frontier_le (h : Grown c start t) : t.frontier ≤ c.height+1 := by
  cases htop : t.head with
  | none =>
    rw [h.idle (List.getLast?_eq_none_iff.mp htop)]
    exact Nat.zero_le _
  | some top =>
    have hle := (h.head_on_chain htop).2
    rw [h.frontier_eq top htop]
    omega

theorem Grown.orphaned_eq (h : Grown c start t) (hn : t.nextNumber start ≤ c.height) :
    t.orphaned (c.block (t.nextNumber start)) = [] := by
  cases htop : t.head with
  | none =>
    have hnil : t.chain = [] := List.getLast?_eq_none_iff.mp htop
    simp [orphaned,hnil,List.rtakeWhile]
  | some top =>
    simp only [nextNumber,htop] at hn ⊢
    obtain ⟨heq,hle⟩ := h.head_on_chain htop
    refine h.sound.orphaned_of_head htop ⟨c.number_block _ hn,?_⟩
    rw [c.linked top.number (by omega),← heq]

theorem Grown.kept_eq (h : Grown c start t) (hn : t.nextNumber start ≤ c.height) :
    t.kept (c.block (t.nextNumber start)) = t.chain := by
  have happend := t.kept_append_orphaned (c.block (t.nextNumber start))
  rwa [h.orphaned_eq hn,List.append_nil] at happend

theorem Grown.pulled_eq (h : Grown c start t) (hn : t.nextNumber start ≤ c.height) :
    t.pulled (c.block (t.nextNumber start)) = t.frontier := by
  rw [Tracker.pulled_eq,h.orphaned_eq hn]
  rfl

theorem Grown.reaches (h : Grown c start t) (hn : t.nextNumber start ≤ c.height) :
    t.Reaches start (c.block (t.nextNumber start)) := by
  have hc := c.height_lt
  rw [Reaches,c.number_block _ hn]
  refine ⟨by omega,fun hnil => ?_,fun hne => .inl ?_⟩
  · simp [nextNumber,head,hnil]
  · obtain ⟨top,htop⟩ := Option.isSome_iff_exists.mp (List.getLast?_isSome.mpr hne)
    have htop : t.head = some top := htop
    simp only [nextNumber,htop] at hn ⊢
    obtain ⟨heq,hle⟩ := h.head_on_chain htop
    refine ⟨top,List.mem_of_getLast? htop,c.number_block _ hn,?_⟩
    rw [c.linked top.number (by omega),← heq]

theorem Grown.observe_frontier (h : Grown c start t) (hn : t.nextNumber start ≤ c.height) :
    (observe t (c.block (t.nextNumber start))).1.frontier =
        t.nextNumber start+1-t.confirmations ∧
      t.frontier ≤ t.nextNumber start+1-t.confirmations := by
  have hfrontier := Tracker.observe_frontier t (c.block (t.nextNumber start))
  rw [h.pulled_eq hn,c.number_block _ hn] at hfrontier
  have hle : t.frontier ≤ t.nextNumber start+1-t.confirmations := by
    cases htop : t.head with
    | none =>
      rw [h.idle (List.getLast?_eq_none_iff.mp htop)]
      exact Nat.zero_le _
    | some top =>
      rw [h.frontier_eq top htop,nextNumber,htop]
      simp only
      omega
  exact ⟨by rw [hfrontier]; omega,hle⟩

theorem Grown.observe_confirmed (h : Grown c start t) (hn : t.nextNumber start ≤ c.height) :
    (observe t (c.block (t.nextNumber start))).2.confirmed =
      c.upTo (max start t.frontier) (observe t (c.block (t.nextNumber start))).1.frontier := by
  obtain ⟨hfrontier,hle⟩ := h.observe_frontier hn
  have hl := h.sound.linked_kept (c.block (t.nextNumber start))
  have hbase := h.sound.base_kept_le h.base_le (h.reaches hn)
  have hend := hl.base_concat
  have hstart : start ≤ base (t.kept (c.block (t.nextNumber start)) ++
      [c.block (t.nextNumber start)]) := by
    rw [h.kept_eq hn]
    by_cases hnil : t.chain = []
    · rw [hnil,List.nil_append,base_cons,c.number_block _ hn]
      simp [nextNumber,head,hnil]
    · rw [base_append hnil]
      exact h.start_le hnil
  have hmap : ∀ b ∈ t.kept (c.block (t.nextNumber start)) ++ [c.block (t.nextNumber start)],
      b = c.block b.number := by
    intro b hb
    rw [h.kept_eq hn] at hb
    rcases List.mem_append.mp hb with hb | hb
    · exact (h.on_chain b hb).1
    · rw [List.mem_singleton.mp hb,c.number_block _ hn]
  have hlist := hl.numbered.eq_map hmap
  rw [h.pulled_eq hn] at hbase
  rw [c.number_block _ hn] at hend
  rw [h.sound.confirmed,h.pulled_eq hn,hlist,hfrontier,c.number_block _ hn]
  rw [Numbered.slice_map_range' t.frontier _ fun m _ hm => c.number_block m ?_]
  · simp only [List.length_append,List.length_singleton]
    rw [Chain.upTo]
    congr 2 <;> omega
  · simp only [List.length_append,List.length_singleton] at hm
    omega

theorem Grown.observe (h : Grown c start t) (hn : t.nextNumber start ≤ c.height) :
    Grown c start (Tracker.observe t (c.block (t.nextNumber start))).1 := by
  have hnum := c.number_block _ hn
  refine ⟨h.sound.observe (c.number_lt hn),?_,fun hnil => absurd hnil (observe_chain_ne_nil _ _),?_,
    fun _ => h.sound.base_observe_le h.base_le (h.reaches hn),?_⟩
  · intro b hb
    rw [observe_chain,h.kept_eq hn] at hb
    rcases List.mem_append.mp ((trim_suffix _ _).subset hb) with hb | hb
    · exact h.on_chain b hb
    · rw [List.mem_singleton.mp hb,hnum]
      exact ⟨rfl,hn⟩
  · intro hne
    obtain ⟨b,l,hb⟩ := List.exists_cons_of_ne_nil hne
    have hmem : b ∈ t.chain ++ [c.block (t.nextNumber start)] := by
      have hsub := trim_suffix t.window (t.kept (c.block (t.nextNumber start)) ++
        [c.block (t.nextNumber start)])
      rw [← observe_chain,hb,h.kept_eq hn] at hsub
      exact hsub.subset (by simp)
    rw [hb,base_cons]
    rcases List.mem_append.mp hmem with hmem | hmem
    · have hlow := (h.sound.linked.numbered.bounds hmem).1
      exact (h.start_le (List.ne_nil_of_mem hmem)).trans hlow
    · rw [List.mem_singleton.mp hmem,hnum]
      exact h.start_le_next
  · intro top htop
    rw [observe_head] at htop
    rw [← Option.some.inj htop,hnum,(h.observe_frontier hn).1]
    rfl

structure Advances (c : Chain) (start : ℕ) (t : Tracker) (us : List TrackerUpdate)
    (t' : Tracker) : Prop where
  grown : Grown c start t'
  confirmations : t'.confirmations = t.confirmations
  frontier_le : t.frontier ≤ t'.frontier
  reorged : ∀ u ∈ us, u.reorged = []
  ranges : ∀ u ∈ us, ∃ first next, u.confirmed = c.upTo first next ∧ next ≤ c.height+1
  confirmed : us.flatMap TrackerUpdate.confirmed = c.upTo (max start t.frontier) t'.frontier

theorem Grown.advances_nil (h : Grown c start t) : Advances c start t [] t :=
  ⟨h,rfl,le_refl _,by simp,by simp,by rw [Chain.upTo_nil (le_max_right _ _)]; rfl⟩

theorem Advances.observe {t' : Tracker} {us : List TrackerUpdate} (h : Advances c start t us t')
    (hn : t'.nextNumber start ≤ c.height) :
    Advances c start t (us ++ [(Tracker.observe t' (c.block (t'.nextNumber start))).2])
      (Tracker.observe t' (c.block (t'.nextNumber start))).1 := by
  obtain ⟨hfrontier,hle⟩ := h.grown.observe_frontier hn
  have hconfirmed := h.grown.observe_confirmed hn
  have hold := h.frontier_le
  refine ⟨h.grown.observe hn,h.confirmations,by omega,?_,?_,?_⟩
  · intro u hu
    rcases List.mem_append.mp hu with hu | hu
    · exact h.reorged u hu
    · rw [List.mem_singleton.mp hu,observe_reorged,h.grown.orphaned_eq hn]
  · intro u hu
    rcases List.mem_append.mp hu with hu | hu
    · exact h.ranges u hu
    · rw [List.mem_singleton.mp hu]
      exact ⟨_,_,hconfirmed,by omega⟩
  · rw [List.flatMap_append,h.confirmed,List.flatMap_singleton,hconfirmed,
      show max start t'.frontier = max (max start t.frontier) t'.frontier by omega]
    exact c.upTo_append (by omega)

theorem nextNumber_of_head {b : BlockRef} (h : t.head = some b) :
    t.nextNumber start = b.number+1 := by
  simp [nextNumber,h]

theorem Grown.segment (h : Grown c start t) {last : ℕ} (hlast : last ≤ c.height) :
    Advances c start t (observeAll t (c.segment (t.nextNumber start) last)).2
      (observeAll t (c.segment (t.nextNumber start) last)).1 := by
  have hstep : ∀ us (t' : Tracker) b, Advances c start t us t' →
      (b = c.block (t'.nextNumber start) ∧ t'.nextNumber start ≤ c.height) →
      Advances c start t (us ++ [(Tracker.observe t' b).2]) (Tracker.observe t' b).1 := by
    rintro us t' b h' ⟨rfl,hn⟩
    exact h'.observe hn
  refine Machine.outputs_run hstep h.advances_nil (guarded_segment h.sound hlast ?_ ?_)
  · exact fun hle => ⟨rfl,by omega⟩
  · intro t' n _ hhead _ hn
    rw [nextNumber_of_head hhead,c.number_block n (by omega)]
    exact ⟨rfl,by omega⟩

theorem nextNumber_segment (t : Tracker) (start : ℕ) {last : ℕ} (hlast : last ≤ c.height) :
    (observeAll t (c.segment (t.nextNumber start) last)).1.nextNumber start =
      max (t.nextNumber start) (last+1) := by
  by_cases hle : t.nextNumber start ≤ last
  · obtain ⟨l,hl⟩ := Chain.exists_segment_concat hle hlast
    rw [hl,nextNumber_of_head (observeAll_head t l _),c.number_block last hlast]
    omega
  · rw [Chain.segment_nil (by omega)]
    change t.nextNumber start = _
    omega

def Behind (t : Tracker) (last : ℕ) : Prop := ∀ top ∈ t.head, top.number ≤ last

theorem Grown.behind_of_next {t' : Tracker} (h' : Grown c start t') {last : ℕ} (hb : t.Behind last)
    (hnext : t'.nextNumber start ≤ max (t.nextNumber start) (last+1)) : t'.Behind last := by
  intro top' htop'
  have hstart := h'.start_le_head htop'
  rw [nextNumber_of_head htop'] at hnext
  cases htop : t.head with
  | none =>
    simp only [nextNumber,htop] at hnext
    omega
  | some top =>
    have hle := hb top htop
    rw [nextNumber_of_head htop] at hnext
    omega

theorem Grown.frontier_reached (h : Grown c start t) {t' : Tracker} (h' : Grown c start t')
    {last : ℕ} (hb : t.Behind last)
    (hnext : t'.nextNumber start = max (t.nextNumber start) (last+1)) :
    t'.frontier = if start ≤ last then last+1-t'.confirmations else 0 := by
  have hb' := h'.behind_of_next hb hnext.le
  have hle := h.start_le_next
  cases htop : t'.head with
  | none =>
    have hidle := h'.idle (List.getLast?_eq_none_iff.mp htop)
    simp only [nextNumber,htop] at hnext
    simp only [nextNumber] at hle
    rw [hidle,if_neg (by omega)]
  | some top =>
    have hstart := h'.start_le_head htop
    have htop' := hb' top htop
    rw [nextNumber_of_head htop] at hnext
    rw [h'.frontier_eq top htop,if_pos (by omega)]
    omega

/-- The reported head does not lie below the oldest block the tracker retains. -/
def HeadRetained (t : Tracker) (s : Node) : Prop := t.chain = [] ∨ base t.chain ≤ s.head

instance headRetainedDecidable (t : Tracker) (s : Node) : Decidable (t.HeadRetained s) :=
  inferInstanceAs (Decidable (_ ∨ _))

theorem Grown.plan_eq {s : Node} (h : Grown s.chain start t) (hr : t.HeadRetained s) :
    t.plan s start = s.chain.segment (t.nextNumber start) s.head := by
  have hle := s.head_le
  cases htop : t.head with
  | none => rw [plan_idle htop,nextNumber,htop]
  | some top =>
    obtain ⟨heq,hheight⟩ := h.head_on_chain htop
    rw [nextNumber_of_head htop]
    rcases plan_cases htop s start with ⟨hplan,hlow,_⟩ | ⟨hplan,hchanged⟩
    · rw [hplan,Chain.segment_nil (by omega)]
    · by_cases hgrew : top.number < s.head
      · have hfork := h.sound.fork_of_head (c:=s.chain) (n:=top.number) (by omega)
          (by rw [← heq]; exact htop)
        rw [hplan,walkFrom,if_pos hgrew,hfork]
      · exfalso
        have hbase := hr.resolve_left (List.ne_nil_of_mem (List.mem_of_getLast? htop))
        obtain ⟨b,hb⟩ := (h.sound.retained_iff htop s.head).mpr ⟨hbase,by omega⟩
        obtain ⟨hmem,hnum⟩ := mem_of_blockAt hb
        refine hchanged (by omega) b hb ?_
        rw [(h.on_chain b hmem).1,hnum]

theorem Grown.plan_drains {s : Node} (h : Grown s.chain start t) (hr : ¬t.HeadRetained s) :
    t.plan s start = [s.chain.block s.head] ∧
      (Tracker.observe t (s.chain.block s.head)).2.reorged ≠ [] := by
  have hle := s.head_le
  obtain ⟨hne,hlow⟩ := not_or.mp hr
  obtain ⟨top,htop⟩ := Option.isSome_iff_exists.mp (List.getLast?_isSome.mpr hne)
  have htop : t.head = some top := htop
  have hend := h.sound.linked.number_le htop (List.mem_of_getLast? htop)
  have hbase := (h.sound.linked.numbered.bounds (List.mem_of_getLast? htop)).1
  have hout : ∀ n < base t.chain, t.blockAt n = none := by
    intro n hn
    cases hat : t.blockAt n with
    | none => rfl
    | some b =>
      have hret := (h.sound.retained_iff htop n).mp ⟨b,hat⟩
      omega
  have hfork : t.fork s.chain s.head = s.head := by
    cases hhead : s.head with
    | zero => rfl
    | succ n => simp [fork,hout n (by omega)]
  constructor
  · rcases plan_cases htop s start with ⟨_,_,b,hb,_⟩ | ⟨hplan,_⟩
    · rw [hout s.head (by omega)] at hb
      cases hb
    · rw [hplan,walkFrom,if_neg (by omega),hfork,Chain.segment_cons (le_refl _) hle,
        Chain.segment_nil (by omega)]
  · rw [observe_reorged]
    rcases h.sound.kept_cases (s.chain.block s.head) with ⟨x,hx,ha,_⟩ | ⟨_,_,horphaned⟩
    · have hx' := (h.sound.linked.numbered.bounds hx).1
      have hnum := ha.1
      rw [s.chain.number_block _ hle] at hnum
      omega
    · rw [horphaned]
      exact hne

end Tracker

theorem Node.confirmedEvents_upTo {s : Node} {u : TrackerUpdate} {first next : ℕ}
    (hu : u.confirmed = s.chain.upTo first next) (hnext : next ≤ s.chain.height+1) :
    s.confirmedEvents u = u.confirmed.flatMap s.events := by
  have hnum : ∀ n, first ≤ n → n < first+(next-first) → (s.chain.block n).number = n :=
    fun n _ hn => s.chain.number_block n (by omega)
  have hfrom : Numbered.From BlockRef.number first u.confirmed := by
    rw [hu]
    exact Numbered.from_map_range' hnum
  refine World.confirmedEvents_eq hfrom ?_
  intro b hb
  rw [hu] at hb
  obtain ⟨n,_,hn,rfl⟩ := Chain.mem_upTo.mp hb
  rw [s.chain.number_block n (by omega)]
  exact ⟨rfl,by omega⟩

theorem Node.messages_advances {s : Node} {start : ℕ} {t t' : Tracker} {us : List TrackerUpdate}
    (h : t.Advances s.chain start us t') : us.flatMap s.messages =
      ((s.chain.upTo (max start t.frontier) t'.frontier).flatMap s.events).map .confirmed := by
  have hu : ∀ u ∈ us, s.messages u = (u.confirmed.flatMap s.events).map .confirmed := by
    intro u hu
    obtain ⟨first,next,hrange,hnext⟩ := h.ranges u hu
    simp [Node.messages,Poller.orphanNotice,h.reorged u hu,Node.confirmedEvents_upTo hrange hnext]
  rw [← h.confirmed,List.flatMap_assoc,List.map_flatMap]
  exact List.flatMap_congr hu

namespace Tracker

theorem fresh_grown (c : Chain) (start confirmations window : ℕ) (h : confirmations < window) :
    Grown c start (fresh confirmations window h) where
  sound := fresh_sound _ _ _
  on_chain := by simp
  idle := fun _ => rfl
  start_le := fun hne => absurd rfl hne
  base_le := fun hne => absurd rfl hne
  frontier_eq := by simp [head]

theorem fresh_behind (confirmations window : ℕ) (h : confirmations < window) (last : ℕ) :
    (fresh confirmations window h).Behind last := by
  simp [Behind,head]

end Tracker

namespace Poller

variable {C : Type} {c : Chain} {events : BlockRef → List ChainEvent}

def ServesChain (c : Chain) (events : BlockRef → List ChainEvent) (s : Node) : Prop :=
  s.chain = c ∧ s.events = events

/-- What has been returned are the transfers of the blocks below the frontier, each block
once and in order. -/
structure Emits {S : Type} (c : Chain) (events : BlockRef → List ChainEvent)
    (results : List (Except PollerError (List IndexerMessage))) (p : Poller S C) : Prop where
  grown : p.tracker.Grown c p.startBlock
  emitted : returned results =
    ((c.upTo p.startBlock p.tracker.frontier).flatMap events).map .confirmed

/-- Nothing is retracted, and what is emitted are the transfers of the blocks from `start`
on, in order and each block at most once. -/
structure Steady (c : Chain) (events : BlockRef → List ChainEvent) (start : ℕ)
    (msgs : List IndexerMessage) : Prop where
  noReorg : ∀ orphaned, IndexerMessage.reorged orphaned ∉ msgs
  inOrder : ∃ next ≤ c.height+1, msgs = ((c.upTo start next).flatMap events).map .confirmed

theorem steady_upTo {start next : ℕ} (hnext : next ≤ c.height+1) :
    Steady c events start (((c.upTo start next).flatMap events).map .confirmed) := by
  refine ⟨fun orphaned hmem => ?_,next,hnext,rfl⟩
  obtain ⟨_,_,he⟩ := List.mem_map.mp hmem
  cases he

theorem Steady.prepend {start mid : ℕ} {msgs : List IndexerMessage}
    (h : Steady c events mid msgs) (hle : start ≤ mid) (hmid : mid ≤ start ∨ mid ≤ c.height+1) :
    Steady c events start (((c.upTo start mid).flatMap events).map .confirmed ++ msgs) := by
  obtain ⟨next,hnext,rfl⟩ := h.inOrder
  rcases hmid with hmid | hmid
  · obtain rfl : start = mid := by omega
    rw [Chain.upTo_nil (le_refl _)]
    exact h
  · by_cases hback : next ≤ mid
    · rw [Chain.upTo_nil hback]
      simpa using steady_upTo hmid
    · rw [← List.map_append,← List.flatMap_append,show c.upTo mid next = c.upTo (max start mid) next
        by rw [max_eq_right hle],Chain.upTo_append (by omega)]
      exact steady_upTo hnext

theorem steady_of_emits {S : Type} {results : List (Except PollerError (List IndexerMessage))}
    {p : Poller S C} (h : Emits c events results p) :
    Steady c events p.startBlock (returned results) := by
  rw [h.emitted]
  exact steady_upTo h.grown.frontier_le

theorem fresh_emits {S : Type} (c : Chain) (events : BlockRef → List ChainEvent) {p : Poller S C}
    {confirmations window : ℕ} {h : confirmations < window}
    (hp : p.tracker = Tracker.fresh confirmations window h) : Emits c events [] p := by
  refine ⟨hp ▸ Tracker.fresh_grown c _ _ _ h,?_⟩
  rw [hp,Tracker.fresh_frontier,Chain.upTo_nil (Nat.zero_le _)]
  rfl

theorem Emits.tick [Checkpoint C] {results : List (Except PollerError (List IndexerMessage))}
    {p : Poller Node C} (h : Emits c events results p)
    (hsave : ∀ height (c : C), (Checkpoint.save height c).1 = .ok ()) {s : Node}
    (hs : ServesChain c events s) (hr : p.tracker.HeadRetained s) :
    Emits c events (results ++ [(p.tick s).2]) (p.tick s).1 := by
  obtain ⟨rfl,rfl⟩ := hs
  have hplan := h.grown.plan_eq hr
  have hadv := h.grown.segment s.head_le
  rw [← hplan] at hadv
  rw [tick_eq p s h.grown.sound hsave]
  refine ⟨by simpa using hadv.grown,?_⟩
  have hmsgs : (updates { p with source := s } (p.tracker.plan s p.startBlock)).flatMap s.messages =
      ((s.chain.upTo (max p.startBlock p.tracker.frontier)
        (Tracker.observeAll p.tracker (p.tracker.plan s p.startBlock)).1.frontier).flatMap
        s.events).map .confirmed :=
    Node.messages_advances hadv
  rw [returned_ok,h.emitted,hmsgs,settled_startBlock,settled_tracker,← List.map_append,
    ← List.flatMap_append,Chain.upTo_append (hadv.frontier_le.trans (le_max_right _ _))]

def Ahead {S : Type} (c : Chain) (events : BlockRef → List ChainEvent) (p : Poller S C)
    (s : Node) : Prop :=
  ServesChain c events s ∧ p.tracker.Grown c p.startBlock ∧ p.tracker.Behind s.head

theorem Ahead.retained {S : Type} {p : Poller S C} {s : Node} (h : Ahead c events p s) :
    p.tracker.HeadRetained s := by
  cases htop : p.tracker.head with
  | none => exact .inl (List.getLast?_eq_none_iff.mp htop)
  | some top =>
    have hbase := (h.2.1.sound.linked.numbered.bounds (List.mem_of_getLast? htop)).1
    exact .inr (hbase.trans (h.2.2 top htop))

theorem Ahead.tick [Checkpoint C] {p : Poller Node C} {s : Node} (h : Ahead c events p s)
    (hsave : ∀ height (c : C), (Checkpoint.save height c).1 = .ok ()) :
    (p.tick s).1.tracker.Grown c p.startBlock ∧ (p.tick s).1.startBlock = p.startBlock ∧
      (p.tick s).1.tracker.confirmations = p.tracker.confirmations ∧
      (p.tick s).1.tracker.nextNumber p.startBlock =
        max (p.tracker.nextNumber p.startBlock) (s.head+1) := by
  obtain ⟨⟨rfl,rfl⟩,hgrown,_⟩ := id h
  have hadv := hgrown.segment s.head_le
  have hnext := p.tracker.nextNumber_segment p.startBlock s.head_le
  rw [tick_eq p s hgrown.sound hsave]
  simp only [settled_tracker,settled_startBlock,hgrown.plan_eq h.retained]
  exact ⟨hadv.grown,trivial,hadv.confirmations,hnext⟩

theorem ahead_of_sorted [Checkpoint C] {p : Poller Node C} {nodes : List Node}
    (hsave : ∀ height (c : C), (Checkpoint.save height c).1 = .ok ())
    (h : ∀ s ∈ nodes, Ahead c events p s) (hmono : nodes.Pairwise fun a b => a.head ≤ b.head) :
    Machine.Guarded Poller.tick (Ahead c events) p nodes := by
  refine Machine.guarded_of_pairwise ?_ h hmono
  intro q a b ha hb hle
  obtain ⟨hgrown,hstart,_,hnext⟩ := ha.tick hsave
  have hbehind := hgrown.behind_of_next ha.2.2 hnext.le
  exact ⟨hb.1,hstart ▸ hgrown,fun top htop => (hbehind top htop).trans hle⟩

end Poller
end Fintrails
