import Fintrails.World

/-! The poller against chains that are extended, shortened and replaced between two
polls.  The tracker retains the end of one branch that starts at the start block;
what stands reported is that branch up to the frontier.  A poll that reconnects
to the branch, or re-indexes it from its first block, leaves a branch again. -/
namespace Fintrails

namespace Tracker

/-- The tracker retains the end of the branch `B`, and what stands reported is `B`
below the frontier. -/
structure Tracks (W : World) (startBlock : ℕ) (B : List BlockRef) (us : List TrackerUpdate)
    (t : Tracker) : Prop where
  sound : t.Sound
  linked : Linked B
  world : ∀ b ∈ B, b ∈ W.blocks
  suffix : t.chain <:+ B
  starts : B ≠ [] → base B = startBlock
  idle : t.chain = [] → B = [] ∧ t.frontier = 0
  base_le : t.chain ≠ [] → base t.chain ≤ max startBlock t.frontier
  frontier_le : ∀ top ∈ t.head, t.frontier ≤ top.number+1
  le_frontier : ∀ top ∈ t.head, top.number+1 ≤ t.frontier+t.confirmations
  standing : reported us = Numbered.slice BlockRef.number 0 t.frontier B

/-- A block that continues the branch: it attaches to a retained block, or it is the
start block again and the whole branch is still retained. -/
def Continues (W : World) (startBlock : ℕ) (t : Tracker) (b : BlockRef) : Prop :=
  b.number < 2^64-1 ∧ b ∈ W.blocks ∧ ((∃ x ∈ t.chain, Attaches b x) ∨
    (b.number = startBlock ∧ (∀ x ∈ t.chain, ¬Attaches b x) ∧
      (t.chain ≠ [] → base t.chain = startBlock)))

variable {W : World} {startBlock : ℕ} {B : List BlockRef} {us : List TrackerUpdate} {t : Tracker}

theorem Tracks.base_chain (h : Tracks W startBlock B us t) {e : List BlockRef}
    (he : B = e ++ t.chain) (hne : t.chain ≠ []) : base t.chain = startBlock+e.length := by
  have hstart := h.starts (by simp [he,hne])
  have hnum := h.linked.numbered
  rw [he] at hnum hstart
  rw [hstart] at hnum
  obtain ⟨x,l,hx⟩ := List.exists_cons_of_ne_nil hne
  rw [hx] at hnum ⊢
  exact ((Numbered.from_append _ _ _).mp hnum).2.1

theorem Continues.reaches {b : BlockRef} (hb : t.Continues W startBlock b) :
    t.Reaches startBlock b := by
  refine ⟨hb.1,fun hnil => ?_,fun hne => ?_⟩
  · rcases hb.2.2 with ⟨x,hx,_⟩ | ⟨hnum,_⟩
    · rw [hnil] at hx
      cases hx
    · exact hnum.le
  · rcases hb.2.2 with ha | ⟨hnum,_,hbase⟩
    · exact .inl ha
    · exact .inr (by rw [hnum,hbase hne])

theorem Tracks.trimmed_lt_pulled (h : Tracks W startBlock B us t) {e : List BlockRef}
    (he : B = e ++ t.chain) {b top : BlockRef} (htop : top ∈ t.chain) (ha : Attaches b top)
    (hfrom : Numbered.From BlockRef.number b.number (t.orphaned b)) :
    ∀ x ∈ e, x.number < t.pulled b := by
  intro x hx
  have hne := List.ne_nil_of_mem htop
  have hlinked := h.linked.numbered
  rw [h.starts (by simp [he,hne]),he] at hlinked
  have hlow := ((Numbered.from_append _ _ _).mp hlinked).1.bounds hx
  have htoplow := (h.sound.linked.numbered.bounds htop).1
  have hnum := ha.1
  have hbase := h.base_chain he hne
  have hle := h.base_le hne
  rw [pulled_of_attaches hfrom]
  split <;> omega

theorem Tracks.trimmed_nil (h : Tracks W startBlock B us t) {e : List BlockRef}
    (he : B = e ++ t.chain) (hwhole : t.chain ≠ [] → base t.chain = startBlock) : e = [] := by
  by_cases hchain : t.chain = []
  · have hB := (h.idle hchain).1
    rwa [he,hchain,List.append_nil] at hB
  · have hbase := h.base_chain he hchain
    rw [hwhole hchain] at hbase
    exact List.length_eq_zero_iff.mp (by omega)

theorem Tracks.exists_kept (h : Tracks W startBlock B us t) {b : BlockRef}
    (hb : t.Continues W startBlock b) :
    ∃ e, B = e ++ t.chain ∧ Linked (e ++ t.kept b ++ [b]) ∧
      base (e ++ t.kept b ++ [b]) = startBlock ∧ t.pulled b ≤ b.number ∧
      ∀ x ∈ e, x.number < t.pulled b := by
  obtain ⟨e,he⟩ := h.suffix
  refine ⟨e,he.symm,?_⟩
  rcases h.sound.kept_cases b with ⟨top,htop,ha,hlast,hfrom⟩ | ⟨hnone,hkept,horphaned⟩
  · have hparts : B = e ++ t.kept b ++ t.orphaned b := by
      rw [List.append_assoc,kept_append_orphaned,he]
    have hne : t.kept b ≠ [] := by
      intro hnil
      rw [hnil] at hlast
      cases hlast
    have hne' : e ++ t.kept b ≠ [] := List.append_ne_nil_of_right_ne_nil e hne
    have hpulled := h.sound.pulled_le_number h.frontier_le htop ha
    refine ⟨Linked.concat (hparts ▸ h.linked).append_left ?_,?_,hpulled,
      h.trimmed_lt_pulled he.symm htop ha hfrom⟩
    · intro top' htop'
      rw [List.getLast?_append_of_ne_nil e hne,hlast] at htop'
      rw [← Option.some.inj htop']
      exact ha
    · have hB : B ≠ [] := by
        rw [hparts]
        exact List.append_ne_nil_of_left_ne_nil hne' _
      rw [base_append hne',← h.starts hB,hparts,base_append hne']
  · rcases hb.2.2 with ⟨x,hx,ha⟩ | ⟨hnum,_,hwhole⟩
    · exact absurd ha (hnone x hx)
    obtain rfl := h.trimmed_nil he.symm hwhole
    rw [hkept]
    refine ⟨List.isChain_singleton b,hnum,?_,by simp⟩
    rw [pulled_of_drained horphaned]
    split
    · rename_i hchain
      rw [(h.idle hchain).2]
      exact Nat.zero_le _
    · rename_i hchain
      have hbase := hwhole hchain
      omega

theorem Tracks.standing_kept (h : Tracks W startBlock B us t) {b : BlockRef} {e : List BlockRef}
    (he : B = e ++ t.chain) :
    (reported us).filter (fun x => decide (x.number ∉ (t.orphaned b).map BlockRef.number)) =
      Numbered.slice BlockRef.number 0 (t.pulled b) (e ++ t.kept b) := by
  have hnumbered := h.linked.numbered
  rw [he] at hnumbered
  rw [h.standing,he,filter_kept hnumbered b]

/-- One observed block: the branch becomes what `b` left in place, and `b`. -/
theorem Tracks.observe (h : Tracks W startBlock B us t) {b : BlockRef}
    (hb : t.Continues W startBlock b) :
    ∃ B', B'.getLast? = some b ∧
      Tracks W startBlock B' (us ++ [(Tracker.observe t b).2]) (Tracker.observe t b).1 := by
  obtain ⟨e,he,hlinked,hstart,hpulled,hbelow⟩ := h.exists_kept hb
  have hfrontier := observe_frontier t b
  have hkept : ∀ x ∈ e ++ t.kept b, x ∈ B := by
    intro x hx
    rw [he,← t.kept_append_orphaned b,← List.append_assoc]
    exact List.mem_append_left _ hx
  refine ⟨e ++ t.kept b ++ [b],by simp,h.sound.observe hb.1,hlinked,?_,?_,fun _ => hstart,
    fun hnil => absurd hnil (observe_chain_ne_nil t b),
    fun _ => h.sound.base_observe_le h.base_le hb.reaches,?_,?_,?_⟩
  · intro x hx
    rcases List.mem_append.mp hx with hx | hx
    · exact h.world x (hkept x hx)
    · rw [List.mem_singleton.mp hx]
      exact hb.2.1
  · rw [observe_chain,List.append_assoc]
    exact (trim_suffix _ _).trans (List.suffix_append e _)
  · intro top htop
    rw [observe_head] at htop
    rw [← Option.some.inj htop]
    omega
  · intro top htop
    rw [observe_head] at htop
    rw [← Option.some.inj htop,observe_confirmations]
    omega
  · rw [reported_concat,observe_reorged,h.standing_kept he,h.sound.confirmed,hfrontier,
      ← hlinked.numbered.slice_join (Nat.zero_le (t.pulled b)) (le_max_left _ _)]
    congr 1
    · rw [Numbered.slice_append _ _ (e ++ t.kept b)]
      rw [Numbered.slice_eq_nil (l:=[b]) (by simp; omega),List.append_nil]
    · rw [List.append_assoc,Numbered.slice_append _ _ e,Numbered.slice_eq_nil (l:=e),
        List.nil_append]
      · apply Numbered.slice_congr
        intro x _
        omega
      · intro x hx hle
        have hlt := hbelow x hx
        omega

/-- The chain contains a block the tracker retains, or it reaches the start block while
the tracker still retains a block of that number. -/
def Reconnects (startBlock : ℕ) (t : Tracker) (s : Node) : Prop :=
  t.chain = [] ∨ (∃ x ∈ t.chain, x.number ≤ s.head ∧ s.chain.block x.number = x) ∨
    (startBlock ≤ s.head ∧ ∃ x ∈ t.chain, x.number = startBlock)

instance reconnectsDecidable (startBlock : ℕ) (t : Tracker) (s : Node) :
    Decidable (t.Reconnects startBlock s) :=
  inferInstanceAs (Decidable (_ ∨ _ ∨ _))

theorem Sound.fork_eq_start (h : t.Sound) {s : Node} {top : BlockRef} (htop : t.head = some top)
    (hbase : startBlock ≤ base t.chain) (hr : t.Reconnects startBlock s)
    (hplan : s.head ≤ top.number → ∀ b, t.blockAt s.head = some b →
      b.hash ≠ (s.chain.block s.head).hash)
    (hlow : t.fork s.chain (walkFrom top s) ≤ base t.chain) :
    t.fork s.chain (walkFrom top s) = startBlock ∧ base t.chain = startBlock := by
  have hle := s.head_le
  have hwalk := walkFrom_le top s
  have hend : ∀ x ∈ t.chain, x.number ≤ top.number := fun x hx => h.linked.number_le htop hx
  rcases hr with hnil | ⟨x,hx,hxh,hxc⟩ | ⟨hstart,x,hx,hnum⟩
  · rw [head,hnil] at htop
    cases htop
  · exfalso
    have hat := h.blockAt_mem hx
    have hge := (h.linked.numbered.bounds hx).1
    have hxtop := hend x hx
    by_cases hlt : x.number < walkFrom top s
    · obtain ⟨known,hknown,hne⟩ := t.fork_mismatch s.chain (n:=walkFrom top s) (j:=x.number)
        (by omega) hlt
      rw [hat] at hknown
      rw [← Option.some.inj hknown,s.chain.linked x.number (by omega),hxc] at hne
      exact hne rfl
    · have hsame : x.number = s.head ∧ s.head ≤ top.number := by
        unfold walkFrom at hlt
        split at hlt <;> omega
      rw [hsame.1] at hat
      refine hplan hsame.2 x hat ?_
      rw [← hsame.1,hxc]
  · have hge := (h.linked.numbered.bounds hx).1
    have hxtop := hend x hx
    have hfrom : startBlock ≤ walkFrom top s := by
      unfold walkFrom
      split <;> omega
    refine ⟨?_,by omega⟩
    by_contra hne
    obtain ⟨known,hknown,_⟩ := t.fork_mismatch s.chain (n:=walkFrom top s)
      (j:=t.fork s.chain (walkFrom top s)) (le_refl _) (by omega)
    have hret := (h.retained_iff htop _).mp ⟨known,hknown⟩
    omega

/-- A chain that reconnects continues the branch block by block. -/
theorem Sound.plan_continues (h : t.Sound) (hbase : t.chain ≠ [] → startBlock ≤ base t.chain)
    {s : Node} (hs : W.Serves s) (hr : t.Reconnects startBlock s) :
    Machine.Guarded Tracker.observe (Continues W startBlock) t (t.plan s startBlock) := by
  have hle := s.head_le
  have hnext : ∀ (t' : Tracker) n, t'.head = some (s.chain.block n) → n < s.head →
      t'.Continues W startBlock (s.chain.block (n+1)) := by
    intro t' n hhead hn
    have hext := extends_head (show n < s.chain.height by omega) hhead
    exact ⟨hext.1,hs.2 _ (by omega),.inl hext.attaches⟩
  cases hhead : t.head with
  | none =>
    have hnil : t.chain = [] := List.getLast?_eq_none_iff.mp hhead
    rw [plan_idle hhead]
    refine guarded_segment h hle (fun hstart => ⟨s.chain.number_lt (by omega),hs.2 _ (by omega),.inr ?_⟩)
      fun t' n _ hhead' _ hn => hnext t' n hhead' hn
    refine ⟨s.chain.number_block startBlock (by omega),?_,fun hne => absurd hnil hne⟩
    simp [hnil]
  | some top =>
    rcases plan_cases hhead s startBlock with ⟨hplan,_⟩ | ⟨hplan,hchanged⟩
    · rw [hplan]; trivial
    rw [hplan]
    have hwalk := walkFrom_le top s
    have hfork := t.fork_le s.chain (walkFrom top s)
    refine guarded_segment h hle (fun _ => ⟨s.chain.number_lt (by omega),hs.2 _ (by omega),?_⟩)
      fun t' n _ hhead' _ hn => hnext t' n hhead' hn
    by_cases ha : ∃ x ∈ t.chain, Attaches (s.chain.block (t.fork s.chain (walkFrom top s))) x
    · exact .inl ha
    · have hlow := (h.fork_cases (c:=s.chain) hhead (walkFrom_le_succ top s)
        (by omega)).resolve_left ha
      have hne : t.chain ≠ [] := List.ne_nil_of_mem (List.mem_of_getLast? hhead)
      have hnone : ∀ x ∈ t.chain,
          ¬Attaches (s.chain.block (t.fork s.chain (walkFrom top s))) x :=
        fun x hx hxa => ha ⟨x,hx,hxa⟩
      obtain ⟨hstart,hwhole⟩ := h.fork_eq_start hhead (hbase hne) hr hchanged hlow
      refine .inr ⟨?_,hnone,fun _ => hwhole⟩
      rw [s.chain.number_block _ (by omega)]
      exact hstart

theorem Tracks.start_le_base (h : Tracks W startBlock B us t) (hne : t.chain ≠ []) :
    startBlock ≤ base t.chain := by
  obtain ⟨e,he⟩ := h.suffix
  have hbase := h.base_chain he.symm hne
  omega

theorem Tracks.start_le_orphaned (h : Tracks W startBlock B us t) {b x : BlockRef}
    (hx : x ∈ (Tracker.observe t b).2.reorged) : startBlock ≤ x.number := by
  rw [observe_reorged] at hx
  have hmem := (t.orphaned_suffix b).subset hx
  exact (h.start_le_base (List.ne_nil_of_mem hmem)).trans (h.sound.linked.numbered.bounds hmem).1

theorem Tracks.plan (h : Tracks W startBlock B us t) {s : Node} (hs : W.Serves s)
    (hr : t.Reconnects startBlock s) :
    (∃ B', Tracks W startBlock B' (us ++ (observeAll t (t.plan s startBlock)).2)
      (observeAll t (t.plan s startBlock)).1) ∧
    ∀ u ∈ (observeAll t (t.plan s startBlock)).2, ∀ x ∈ u.reorged, startBlock ≤ x.number := by
  have hstep : ∀ vs (t' : Tracker) b, ((∃ B', Tracks W startBlock B' (us++vs) t') ∧
        ∀ u ∈ vs, ∀ x ∈ u.reorged, startBlock ≤ x.number) →
      t'.Continues W startBlock b →
      (∃ B', Tracks W startBlock B' (us ++ (vs ++ [(Tracker.observe t' b).2]))
        (Tracker.observe t' b).1) ∧
        ∀ u ∈ vs ++ [(Tracker.observe t' b).2], ∀ x ∈ u.reorged, startBlock ≤ x.number := by
    rintro vs t' b ⟨⟨B',h'⟩,hvs⟩ hb
    obtain ⟨B'',_,h''⟩ := h'.observe hb
    refine ⟨⟨B'',by rwa [← List.append_assoc]⟩,fun u hu => ?_⟩
    rcases List.mem_append.mp hu with hu | hu
    · exact hvs u hu
    · rw [List.mem_singleton.mp hu]
      exact fun x => h'.start_le_orphaned
  exact Machine.outputs_run (P:=fun vs t' => (∃ B', Tracks W startBlock B' (us++vs) t') ∧
      ∀ u ∈ vs, ∀ x ∈ u.reorged, startBlock ≤ x.number)
    hstep ⟨⟨B,by simpa using h⟩,by simp⟩ (h.sound.plan_continues h.start_le_base hs hr)

theorem Tracks.standing_segment (h : Tracks W startBlock B us t) {s : Node} (hs : W.Serves s)
    {n : ℕ} (hn : n ≤ s.chain.height) (hhead : t.head = some (s.chain.block n)) {w : ℕ}
    (hw : t.frontier = w+1) : reported us = s.chain.segment startBlock w ∧ w ≤ n := by
  have hnum := s.chain.number_block n hn
  have hne : t.chain ≠ [] := List.ne_nil_of_mem (List.mem_of_getLast? hhead)
  have hlast : B.getLast? = some (s.chain.block n) := by
    obtain ⟨e,rfl⟩ := h.suffix
    rw [List.getLast?_append_of_ne_nil e hne]
    exact hhead
  have hB : B ≠ [] := List.ne_nil_of_mem (List.mem_of_getLast? hlast)
  have hlen := h.linked.base_add_length hlast
  have hwn := h.frontier_le _ hhead
  have hfrom := h.linked.numbered
  rw [h.starts hB] at hfrom hlen
  have hseg := World.eq_segment hfrom (hs.on_chain h.linked h.world hn hlast) hB
  refine ⟨?_,by omega⟩
  rw [h.standing,hw,hseg,Chain.segment,Chain.segment]
  rw [Numbered.slice_map_range' 0 (w+1) fun m _ hm => s.chain.number_block m (by omega)]
  congr 2 <;> omega

end Tracker
namespace Poller

variable {C : Type} {W : World}

/-- The tracker follows a branch, and what its calls have returned are the transfers of
what it has reported.  They have retracted nothing below the start block. -/
structure Mirrors (W : World) (results : List (Except PollerError (List IndexerMessage)))
    (p : Poller Node C) : Prop where
  tracks : ∃ B us, p.tracker.Tracks W p.startBlock B us ∧
    standingEvents (returned results) =
      Standing.standing ChainEvent.blockNumber (us.map (TrackerUpdate.transfers W.events))
  serves : p.tracker.chain ≠ [] → W.Serves p.source
  above : ∀ m ∈ returned results, ∀ n ∈ m.batch.retracted, p.startBlock ≤ n

/-- The transfers of the canonical blocks from the start block up to `through`. -/
def transfersThrough (s : Node) (startBlock : ℕ) : Option ℕ → List ChainEvent
  | none => []
  | some through => (s.chain.segment startBlock through).flatMap s.events

/-- Every call has succeeded, what they returned and did not retract are the transfers
of the canonical blocks up to the watermark, and the watermark is deep enough. -/
structure Settles (results : List (Except PollerError (List IndexerMessage)))
    (p : Poller Node C) : Prop where
  succeeded : ∀ r ∈ results, r.isOk
  transfers : standingEvents (returned results) =
    transfersThrough p.source p.startBlock p.tracker.confirmedHeight
  canonical : ∀ w ∈ p.tracker.confirmedHeight, w ≤ p.source.head
  deep : p.tracker.confirmations ≤ p.source.head →
    ∃ w ∈ p.tracker.confirmedHeight, p.source.head-p.tracker.confirmations ≤ w

/-- A poller whose tracker has reached the head of the chain it was served. -/
theorem Mirrors.settles {results : List (Except PollerError (List IndexerMessage))}
    {p : Poller Node C} (h : Mirrors W results p) (hok : ∀ r ∈ results, r.isOk)
    (hhead : p.tracker.head = some (p.source.chain.block p.source.head)) :
    Settles results p := by
  obtain ⟨B,us,htracks,hstanding⟩ := h.tracks
  have hle := p.source.head_le
  have hnum := p.source.chain.number_block p.source.head hle
  have hs := h.serves (List.ne_nil_of_mem (List.mem_of_getLast? hhead))
  have hlow := htracks.le_frontier _ hhead
  rw [standing_transfers_eq] at hstanding
  refine ⟨hok,?_,?_,?_⟩
  · rw [hstanding]
    cases hw : p.tracker.confirmedHeight with
    | none =>
      have hzero := (Tracker.confirmedHeight_none_iff _).mp hw
      rw [htracks.standing,hzero,Numbered.slice_eq_nil (fun _ _ _ => Nat.zero_le _)]
      rfl
    | some w =>
      have hfrontier := Tracker.confirmedHeight_some_iff.mp hw
      rw [(htracks.standing_segment hs hle hhead hfrontier).1,transfersThrough,hs.1]
  · intro w hw
    have hfrontier := Tracker.confirmedHeight_some_iff.mp hw
    exact (htracks.standing_segment hs hle hhead hfrontier).2
  · intro hdeep
    cases hw : p.tracker.confirmedHeight with
    | none =>
      have hzero := (Tracker.confirmedHeight_none_iff _).mp hw
      omega
    | some w =>
      have hfrontier := Tracker.confirmedHeight_some_iff.mp hw
      exact ⟨w,rfl,by omega⟩

section Runs

variable [Checkpoint C]

theorem Mirrors.tick {results : List (Except PollerError (List IndexerMessage))}
    {p : Poller Node C} (h : Mirrors W results p)
    (hsave : ∀ height (c : C), (Checkpoint.save height c).1 = .ok ()) {s : Node}
    (hs : W.Serves s) (hr : p.tracker.Reconnects p.startBlock s) :
    Mirrors W (results ++ [(p.tick s).2]) (p.tick s).1 := by
  obtain ⟨B,us,htracks,hstanding⟩ := h.tracks
  obtain ⟨⟨B',hnext⟩,habove⟩ := htracks.plan hs hr
  have hinhabits : p.tracker.Inhabits W :=
    ⟨htracks.sound,fun x hx => htracks.world x (htracks.suffix.subset hx)⟩
  have hserved := fun u hu => ((hinhabits.plan hs p.startBlock).2 u hu).1
  rw [tick_eq p s htracks.sound hsave]
  refine ⟨⟨B',us ++ (Tracker.observeAll p.tracker (p.tracker.plan s p.startBlock)).2,
    by simpa using hnext,?_⟩,fun _ => by simpa using hs,fun m hm n hn => ?_⟩
  · rw [returned_ok,standingEvents_append,hstanding,List.map_append,Standing.standing_append,← hs.1]
    exact standingFrom_updates hserved _
  · rw [settled_startBlock]
    rw [returned_ok] at hm
    rcases List.mem_append.mp hm with hm | hm
    · exact h.above m hm n hn
    · obtain ⟨u,hu,hm⟩ := List.mem_flatMap.mp hm
      obtain ⟨x,hx,rfl⟩ := Node.mem_retracted hm hn
      exact habove u hu x hx

/-- Over every run of chains that reconnect. -/
theorem mirrors_run (hsave : ∀ height (c : C), (Checkpoint.save height c).1 = .ok ())
    (confirmations window : ℕ) (h : confirmations < window) (p : Poller Node C)
    (hp : p.tracker = Tracker.fresh confirmations window h) (nodes : List Node)
    (hnodes : Machine.Guarded tick
      (fun q s => W.Serves s ∧ q.tracker.Reconnects q.startBlock s) p nodes) :
    Mirrors W (Machine.outputs tick p nodes) (Machine.final tick p nodes) ∧
      (∀ r ∈ Machine.outputs tick p nodes, r.isOk) ∧
      (Machine.final tick p nodes).startBlock = p.startBlock ∧
      (Machine.final tick p nodes).tracker.confirmations = confirmations := by
  have h0 : Mirrors W [] p := by
    refine ⟨⟨[],[],?_,rfl⟩,fun hne => absurd (by simp [hp]) hne,by simp⟩
    rw [hp]
    exact ⟨Tracker.fresh_sound _ _ _,List.isChain_nil,by simp,List.suffix_refl _,
      fun hne => absurd rfl hne,fun _ => ⟨rfl,rfl⟩,fun hne => absurd rfl hne,
      by simp [Tracker.head],by simp [Tracker.head],rfl⟩
  refine Machine.outputs_run (P:=fun results (q : Poller Node C) => Mirrors W results q ∧
    (∀ r ∈ results, r.isOk) ∧ q.startBlock = p.startBlock ∧ q.tracker.confirmations = confirmations)
    ?_ ⟨h0,by simp,rfl,by rw [hp]; rfl⟩ hnodes
  rintro results q s ⟨hm,hok,hstart,hdepth⟩ ⟨hs,hr⟩
  have hnext := hm.tick hsave hs hr
  obtain ⟨_,_,htracks,_⟩ := hm.tracks
  rw [tick_eq q s htracks.sound hsave] at hnext ⊢
  refine ⟨hnext,?_,by rwa [settled_startBlock],?_⟩
  · intro r hr
    rcases List.mem_append.mp hr with hr | hr
    · exact hok r hr
    · rw [List.mem_singleton.mp hr]
      rfl
  · rw [settled_tracker,Tracker.observeAll_confirmations]
    exact hdepth

/-- Over every run of chains that reconnect, whenever the tracker has reached the head
of the chain, exactly the transfers of its confirmed blocks stand. -/
theorem settles_under_reorgs (W : World)
    (hsave : ∀ height (c : C), (Checkpoint.save height c).1 = .ok ())
    (confirmations window : ℕ) (h : confirmations < window) (p : Poller Node C)
    (hp : p.tracker = Tracker.fresh confirmations window h) (nodes : List Node)
    (hnodes : Machine.Guarded tick
      (fun q s => W.Serves s ∧ q.tracker.Reconnects q.startBlock s) p nodes)
    (hhead : (Machine.final tick p nodes).tracker.head =
      some ((Machine.final tick p nodes).source.chain.block
        (Machine.final tick p nodes).source.head)) :
    Settles (Machine.outputs tick p nodes) (Machine.final tick p nodes) := by
  obtain ⟨hm,hok,-,-⟩ := mirrors_run hsave confirmations window h p hp nodes hnodes
  exact hm.settles hok hhead

end Runs

theorem settles_under_reorgs_forked :
    let p := new (World.forked.node World.forkedLinear) (Tracker.fresh 1 4 (by decide)) 1
    let nodes := [World.forked.node World.forkedLinear,World.forked.node World.forkedBranch]
    Settles (Machine.outputs tick p nodes) (Machine.final tick p nodes) :=
  settles_under_reorgs World.forked (fun _ _ => rfl) 1 4 (by decide) _ rfl _
    ⟨⟨World.forked_linear,by decide +kernel⟩,⟨World.forked_branch,by decide +kernel⟩,trivial⟩
    (by decide +kernel)

end Poller
end Fintrails
