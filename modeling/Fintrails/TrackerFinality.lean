import Fintrails.TrackerSteps

/-! Reorgs no deeper than the confirmation depth.  A tracker is followed beside the
highest head it has had; the whole branch it is on, trimmed blocks included, says
what has been confirmed: the blocks of the branch below the frontier. -/
namespace Fintrails
namespace Tracker

def observeHigh (s : Tracker × ℕ) (b : BlockRef) : (Tracker × ℕ) × TrackerUpdate :=
  (((observe s.1 b).1,max s.2 b.number),(observe s.1 b).2)

/-- The block attaches to a retained block, and lies above everything that was
`confirmations` deep below the highest head. -/
def Shallow (s : Tracker × ℕ) (b : BlockRef) : Prop :=
  b.number < 2^64 ∧ (∃ x ∈ s.1.chain, Attaches b x) ∧ s.2 < b.number+s.1.confirmations

instance shallowDecidable (s : Tracker × ℕ) (b : BlockRef) : Decidable (Shallow s b) :=
  inferInstanceAs (Decidable (_ ∧ _ ∧ _))

theorem attaches_iff_of_pos {block top : BlockRef} (htop : top.number < 2^64)
    (hb : block.number < 2^64) (hpos : 0 < block.number) :
    attaches block top = true ↔ Attaches block top := by
  by_cases hlt : top.number < 2^64-1
  · exact attaches_iff hlt
  · have hmax : succU64 top.number = 0 := by
      rw [show top.number = 2^64-1 by omega]
      rfl
    have hne : (0 == block.number) = false := by
      rw [beq_eq_false_iff_ne]
      omega
    simp only [attaches,Attaches,hmax,hne,Bool.false_and]
    exact iff_of_false (by simp) fun h => by omega

theorem kept_of_attaches {t : Tracker} {b x : BlockRef} {below above : List BlockRef}
    (hlinked : Linked t.chain) (hlt : ∀ y ∈ t.chain, y.number < 2^64) (hb : b.number < 2^64)
    (hchain : t.chain = below ++ x::above) (ha : Attaches b x) :
    t.kept b = below ++ [x] ∧ t.orphaned b = above := by
  have hpos : 0 < b.number := by rw [ha.1]; exact Nat.succ_pos _
  have hx : attaches b x = true :=
    (attaches_iff_of_pos (hlt x (by simp [hchain])) hb hpos).mpr ha
  have habove : ∀ y ∈ above, attaches b y = false := by
    intro y hy
    have hfrom := hlinked.numbered
    rw [hchain] at hfrom
    have hlow := hfrom.lt_of_split hy
    rw [Bool.eq_false_iff]
    intro hy'
    have hya := (attaches_iff_of_pos (hlt y (by simp [hchain,hy])) hb hpos).mp hy'
    have h1 := ha.1
    have h2 := hya.1
    omega
  have hkept : t.kept b = below ++ [x] := by
    rw [kept,hchain,List.rdropWhile]
    simp only [List.reverse_append,List.reverse_cons,List.append_assoc]
    rw [List.dropWhile_append_of_pos (by simpa using habove)]
    simp [hx]
  refine ⟨hkept,?_⟩
  have hall := t.kept_append_orphaned b
  rw [hkept,hchain,List.append_assoc] at hall
  simpa using hall

/-- What has been confirmed is the branch below the frontier, and the frontier lies as deep
below the highest head as the depth says. -/
structure Finalizes (first : BlockRef) (us : List TrackerUpdate) (s : Tracker × ℕ) : Prop where
  branch : ∃ trimmed, Linked (trimmed ++ s.1.chain) ∧ (trimmed ++ s.1.chain).head? = some first ∧
    (∀ x ∈ trimmed, x.number < s.1.frontier) ∧
    us.flatMap TrackerUpdate.confirmed =
      Numbered.slice BlockRef.number 0 s.1.frontier (trimmed ++ s.1.chain)
  frontier_eq : s.1.frontier = s.2+1-s.1.confirmations
  head : ∃ top, s.1.head = some top ∧ top.number < 2^64 ∧ top.number ≤ s.2 ∧
    s.2 ≤ top.number+s.1.confirmations
  spared : us.Pairwise fun u v => ∀ x ∈ u.confirmed, x ∉ v.reorged

variable {first b : BlockRef} {us : List TrackerUpdate} {s : Tracker × ℕ}

theorem finalizes_first (confirmations window : ℕ) (h : confirmations < window)
    (hfirst : first.number < 2^64) :
    Finalizes first [(observeHigh (fresh confirmations window h,0) first).2]
      (observeHigh (fresh confirmations window h,0) first).1 := by
  have hwindow : 0 < window := Nat.zero_lt_of_lt h
  have hkept : (fresh confirmations window h).kept first = [] := rfl
  have hpulled : (fresh confirmations window h).pulled first = 0 := rfl
  have hchain : (observe (fresh confirmations window h) first).1.chain = [first] := by
    rw [observe_chain,hkept,trim_eq_drop,List.nil_append,List.length_singleton]
    rw [show 1-(fresh confirmations window h).window = 0 from Nat.sub_eq_zero_of_le hwindow]
    rfl
  have hfrontier : (observe (fresh confirmations window h) first).1.frontier =
      first.number+1-confirmations := by
    rw [observe_frontier,hpulled]
    exact Nat.zero_max _
  refine ⟨⟨[],?_,?_,by simp,?_⟩,?_,⟨first,observe_head _ _,hfirst,le_max_right _ _,?_⟩,
    List.pairwise_singleton _ _⟩
  · simp only [observeHigh,hchain,List.nil_append]
    exact List.isChain_singleton first
  · simp [observeHigh,hchain]
  · have hconfirmed := observe_confirmed (t:=fresh confirmations window h) (b:=first) (by simp [hpulled])
    simp only [observeHigh,List.flatMap_singleton,hconfirmed,hkept,hpulled,hchain,hfrontier]
    rfl
  · simp only [observeHigh,hfrontier,observe_confirmations,Nat.zero_max]
    rfl
  · simp [observeHigh]

theorem Finalizes.split (h : Finalizes first us s) (hb : Shallow s b) :
    ∃ below x, Attaches b x ∧ s.1.chain = below ++ [x] ++ s.1.orphaned b ∧
      s.1.kept b = below ++ [x] ∧ (∀ y ∈ s.1.orphaned b, b.number ≤ y.number) ∧
      s.1.pulled b = s.1.frontier := by
  obtain ⟨trimmed,hlinked,_⟩ := h.branch
  obtain ⟨top,htop,htoplt,_⟩ := h.head
  obtain ⟨hnum,⟨x,hx,ha⟩,hdeep⟩ := hb
  have hchainlinked := hlinked.append_right
  obtain ⟨below,above,hchain⟩ := List.append_of_mem hx
  obtain ⟨hkept,horphaned⟩ := kept_of_attaches hchainlinked
    (fun y hy => Nat.lt_of_le_of_lt (hchainlinked.number_le htop hy) htoplt) hnum hchain ha
  have habove : ∀ y ∈ above, b.number ≤ y.number := by
    intro y hy
    have hfrom := hchainlinked.numbered
    rw [hchain] at hfrom
    have hlow := hfrom.lt_of_split hy
    have hax := ha.1
    omega
  refine ⟨below,x,ha,?_,hkept,by rwa [horphaned],?_⟩
  · rw [horphaned,hchain,List.append_assoc]
    rfl
  · rw [pulled_eq,horphaned]
    have hfrontier := h.frontier_eq
    cases habove' : above with
    | nil => rfl
    | cons y l =>
      have hy := habove y (by simp [habove'])
      exact min_eq_left (by omega)

/-- What is confirmed next joins on to the branch below the frontier.  Neither the orphaned
blocks nor the new one lie below it, and the blocks trimmed earlier all do. -/
theorem slice_advance {trimmed kept above : List BlockRef} {old new : ℕ}
    (hlinked : Linked (trimmed ++ (kept ++ [b]))) (hle : old ≤ new)
    (htrimmed : ∀ x ∈ trimmed, x.number < old) (habove : ∀ y ∈ above, b.number ≤ y.number)
    (hb : old ≤ b.number) :
    Numbered.slice BlockRef.number 0 old (trimmed ++ kept ++ above) ++
        Numbered.slice BlockRef.number old new (kept ++ [b]) =
      Numbered.slice BlockRef.number 0 new (trimmed ++ (kept ++ [b])) := by
  have hout : Numbered.slice BlockRef.number 0 old above = [] :=
    Numbered.slice_eq_nil fun y hy _ => hb.trans (habove y hy)
  have hself : Numbered.slice BlockRef.number 0 old [b] = [] :=
    Numbered.slice_eq_nil fun y hy _ => by rwa [List.mem_singleton.mp hy]
  have hbefore : Numbered.slice BlockRef.number old new trimmed = [] :=
    Numbered.slice_eq_nil fun y hy hge => absurd (htrimmed y hy) (Nat.not_lt.mpr hge)
  rw [← hlinked.numbered.slice_join (Nat.zero_le old) hle]
  congr 1
  · rw [Numbered.slice_append,hout,← List.append_assoc trimmed kept [b],
      Numbered.slice_append _ _ _ [b],hself]
  · rw [Numbered.slice_append _ _ trimmed,hbefore,List.nil_append]

/-- A shallow block leaves the branch below the frontier as it is. -/
theorem Finalizes.observe (h : Finalizes first us s) (hb : Shallow s b) :
    Finalizes first (us ++ [(observeHigh s b).2]) (observeHigh s b).1 := by
  obtain ⟨trimmed,hlinked,hstarts,htrimmed,hconfirmed⟩ := h.branch
  obtain ⟨top,htop,htoplt,htople,hletop⟩ := h.head
  obtain ⟨below,x,ha,hchain,hkept,habove,hpulled⟩ := h.split hb
  obtain ⟨hnum,_,hdeep⟩ := hb
  have hfrontier := h.frontier_eq
  have hnext : (Tracker.observe s.1 b).1.frontier = max s.1.frontier (b.number+1-s.1.confirmations) := by
    rw [observe_frontier,hpulled]
  have hbranch : trimmed ++ s.1.chain = trimmed ++ (below ++ [x]) ++ s.1.orphaned b := by
    rw [hchain,List.append_assoc trimmed]
  have hlinked' : Linked (trimmed ++ (below ++ [x] ++ [b])) := by
    rw [← List.append_assoc]
    refine Linked.concat (hbranch ▸ hlinked).append_left fun top' htop' => ?_
    rw [← List.append_assoc,List.getLast?_concat] at htop'
    rw [← Option.some.inj htop']
    exact ha
  -- trimming moves blocks from the chain to the part of the branch that is no longer retained
  have htrim : (below ++ [x] ++ [b]).take ((below ++ [x] ++ [b]).length-s.1.window) ++
      (Tracker.observe s.1 b).1.chain = below ++ [x] ++ [b] := by
    rw [observe_chain,hkept,trim_eq_drop,List.take_append_drop]
  refine ⟨⟨trimmed ++ (below ++ [x] ++ [b]).take ((below ++ [x] ++ [b]).length-s.1.window),
    ?_,?_,?_,?_⟩,?_,⟨b,observe_head _ _,hnum,le_max_right _ _,?_⟩,?_⟩
  · simp only [observeHigh]
    rwa [List.append_assoc,htrim]
  · simp only [observeHigh]
    rw [List.append_assoc,htrim]
    rw [hbranch] at hstarts
    cases trimmed <;> cases below <;> simpa using hstarts
  · intro y hy
    simp only [observeHigh,hnext]
    rcases List.mem_append.mp hy with hy | hy
    · exact Nat.lt_of_lt_of_le (htrimmed y hy) (le_max_left _ _)
    · have hlow := Linked.number_of_take (l:=below ++ [x]) hlinked'.append_right hy
      have hwindow := s.1.window_exceeds
      omega
  · simp only [observeHigh,List.flatMap_append,List.flatMap_singleton,hnext]
    rw [List.append_assoc trimmed,htrim,hconfirmed,observe_confirmed (by omega),hpulled,hkept,hbranch,
      ← slice_advance hlinked' (le_max_left _ (b.number+1-s.1.confirmations)) htrimmed habove
        (by omega)]
    congr 1
    exact Numbered.slice_congr fun y _ => by omega
  · simp only [observeHigh,hnext,observe_confirmations]
    omega
  · simp only [observeHigh,observe_confirmations]
    omega
  · refine List.pairwise_append.mpr ⟨h.spared,List.pairwise_singleton _ _,?_⟩
    intro u hu v hv y hy hreorged
    rw [List.mem_singleton.mp hv] at hreorged
    simp only [observeHigh,observe_reorged] at hreorged
    have hyc : y ∈ us.flatMap TrackerUpdate.confirmed := List.mem_flatMap.mpr ⟨u,hu,hy⟩
    rw [hconfirmed] at hyc
    have hlt := (Numbered.mem_slice.mp hyc).2.2
    have hge := habove y hreorged
    omega

/-- Nothing confirmed is reorged later, and the confirmed blocks are one linked run of
consecutive numbers that starts at the first block and ends `confirmations` below the
highest head, once that has been reached. -/
structure Final (first : BlockRef) (confirmations highest : ℕ) (us : List TrackerUpdate) : Prop where
  spared : us.Pairwise fun u v => ∀ x ∈ u.confirmed, x ∉ v.reorged
  linked : Linked (us.flatMap TrackerUpdate.confirmed)
  numbers : (us.flatMap TrackerUpdate.confirmed).map BlockRef.number =
    List.range' first.number (highest+1-confirmations-first.number)
  starts : ∀ b ∈ (us.flatMap TrackerUpdate.confirmed).head?, b = first

theorem Finalizes.final (h : Finalizes first us s) : Final first s.1.confirmations s.2 us := by
  obtain ⟨trimmed,hlinked,hstarts,_,hconfirmed⟩ := h.branch
  obtain ⟨top,htop,_,htople,hletop⟩ := h.head
  have hlast : (trimmed ++ s.1.chain).getLast? = some top := by
    rw [List.getLast?_append_of_ne_nil _ (List.ne_nil_of_mem (List.mem_of_getLast? htop))]
    exact htop
  have hfrom := hlinked.numbered
  have hlen := hlinked.base_add_length hlast
  have hbase : base (trimmed ++ s.1.chain) = first.number := by
    rw [base,hstarts]
    rfl
  rw [hbase] at hfrom hlen
  have hslice := hfrom.from_slice (a:=0) (b:=s.1.frontier)
  have hlength := hfrom.length_slice 0 s.1.frontier
  have hfrontier := h.frontier_eq
  rw [Nat.max_zero] at hslice hlength
  refine ⟨h.spared,?_,?_,?_⟩
  · rw [hconfirmed]
    exact hlinked.within (hfrom.slice_within _ _)
  · rw [hconfirmed,hslice.map_num,hlength]
    congr 1
    omega
  · intro b hb
    rw [hconfirmed] at hb
    have hmem := (Numbered.mem_slice.mp (List.mem_of_mem_head? hb)).1
    refine hfrom.eq_of_num hmem (List.mem_of_mem_head? hstarts) ?_
    cases hlist : Numbered.slice BlockRef.number 0 s.1.frontier (trimmed ++ s.1.chain) with
    | nil => simp [hlist] at hb
    | cons c l =>
      rw [hlist] at hb hslice
      obtain rfl : c = b := by simpa using hb
      exact hslice.1

theorem Finalizes.run (h : Finalizes first us s) {blocks : List BlockRef}
    (hs : Machine.Guarded observeHigh Shallow s blocks) :
    Finalizes first (us ++ Machine.outputs observeHigh s blocks) (Machine.final observeHigh s blocks) :=
  Machine.outputs_invariant (fun _ _ _ hf hb => hf.observe hb) h hs

theorem le_highest (s : Tracker × ℕ) (blocks : List BlockRef) :
    s.2 ≤ (Machine.final observeHigh s blocks).2 ∧
      (Machine.final observeHigh s blocks).1.confirmations = s.1.confirmations :=
  have hstep : ∀ (r : Tracker × ℕ) b, (s.2 ≤ r.2 ∧ r.1.confirmations = s.1.confirmations) → True →
      s.2 ≤ (observeHigh r b).1.2 ∧ (observeHigh r b).1.1.confirmations = s.1.confirmations :=
    fun _ _ hr _ => ⟨hr.1.trans (le_max_left _ _),hr.2⟩
  Machine.state_invariant hstep ⟨le_refl _,rfl⟩ (Machine.guarded_of_forall fun _ _ _ => trivial)

/-- In every run of shallow reorgs confirmation is final, and the confirmed height has not
decreased since any earlier point of the run. -/
theorem shallow_reorgs_final (confirmations window : ℕ) (h : confirmations < window)
    (first : BlockRef) (blocks : List BlockRef) (hfirst : first.number < 2^64)
    (hs : Machine.Guarded observeHigh Shallow
      (observeHigh (fresh confirmations window h,0) first).1 blocks) :
    let start := (fresh confirmations window h,0)
    let reached := Machine.final observeHigh start (first::blocks)
    Final first confirmations reached.2 (Machine.outputs observeHigh start (first::blocks)) ∧
      ∀ pre, pre <+: blocks →
        ∀ w ∈ (Machine.final observeHigh start (first::pre)).1.confirmedHeight,
          ∃ v ∈ reached.1.confirmedHeight, w ≤ v := by
  have hstart := finalizes_first confirmations window h hfirst
  refine ⟨?_,?_⟩
  · have hconf := (le_highest (observeHigh (fresh confirmations window h,0) first).1 blocks).2
    have hfinal := (hstart.run hs).final
    rw [hconf] at hfinal
    exact hfinal
  · rintro pre ⟨rest,rfl⟩ w hw
    obtain ⟨hpre,_⟩ := (Machine.guarded_append _ _ _).mp hs
    have hmid := (hstart.run hpre).frontier_eq
    have hend := (hstart.run hs).frontier_eq
    have hgrown := le_highest (Machine.final observeHigh
      (observeHigh (fresh confirmations window h,0) first).1 pre) rest
    rw [← Machine.final_append] at hgrown
    have hw' := confirmedHeight_some_iff.mp hw
    simp only [Machine.final] at hw' ⊢
    rw [hmid] at hw'
    rw [hgrown.2] at hend
    obtain ⟨v,hv⟩ : ∃ v, (Machine.final observeHigh
        (observeHigh (fresh confirmations window h,0) first).1 (pre ++ rest)).1.frontier = v+1 :=
      ⟨_,(Nat.sub_add_cancel (by omega)).symm⟩
    exact ⟨v,confirmedHeight_some_iff.mpr hv,by omega⟩

/-- The head shrinks by one block and regrows on another branch. -/
theorem shallow_reorgs_final_regrown :
    let start := (fresh 2 3 (by decide),0)
    let blocks := [block 5,block 6,block 7,alt 7 6,alt 8 (alt 7 6).hash]
    Final (block 4) 2 (Machine.final observeHigh start (block 4::blocks)).2
        (Machine.outputs observeHigh start (block 4::blocks)) ∧
      ∀ pre, pre <+: blocks →
        ∀ w ∈ (Machine.final observeHigh start (block 4::pre)).1.confirmedHeight,
          ∃ v ∈ (Machine.final observeHigh start (block 4::blocks)).1.confirmedHeight, w ≤ v :=
  shallow_reorgs_final 2 3 (by decide) (block 4) _ (by decide) (by decide +kernel)

end Tracker
end Fintrails
