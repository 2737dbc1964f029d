import Fintrails.Checkpoints
import Fintrails.ShiftingWalk

/-! The loop of `feed` as the code has it, which takes the number of a block from the answer
and not from the request.  Over a source whose blocks carry the numbers they were asked
for it is the recursion on the number that the rest of the model uses; over one whose
blocks never carry a higher number it still ends, and otherwise it need not. -/
namespace Fintrails
namespace Poller

variable {S C α β : Type}

theorem run_bind_congr {x : Method S C α} {f g : α → Method S C β} {p : Poller S C}
    (h : ∀ a q, x.run p = .ok a q → (f a).run q = (g a).run q) :
    (x >>= f).run p = (x >>= g).run p := by
  rw [EStateM.run_bind,EStateM.run_bind]
  cases hx : x.run p with
  | ok a q => exact h a q hx
  | error e q => rfl

namespace Literal

variable (answer : ℕ → S → Except SourceError BlockRef × S)

/-- The loop, for at most `fuel` rounds; `none` is a loop that has not ended by then.  `answer` is
what the source answers to `block_ref`. -/
def walk : (fuel : ℕ) → BlockRef → List BlockRef → Method S C (Option (List BlockRef))
  | 0, _, _ => pure none
  | fuel+1, tip, branch =>
    match checkedSub tip.number 1 with
    | none => pure (some branch)
    | some parentNum => do
      match (← get).tracker.blockAt parentNum with
      | some known =>
        if known.hash = tip.parentHash then pure (some branch)
        else
          let parent ← fetch (answer parentNum)
          walk fuel parent (parent::branch)
      | none => pure (some branch)

variable [BlockSource S]

def feed (fuel : ℕ) (block : BlockRef) (msgs : List IndexerMessage) :
    Method S C (Option (List IndexerMessage)) := do
  match ← walk answer fuel block [block] with
  | some branch => some <$> handOverAll branch msgs
  | none => pure none

def feedNumbers (fuel : ℕ) : List ℕ → List IndexerMessage → Method S C (Option (List IndexerMessage))
  | [], msgs => pure (some msgs)
  | n::ns, msgs => do
    let block ← fetch (answer n)
    match ← feed answer fuel block msgs with
    | some msgs => feedNumbers fuel ns msgs
    | none => pure none

def collect (fuel : ℕ) : Method S C (Option (List IndexerMessage)) := do
  let headNum ← fetch BlockSource.headNumber
  let p ← get
  match p.tracker.head.map BlockRef.number with
  | none => feedNumbers answer fuel (List.range' p.startBlock (headNum+1-p.startBlock)) []
  | some th =>
    if th < headNum then feedNumbers answer fuel (List.range' (th+1) (headNum-th)) []
    else
      let head ← fetch (answer headNum)
      let unchanged := (p.tracker.blockAt headNum).any fun b => b.hash == head.hash
      if unchanged then pure (some []) else feed answer fuel head []

def advance [Checkpoint C] (fuel : ℕ) : Method S C (Option (List IndexerMessage)) := do
  match ← collect answer fuel with
  | some msgs =>
    match (← get).dueSave with
    | some height => save height
    | none => pure ()
    pure (some msgs)
  | none => pure none

def pollAfter [Checkpoint C] (fuel : ℕ) (p : Poller S C) (move : S → S) :
    Poller S C × Option (Except PollerError (List IndexerMessage)) :=
  match (advance answer fuel).run { p with source := move p.source } with
  | .ok (some msgs) q => (q,some (.ok msgs))
  | .ok none q => (q,none)
  | .error e q => (q,some (.error e))

end Literal

def answered [BlockSource S] (n : ℕ) (s : S) : Except SourceError BlockRef × S :=
  ((BlockSource.blockRef n s).1.map Subtype.val,(BlockSource.blockRef n s).2)

section Checked

variable [BlockSource S]

theorem fetch_answered (n : ℕ) :
    (fetch (answered n) : Method S C BlockRef) = Subtype.val <$> fetch (BlockSource.blockRef n) := by
  funext p
  change fetch (answered n) p = EStateM.map _ (fetch (BlockSource.blockRef n)) p
  rcases hcall : BlockSource.blockRef n p.source with ⟨e | b,s⟩ <;>
    simp only [fetch,answered,hcall,EStateM.map,Except.map]

theorem walk_answered {n fuel : ℕ} (hfuel : n < fuel) (tip : BlockAt n) (branch : List BlockRef) :
    (Literal.walk answered fuel tip.val branch : Method S C _) = some <$> walk n tip branch := by
  induction n generalizing fuel branch with
  | zero =>
    obtain ⟨fuel,rfl⟩ := Nat.exists_eq_succ_of_ne_zero hfuel.ne'
    simp only [Literal.walk,tip.property,checkedSub,walk,map_pure]
    rfl
  | succ n ih =>
    obtain ⟨fuel,rfl⟩ := Nat.exists_eq_succ_of_ne_zero (Nat.ne_zero_of_lt hfuel)
    simp only [Literal.walk,tip.property,checkedSub,walk,map_bind,Nat.le_add_left,if_true,
      Nat.add_sub_cancel]
    congr 1
    funext p
    cases p.tracker.blockAt n with
    | none => simp only [map_pure]
    | some known =>
      by_cases hsame : known.hash = tip.val.parentHash
      · simp only [hsame,if_true,map_pure]
      · simp only [hsame,if_false,map_bind,fetch_answered,bind_map_left]
        congr 1
        funext parent
        exact ih (by omega) parent _

theorem feed_answered {n fuel : ℕ} (hfuel : n < fuel) (b : BlockAt n) (msgs : List IndexerMessage) :
    (Literal.feed answered fuel b.val msgs : Method S C _) = some <$> feed b.val msgs := by
  obtain ⟨b,rfl⟩ := b
  simp only [Literal.feed,feed,walk_answered hfuel ⟨b,rfl⟩ [b],bind_map_left,map_bind]

theorem feedNumbers_answered {fuel : ℕ} (ns : List ℕ) (hns : ∀ n ∈ ns, n < fuel)
    (msgs : List IndexerMessage) :
    (Literal.feedNumbers answered fuel ns msgs : Method S C _) = some <$> feedNumbers ns msgs := by
  induction ns generalizing msgs with
  | nil => simp only [Literal.feedNumbers,feedNumbers,map_pure]
  | cons n ns ih =>
    simp only [Literal.feedNumbers,feedNumbers,fetch_answered,bind_map_left,map_bind]
    congr 1
    funext b
    rw [feed_answered (hns n (by simp)) b msgs,bind_map_left]
    congr 1
    funext msgs'
    exact ih (fun m hm => hns m (by simp [hm])) msgs'

theorem collect_answered {fuel : ℕ}
    (hheads : ∀ (s : S) n, (BlockSource.headNumber s).1 = .ok n → n < fuel) :
    (Literal.collect answered fuel : Method S C _) = some <$> collect := by
  funext p
  simp only [Literal.collect,collect,map_bind]
  refine run_bind_congr fun headNum q hq => ?_
  have hhead := hheads _ headNum (fetch_ok hq).1
  refine congrArg (fun x : Method S C _ => x.run q) ?_
  congr 1
  funext r
  cases r.tracker.head.map BlockRef.number with
  | none =>
    refine feedNumbers_answered _ (fun n hn => ?_) []
    have hrange := List.mem_range'_1.mp hn
    omega
  | some th =>
    by_cases hgrew : th < headNum
    · simp only [hgrew,if_true]
      refine feedNumbers_answered _ (fun n hn => ?_) []
      have hrange := List.mem_range'_1.mp hn
      omega
    · simp only [hgrew,if_false,fetch_answered,bind_map_left,map_bind]
      congr 1
      funext head
      by_cases hsame : (r.tracker.blockAt headNum).any (fun b => b.hash == head.val.hash) = true
      · simp only [hsame,if_true,map_pure]
      · simp only [hsame]
        exact feed_answered hhead head []

theorem advance_answered [Checkpoint C] {fuel : ℕ}
    (hheads : ∀ (s : S) n, (BlockSource.headNumber s).1 = .ok n → n < fuel) :
    (Literal.advance answered fuel : Method S C _) = some <$> advance := by
  simp only [Literal.advance,advance,collect_answered hheads,bind_map_left,map_bind]
  congr 1
  funext msgs
  congr 1
  funext p
  cases p.dueSave <;> simp only [map_bind,map_pure]

theorem pollAfter_answered [Checkpoint C] {fuel : ℕ}
    (hheads : ∀ (s : S) n, (BlockSource.headNumber s).1 = .ok n → n < fuel) (p : Poller S C)
    (move : S → S) : Literal.pollAfter answered fuel p move =
      ((pollAfter p move).1,some (pollAfter p move).2) := by
  simp only [Literal.pollAfter,pollAfter,poll,advance_answered hheads,← bind_pure_comp,
    EStateM.run_bind]
  cases advance.run { p with source := move p.source } <;> rfl

/-- Where blocks carry the numbers they are asked for under, and no head lies at or above `fuel`, the
loop as the code has it gives the same polls: each of them ends. -/
theorem literal_run [Checkpoint C] {fuel : ℕ}
    (hheads : ∀ (s : S) n, (BlockSource.headNumber s).1 = .ok n → n < fuel) (p : Poller S C)
    (moves : List (S → S)) :
    Machine.outputs (Literal.pollAfter answered fuel) p moves =
        (Machine.outputs pollAfter p moves).map some ∧
      Machine.final (Literal.pollAfter answered fuel) p moves = Machine.final pollAfter p moves := by
  induction moves generalizing p with
  | nil => exact ⟨rfl,rfl⟩
  | cons move moves ih =>
    obtain ⟨houtputs,hfinal⟩ := ih (pollAfter p move).1
    rw [Machine.outputs_cons,Machine.outputs_cons,Machine.final,Machine.final,
      pollAfter_answered hheads]
    exact ⟨by rw [houtputs,List.map_cons],hfinal⟩

theorem node_heads (s : Node) (n : ℕ) (h : (BlockSource.headNumber s).1 = .ok n) : n < 2^64 := by
  cases h
  have hheight := s.chain.height_lt
  exact Nat.lt_of_le_of_lt s.head_le (by omega)

/-- Blocks 2 to 4 are replaced between two polls. -/
theorem literal_run_forked :
    let p := new (World.forked.node World.forkedLinear) (Tracker.fresh 1 4 (by decide)) 1
    let moves := [id,fun _ => World.forked.node World.forkedBranch]
    Machine.outputs (Literal.pollAfter answered (2^64)) p moves =
      (Machine.outputs pollAfter p moves).map some := by
  intro p moves
  exact (literal_run node_heads p moves).1

end Checked

/-- From `p`, the computation does not run out of rounds. -/
def EndsFrom (x : Method S C (Option α)) (p : Poller S C) : Prop := ∀ q, x.run p ≠ .ok none q

theorem endsFrom_pure (a : α) (p : Poller S C) : EndsFrom (pure (some a)) p := by
  rintro q ⟨⟩

theorem EndsFrom.bind {x : Method S C α} {f : α → Method S C (Option β)} {p : Poller S C}
    (h : ∀ a q, x.run p = .ok a q → EndsFrom (f a) q) : EndsFrom (x >>= f) p := by
  intro r hr
  obtain ⟨a,q,hx,hf⟩ := bind_ok hr
  exact h a q hx r hf

theorem EndsFrom.bind_some {x : Method S C (Option α)} {f : Option α → Method S C (Option β)}
    {p : Poller S C} (hx : EndsFrom x p) (hf : ∀ a q, EndsFrom (f (some a)) q) :
    EndsFrom (x >>= f) p := by
  refine .bind fun o q ho => ?_
  cases o with
  | some a => exact hf a q
  | none => exact absurd ho (hx q)

theorem not_endsFrom_bind {x : Method S C α} {f : α → Method S C (Option β)} {p q : Poller S C} {a : α}
    (hx : x.run p = .ok a q) (hf : ¬EndsFrom (f a) q) : ¬EndsFrom (x >>= f) p := by
  intro h
  refine hf fun r hr => h r ?_
  rw [EStateM.run_bind,hx]
  exact hr

theorem not_endsFrom_first {x : Method S C (Option α)} {f : Option α → Method S C (Option β)}
    {p : Poller S C} (hx : ¬EndsFrom x p) (hf : f none = pure none) : ¬EndsFrom (x >>= f) p := by
  simp only [EndsFrom,not_forall,not_not] at hx
  obtain ⟨q,hq⟩ := hx
  refine not_endsFrom_bind hq fun h => h q ?_
  rw [hf]
  rfl

theorem endsFrom_map (x : Method S C α) (p : Poller S C) : EndsFrom (some <$> x) p := by
  rw [← bind_pure_comp]
  exact .bind fun a q _ => endsFrom_pure a q

section Unchecked

variable {answer : ℕ → S → Except SourceError BlockRef × S} {fuel : ℕ}

/-- No block has a higher number than the one it is asked for under. -/
def NeverAbove (answer : ℕ → S → Except SourceError BlockRef × S) : Prop :=
  ∀ n s b, (answer n s).1 = .ok b → b.number ≤ n

theorem walk_ends (hanswer : NeverAbove answer) {tip : BlockRef} (hfuel : tip.number < fuel)
    (branch : List BlockRef) (p : Poller S C) :
    EndsFrom (Literal.walk answer fuel tip branch) p := by
  induction fuel generalizing tip branch p with
  | zero => exact absurd hfuel (Nat.not_lt_zero _)
  | succ fuel ih =>
    rw [Literal.walk]
    cases hsub : checkedSub tip.number 1 with
    | none => exact endsFrom_pure _ p
    | some parentNum =>
      have hparent : parentNum+1 = tip.number := by
        simp only [checkedSub] at hsub
        split at hsub <;> simp at hsub
        omega
      refine .bind fun p' q _ => ?_
      cases p'.tracker.blockAt parentNum with
      | none => exact endsFrom_pure _ q
      | some known =>
        by_cases hsame : known.hash = tip.parentHash
        · simp only [hsame,if_true]
          exact endsFrom_pure _ q
        · simp only [hsame,if_false]
          refine .bind fun parent r hr => ih ?_ _ r
          have hle := hanswer _ _ _ (fetch_ok hr).1
          omega

variable [BlockSource S]

theorem feed_ends (hanswer : NeverAbove answer) {b : BlockRef} (hfuel : b.number < fuel)
    (msgs : List IndexerMessage) (p : Poller S C) : EndsFrom (Literal.feed answer fuel b msgs) p :=
  (walk_ends hanswer hfuel [b] p).bind_some fun branch q => endsFrom_map (handOverAll branch msgs) q

theorem feedNumbers_ends (hanswer : NeverAbove answer) (ns : List ℕ) (hns : ∀ n ∈ ns, n < fuel)
    (msgs : List IndexerMessage) (p : Poller S C) :
    EndsFrom (Literal.feedNumbers answer fuel ns msgs) p := by
  induction ns generalizing msgs p with
  | nil => exact endsFrom_pure msgs p
  | cons n ns ih =>
    refine .bind fun b q hb => ?_
    have hle := hanswer _ _ _ (fetch_ok hb).1
    have hfuel := Nat.lt_of_le_of_lt hle (hns n (by simp))
    exact (feed_ends hanswer hfuel msgs q).bind_some fun msgs' r =>
      ih (fun m hm => hns m (by simp [hm])) msgs' r

theorem collect_ends (hanswer : NeverAbove answer)
    (hheads : ∀ (s : S) n, (BlockSource.headNumber s).1 = .ok n → n < fuel) (p : Poller S C) :
    EndsFrom (Literal.collect answer fuel) p := by
  refine .bind fun headNum q hq => .bind fun r q' _ => ?_
  have hhead := hheads _ headNum (fetch_ok hq).1
  cases r.tracker.head.map BlockRef.number with
  | none =>
    refine feedNumbers_ends hanswer _ (fun n hn => ?_) [] q'
    have hrange := List.mem_range'_1.mp hn
    omega
  | some th =>
    by_cases hgrew : th < headNum
    · simp only [hgrew,if_true]
      refine feedNumbers_ends hanswer _ (fun n hn => ?_) [] q'
      have hrange := List.mem_range'_1.mp hn
      omega
    · simp only [hgrew,if_false]
      refine .bind fun head u hu => ?_
      have hle := hanswer _ _ _ (fetch_ok hu).1
      by_cases hsame : (r.tracker.blockAt headNum).any (fun b => b.hash == head.hash) = true
      · simp only [hsame,if_true]
        exact endsFrom_pure [] u
      · simp only [hsame]
        exact feed_ends hanswer (by omega) [] u

theorem advance_ends [Checkpoint C] (hanswer : NeverAbove answer)
    (hheads : ∀ (s : S) n, (BlockSource.headNumber s).1 = .ok n → n < fuel) (p : Poller S C) :
    EndsFrom (Literal.advance answer fuel) p := by
  refine (collect_ends hanswer hheads p).bind_some fun msgs q => .bind fun r q' _ => ?_
  cases r.dueSave with
  | none => exact endsFrom_pure msgs q'
  | some height => exact .bind fun _ u _ => endsFrom_pure msgs u

theorem pollAfter_eq_none_iff [Checkpoint C] {p : Poller S C} {move : S → S} :
    (Literal.pollAfter answer fuel p move).2 = none ↔
      ¬EndsFrom (Literal.advance answer fuel) { p with source := move p.source } := by
  simp only [Literal.pollAfter,EndsFrom]
  cases (Literal.advance answer fuel).run { p with source := move p.source } with
  | error e q => simp
  | ok o q => cases o <;> simp

/-- Every poll of every run ends, if no block carries a higher number than it is asked for under. -/
theorem literal_ends [Checkpoint C] (hanswer : NeverAbove answer)
    (hheads : ∀ (s : S) n, (BlockSource.headNumber s).1 = .ok n → n < fuel) (p : Poller S C)
    (moves : List (S → S)) : none ∉ Machine.outputs (Literal.pollAfter answer fuel) p moves := by
  induction moves generalizing p with
  | nil => exact List.not_mem_nil
  | cons move moves ih =>
    rw [Machine.outputs_cons,List.mem_cons,not_or]
    exact ⟨fun h => pollAfter_eq_none_iff.mp h.symm (advance_ends hanswer hheads _),ih _⟩

/-- A source that always answers with the block before. -/
theorem literal_ends_behind :
    let p := new (Node.quiet (.linear 4 (by decide))) (Tracker.fresh 1 4 (by decide)) 1
    none ∉ Machine.outputs
      (Literal.pollAfter (fun n s => (.ok (Tracker.block (n-1)),s)) (2^64)) p [id,id] := by
  intro p
  refine literal_ends (fun n s b hb => ?_) node_heads p [id,id]
  cases hb
  exact Nat.sub_le n 1

end Unchecked

section OneBlock

variable {answer : ℕ → S → Except SourceError BlockRef × S} {b : BlockRef}

/-- The tracker retains a block in front of `b` that is not its parent. -/
def Misfits (b : BlockRef) (t : Tracker) : Prop :=
  0 < b.number ∧ ∃ known ∈ t.blockAt (b.number-1), known.hash ≠ b.parentHash

instance misfitsDecidable (b : BlockRef) (t : Tracker) : Decidable (Misfits b t) :=
  inferInstanceAs (Decidable (_ ∧ ∃ known ∈ t.blockAt (b.number-1), known.hash ≠ b.parentHash))

theorem walk_stuck (hanswer : ∀ n s, (answer n s).1 = .ok b) (fuel : ℕ) (branch : List BlockRef)
    (p : Poller S C) (hmisfits : Misfits b p.tracker) :
    ∃ q, (Literal.walk answer fuel b branch).run p = .ok none q := by
  obtain ⟨hpos,known,hat,hdiffers⟩ := hmisfits
  induction fuel generalizing branch p with
  | zero => exact ⟨p,rfl⟩
  | succ fuel ih =>
    obtain ⟨q,hq⟩ := ih (b::branch) { p with source := (answer (b.number-1) p.source).2 } hat
    refine ⟨q,?_⟩
    have hsub : checkedSub b.number 1 = some (b.number-1) := if_pos hpos
    simp only [Literal.walk,hsub]
    rw [EStateM.run_bind,EStateM.run_get]
    simp only [Option.mem_def.mp hat,hdiffers,if_false]
    rw [EStateM.run_bind,fetch_of_ok (hanswer _ _)]
    exact hq

theorem walk_fits {p : Poller S C} (hfits : ¬Misfits b p.tracker) :
    (Literal.walk answer 1 b [b]).run p = .ok (some [b]) p := by
  rw [Literal.walk]
  by_cases hpos : 0 < b.number
  · have hsub : checkedSub b.number 1 = some (b.number-1) := if_pos hpos
    simp only [hsub]
    rw [EStateM.run_bind,EStateM.run_get]
    cases hat : p.tracker.blockAt (b.number-1) with
    | none =>
      simp only [hat]
      rfl
    | some known =>
      have hsame : known.hash = b.parentHash := by
        by_contra hdiffers
        exact hfits ⟨hpos,known,hat,hdiffers⟩
      simp only [hat,hsame,if_true]
      rfl
  · have hsub : checkedSub b.number 1 = none := if_neg (by omega)
    simp only [hsub]
    rfl

theorem fits_observe {t : Tracker} (ht : t.Sound) (hb : b.number < 2^64-1) :
    ¬Misfits b (t.observe b).1 := by
  rintro ⟨hpos,known,hat,hdiffers⟩
  obtain ⟨hmem,hnum⟩ := Tracker.mem_of_blockAt hat
  have hlinked := (ht.observe hb).linked
  obtain ⟨l,hl⟩ := List.getLast?_eq_some_iff.mp (t.observe_head b)
  rw [hl] at hmem hlinked
  obtain hmem | hmem := List.mem_append.mp hmem
  · obtain ⟨l,top,rfl⟩ := List.eq_nil_or_concat' l |>.resolve_left (List.ne_nil_of_mem hmem)
    have hpair : b.number = top.number+1 ∧ b.parentHash = top.hash := by
      rw [List.append_assoc] at hlinked
      exact (List.isChain_cons_cons.mp hlinked.append_right).1
    have hsame : known = top :=
      hlinked.numbered.eq_of_num (List.mem_append_left _ hmem) (by simp) (by omega)
    exact hdiffers (hsame ▸ hpair.2.symm)
  · rw [List.mem_singleton.mp hmem] at hnum
    omega

theorem feed_one [BlockSource S] {p : Poller S C} (hfits : ¬Misfits b p.tracker)
    (hsound : p.tracker.Sound) (hb : b.number < 2^64-1) (msgs : List IndexerMessage) :
    EndsFrom (Literal.feed answer 1 b msgs) p ∧
      ∀ out q, (Literal.feed answer 1 b msgs : Method S C _).run p = .ok out q →
        q.tracker.Sound ∧ ¬Misfits b q.tracker := by
  have hrun : (Literal.feed answer 1 b msgs : Method S C _).run p =
      (some <$> handOverAll [b] msgs : Method S C _).run p := by
    rw [Literal.feed,EStateM.run_bind,walk_fits hfits]
  refine ⟨fun q hq => endsFrom_map (handOverAll [b] msgs) p q (hrun ▸ hq),fun out q hq => ?_⟩
  rw [hrun,← bind_pure_comp] at hq
  obtain ⟨out,r,hall,hpure⟩ := bind_ok hq
  obtain ⟨-,rfl⟩ := pure_ok hpure
  obtain ⟨out,r,hone,hrest⟩ := bind_ok hall
  obtain ⟨-,rfl⟩ := pure_ok hrest
  rw [(handOver_ok hone).1]
  exact ⟨hsound.observe hb,fits_observe hsound hb⟩

theorem feedNumbers_one [BlockSource S] (hanswer : ∀ n s, (answer n s).1 = .ok b)
    (hb : b.number < 2^64-1) (ns : List ℕ) (msgs : List IndexerMessage) {p : Poller S C}
    (hfits : ¬Misfits b p.tracker) (hsound : p.tracker.Sound) :
    EndsFrom (Literal.feedNumbers answer 1 ns msgs) p := by
  induction ns generalizing msgs p with
  | nil => exact endsFrom_pure msgs p
  | cons n ns ih =>
    refine .bind fun c q hc => ?_
    rw [fetch_of_ok (hanswer _ _)] at hc
    cases hc
    have hfeed := @feed_one S C answer b _ { p with source := (answer n p.source).2 } hfits hsound hb msgs
    refine .bind fun o r ho => ?_
    cases o with
    | some msgs' =>
      obtain ⟨hsound',hfits'⟩ := hfeed.2 _ _ ho
      exact ih msgs' hfits' hsound'
    | none => exact absurd ho (hfeed.1 r)

/-- The loop gets no further where the block does not fit and is not the one on record. -/
def Stuck (b : BlockRef) (headNum : ℕ) (t : Tracker) : Prop :=
  (∀ known ∈ t.blockAt headNum, known.hash ≠ b.hash) ∧ Misfits b t

instance stuckDecidable (b : BlockRef) (headNum : ℕ) (t : Tracker) : Decidable (Stuck b headNum t) :=
  inferInstanceAs (Decidable ((∀ known ∈ t.blockAt headNum, known.hash ≠ b.hash) ∧ _))

theorem stuck_of_grown {t : Tracker} (ht : t.Sound) {top : BlockRef} (htop : t.head = some top)
    {headNum : ℕ} (hgrew : top.number < headNum) (hmisfits : Misfits b t) : Stuck b headNum t := by
  refine ⟨fun known hat => ?_,hmisfits⟩
  obtain ⟨hmem,hnum⟩ := Tracker.mem_of_blockAt hat
  have hle := ht.linked.number_le htop hmem
  omega

theorem not_misfits_idle {t : Tracker} (h : t.head = none) : ¬Misfits b t := by
  rintro ⟨-,known,hat,-⟩
  have hmem := (Tracker.mem_of_blockAt hat).1
  rw [List.getLast?_eq_none_iff.mp h] at hmem
  cases hmem

variable [BlockSource S] {headNum : ℕ} {p : Poller S C}

theorem collect_one (hanswer : ∀ n s, (answer n s).1 = .ok b) (hb : b.number < 2^64-1)
    (hsound : p.tracker.Sound) (hhead : (BlockSource.headNumber p.source).1 = .ok headNum)
    (hends : ¬Stuck b headNum p.tracker) : EndsFrom (Literal.collect answer 1) p := by
  refine .bind fun n q hq => .bind fun q' _ hget => ?_
  rw [fetch_of_ok hhead] at hq
  cases hq
  cases hget
  cases htop : p.tracker.head with
  | none =>
    simp only [Option.map_none]
    exact feedNumbers_one hanswer hb _ [] (not_misfits_idle htop) hsound
  | some top =>
    simp only [Option.map_some]
    by_cases hgrew : top.number < headNum
    · simp only [hgrew,if_true]
      exact feedNumbers_one hanswer hb _ []
        (fun hmisfits => hends (stuck_of_grown hsound htop hgrew hmisfits)) hsound
    · simp only [hgrew,if_false]
      refine .bind fun c r hc => ?_
      rw [fetch_of_ok (hanswer _ _)] at hc
      cases hc
      by_cases hsame : (p.tracker.blockAt headNum).any (fun known => known.hash == b.hash) = true
      · simp only [hsame,if_true]
        exact endsFrom_pure [] _
      · simp only [hsame,Bool.false_eq_true,if_false]
        refine (feed_one (fun hmisfits => ?_) ?_ hb []).1
        · refine hends ⟨fun known hat heq => hsame ?_,hmisfits⟩
          rw [Option.mem_def.mp hat]
          simpa using heq
        · exact hsound

theorem collect_stuck (hanswer : ∀ n s, (answer n s).1 = .ok b)
    (hhead : (BlockSource.headNumber p.source).1 = .ok headNum)
    (hstuck : Stuck b headNum p.tracker) (fuel : ℕ) : ¬EndsFrom (Literal.collect answer fuel) p := by
  have hfeed : ∀ (msgs : List IndexerMessage) (q : Poller S C), q.tracker = p.tracker →
      ¬EndsFrom (Literal.feed answer fuel b msgs) q := by
    intro msgs q hq
    obtain ⟨r,hr⟩ := walk_stuck hanswer fuel [b] q (hq ▸ hstuck.2)
    exact not_endsFrom_first (fun h => h r hr) rfl
  refine not_endsFrom_bind (fetch_of_ok hhead) (not_endsFrom_bind (EStateM.run_get _) ?_)
  cases htop : p.tracker.head with
  | none => exact absurd hstuck.2 (not_misfits_idle htop)
  | some top =>
    simp only [Option.map_some]
    by_cases hgrew : top.number < headNum
    · simp only [hgrew,if_true]
      obtain ⟨k,hk⟩ := Nat.exists_eq_succ_of_ne_zero (Nat.sub_ne_zero_of_lt hgrew)
      rw [hk,List.range'_succ]
      exact not_endsFrom_bind (fetch_of_ok (hanswer _ _)) (not_endsFrom_first (hfeed [] _ rfl) rfl)
    · simp only [hgrew,if_false]
      refine not_endsFrom_bind (fetch_of_ok (hanswer _ _)) ?_
      have hchanged : ¬(p.tracker.blockAt headNum).any (fun known => known.hash == b.hash) = true := by
        rw [Option.any_eq_true]
        rintro ⟨known,hat,heq⟩
        exact hstuck.1 known hat (by simpa using heq)
      simp only [hchanged]
      exact hfeed [] _ rfl

/-- Over a source that answers every request for a block with the same one, `b`, whatever has been
fed before: the poll never ends exactly if the tracker retains in front of `b` a block that is
not its parent, and does not retain `b` itself at the height of the head. -/
theorem one_block_stuck_iff [Checkpoint C] (hanswer : ∀ n s, (answer n s).1 = .ok b)
    (hb : b.number < 2^64-1) (confirmations window : ℕ) (h : confirmations < window)
    (fed : List BlockRef) (hfed : ∀ x ∈ fed, x.number < 2^64-1) (move : S → S)
    (hp : p.tracker = ((Tracker.fresh confirmations window h).observeAll fed).1)
    (hhead : (BlockSource.headNumber (move p.source)).1 = .ok headNum) :
    (∀ fuel, (Literal.pollAfter answer fuel p move).2 = none) ↔ Stuck b headNum p.tracker := by
  have hsound : p.tracker.Sound := by
    rw [hp]
    exact (Tracker.fresh_sound confirmations window h).observeAll hfed
  simp only [pollAfter_eq_none_iff]
  constructor
  · intro hnever
    by_contra hends
    have hcollect := @collect_one S C answer b _ headNum { p with source := move p.source } hanswer hb
      hsound hhead hends
    refine hnever 1 (hcollect.bind_some fun msgs q => ?_)
    refine .bind fun r q' _ => ?_
    cases r.dueSave with
    | none => exact endsFrom_pure msgs q'
    | some height => exact .bind fun _ u _ => endsFrom_pure msgs u
  · intro hstuck fuel
    have hcollect := @collect_stuck S C answer b _ headNum { p with source := move p.source } hanswer
      hhead hstuck fuel
    exact not_endsFrom_first hcollect rfl

/-- A node that has only its new head to give, which replaces block 3, is asked for block 3 for
good; the block after block 3 is taken at once. -/
theorem one_block_stuck_iff_replaced :
    let p : Poller Node NoCheckpoint := ⟨Node.quiet (.linear 4 (by decide)),⟨⟩,
      ((Tracker.fresh 1 4 (by decide)).observeAll [Tracker.block 2,Tracker.block 3]).1,2,none,[],[]⟩
    (∀ fuel, (Literal.pollAfter (fun _ s => (.ok (Tracker.alt 4 9),s)) fuel p id).2 = none) ∧
      ¬∀ fuel, (Literal.pollAfter (fun _ s => (.ok (Tracker.block 4),s)) fuel p id).2 = none := by
  intro p
  have hiff : ∀ b : BlockRef, b.number < 2^64-1 →
      ((∀ fuel, (Literal.pollAfter (fun _ s => (.ok b,s)) fuel p id).2 = none) ↔
        Stuck b 4 p.tracker) := fun b hb =>
    one_block_stuck_iff (fun _ _ => rfl) hb 1 4 (by decide) [Tracker.block 2,Tracker.block 3]
      (by decide) id rfl rfl
  rw [hiff _ (by decide),hiff _ (by decide)]
  decide +kernel

end OneBlock

end Poller
end Fintrails
