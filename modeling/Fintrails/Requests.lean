import Fintrails.Calls
import Fintrails.Logged
import Fintrails.RunLoop
import Fintrails.StablePoller
import Fintrails.World

/-! What the poller asks its source for, whatever the source answers.  A poll asks for the
head, then for one block after the other; behind each it walks back as far as the tracker
retains blocks, and then asks for transfers one height at a time, each `confirmations`
below a block that it has fetched. -/
namespace Fintrails

namespace Tracker

structure Paced (confirmations window : ℕ) (t : Tracker) : Prop where
  depth : t.confirmations = confirmations
  width : t.window = window
  sound : t.Sound
  bounded : t.chain.length ≤ window
  le_frontier : ∀ top ∈ t.head, top.number+1 ≤ t.frontier+confirmations

variable {confirmations window : ℕ} {t : Tracker}

theorem paced_fresh (h : confirmations < window) :
    (fresh confirmations window h).Paced confirmations window where
  depth := rfl
  width := rfl
  sound := fresh_sound confirmations window h
  bounded := Nat.zero_le _
  le_frontier top htop := by cases htop

theorem Paced.observe (h : t.Paced confirmations window) {b : BlockRef} (hb : b.number < 2^64-1) :
    (Tracker.observe t b).1.Paced confirmations window where
  depth := h.depth
  width := h.width
  sound := h.sound.observe hb
  bounded := by
    rw [← h.width]
    exact observe_chain_length_le t b
  le_frontier := by
    intro top htop
    rw [observe_head] at htop
    rw [← Option.some.inj htop,observe_frontier,h.depth]
    omega

theorem Paced.number_confirmed (h : t.Paced confirmations window) {b x : BlockRef}
    (hx : x ∈ (Tracker.observe t b).2.confirmed) : x.number+confirmations = b.number := by
  rw [h.sound.confirmed,Numbered.mem_slice,h.depth] at hx
  obtain ⟨hmem,hlow,hhigh⟩ := hx
  rcases h.sound.kept_cases b with ⟨top,htop,ha,hlast,hfrom⟩ | ⟨_,hnil,_⟩
  · have hle : b.number ≤ t.pulled b + confirmations := by
      rw [pulled_of_attaches hfrom]
      split
      · rename_i horphaned
        have hchain := t.kept_append_orphaned b
        rw [horphaned,List.append_nil] at hchain
        have hhead := h.le_frontier top (by rw [head,← hchain]; exact hlast)
        have hnum := ha.1
        omega
      · obtain ⟨last,hlast⟩ := Option.ne_none_iff_exists'.mp
          (mt List.getLast?_eq_none_iff.mp (List.ne_nil_of_mem htop))
        have hhead := h.le_frontier last hlast
        have hunder := h.sound.linked.number_le hlast htop
        have hnum := ha.1
        omega
    omega
  · rw [hnil,List.nil_append,List.mem_singleton] at hmem
    subst hmem
    omega

end Tracker

def walked (n : ℕ) : ℕ → List Request
  | 0 => [.blockRef n]
  | k+1 => .blockRef n :: walked (n-1) k

def buried (confirmations : ℕ) (heights : List ℕ) : List Request :=
  heights.map fun m => .transfers (m-confirmations) (m-confirmations)

/-- What the poller asks for on behalf of block `n`: the block, then `k` more in front of it, no
more than the tracker retains; then the transfers that some of them confirm, in order. -/
def FeedRequests (confirmations window n : ℕ) (asked : List Request) : Prop :=
  ∃ k heights, k ≤ n ∧ k ≤ window ∧ heights.Sublist (List.range' (n-k) (k+1)) ∧
    (∀ m ∈ heights, confirmations ≤ m) ∧ asked = walked n k ++ buried confirmations heights

/-- What one poll asks for: the head, then blocks one above the other. -/
def PollRequests (confirmations window : ℕ) (asked : List Request) : Prop :=
  ∃ first feeds, asked = .headNumber :: feeds.flatten ∧
    List.Forall₂ (FeedRequests confirmations window) (List.range' first feeds.length) feeds

namespace Poller

variable {S C α : Type} {confirmations window : ℕ}

abbrev asked (p : Poller (Recording S) C) : List Request := p.source.requests

theorem asks_fetch {call : S → Except SourceError α × S} (request : Request)
    (p : Poller (Recording S) C) :
    Logs asked (fetch (Recording.record request call) : Method (Recording S) C α) p
      (fun a q more => (∃ s, (call s).1 = .ok a) ∧ q.tracker = p.tracker ∧ more = [request])
      fun q more => q.tracker = p.tracker ∧ more = [request] := by
  simp only [Logs,fetch,EStateM.run,Recording.record]
  cases hcall : (call p.source.source).1 with
  | ok a => exact ⟨[request],rfl,⟨_,hcall⟩,rfl,rfl⟩
  | error e => exact ⟨[request],rfl,rfl,rfl⟩

theorem asks_observe (b : BlockRef) (p : Poller (Recording S) C)
    (E : Poller (Recording S) C → List Request → Prop) :
    Logs asked (observe b : Method (Recording S) C TrackerUpdate) p
      (fun u q more => q.tracker = (p.tracker.observe b).1 ∧ u = (p.tracker.observe b).2 ∧ more = [])
      E :=
  ⟨[],(List.append_nil _).symm,rfl,rfl,rfl⟩

/-- The walk from `n` has gone `k` blocks back, over heights that the tracker retains. -/
structure WalkedBack (t : Tracker) (n k : ℕ) (more : List Request) : Prop where
  le : k ≤ n
  retained : ∀ i, n ≤ i+k → i < n → t.blockAt i ≠ none
  requests : .blockRef n :: more = walked n k

theorem walkedBack_zero (t : Tracker) (n : ℕ) : WalkedBack t n 0 [] where
  le := Nat.zero_le n
  retained _ hlow hhigh := absurd hhigh (Nat.not_lt.mpr hlow)
  requests := rfl

theorem WalkedBack.succ {t : Tracker} {n k : ℕ} {more : List Request} (h : WalkedBack t n k more)
    (hn : t.blockAt n ≠ none) : WalkedBack t (n+1) (k+1) (.blockRef n :: more) where
  le := Nat.succ_le_succ h.le
  retained := by
    intro i hlow hhigh
    by_cases hi : i = n
    · rw [hi]
      exact hn
    · exact h.retained i (by omega) (by omega)
  requests := congrArg _ h.requests

theorem WalkedBack.le_window {t : Tracker} {n k : ℕ} {more : List Request}
    (h : WalkedBack t n k more) (ht : t.Paced confirmations window) : k ≤ window := by
  by_contra hlt
  have hbounds : ∀ i, n ≤ i+k → i < n → base t.chain ≤ i ∧ i < base t.chain+t.chain.length := by
    intro i hlow hhigh
    obtain ⟨b,hb⟩ := Option.ne_none_iff_exists'.mp (h.retained i hlow hhigh)
    obtain ⟨hmem,hnum⟩ := Tracker.mem_of_blockAt hb
    rw [← hnum]
    exact ht.sound.linked.numbered.bounds hmem
  have hle := h.le
  have hfirst := (hbounds (n-k) (by omega) (by omega)).1
  have hlast := (hbounds (n-1) (by omega) (by omega)).2
  have hbounded := ht.bounded
  omega

/-- Observing blocks at `numbers` asks for the transfers that some of them confirm. -/
def Buries (confirmations window : ℕ) (numbers : List ℕ) (q : Poller (Recording S) C)
    (more : List Request) : Prop :=
  q.tracker.Paced confirmations window ∧ ∃ heights, heights.Sublist numbers ∧
    (∀ m ∈ heights, confirmations ≤ m) ∧ more = buried confirmations heights

theorem buries_nil {numbers : List ℕ} {q : Poller (Recording S) C}
    (hq : q.tracker.Paced confirmations window) : Buries confirmations window numbers q [] :=
  ⟨hq,[],List.nil_sublist _,by simp,rfl⟩

theorem confirmedRange_observe {t : Tracker} (ht : t.Paced confirmations window) {b : BlockRef}
    {first last : ℕ} (hrange : confirmedRange (t.observe b).2 = some (first,last)) :
    first+confirmations = b.number ∧ last = first := by
  simp only [confirmedRange,Option.bind_eq_bind,Option.bind_eq_some_iff,Option.pure_def,
    Option.some.injEq,Prod.mk.injEq] at hrange
  obtain ⟨x,hx,y,hy,rfl,rfl⟩ := hrange
  have hfirst := ht.number_confirmed (List.mem_of_head? hx)
  have hlast := ht.number_confirmed (List.mem_of_getLast? hy)
  exact ⟨hfirst,by omega⟩

def Feeds (confirmations window first : ℕ) (q : Poller (Recording S) C) (more : List Request) : Prop :=
  q.tracker.Paced confirmations window ∧ ∃ feeds, more = feeds.flatten ∧
    List.Forall₂ (FeedRequests confirmations window) (List.range' first feeds.length) feeds

theorem feeds_one {first : ℕ} {q : Poller (Recording S) C} {more : List Request}
    (hq : q.tracker.Paced confirmations window) (h : FeedRequests confirmations window first more) :
    Feeds confirmations window first q more :=
  ⟨hq,[more],by simp,.cons h .nil⟩

theorem feedRequests_alone (confirmations window n : ℕ) :
    FeedRequests confirmations window n [.blockRef n] :=
  ⟨0,[],Nat.zero_le _,Nat.zero_le _,List.nil_sublist _,by simp,rfl⟩

theorem asks_save [Checkpoint C] (height : ℕ) (p : Poller (Recording S) C) :
    Logs asked (save height : Method (Recording S) C Unit) p
      (fun _ q more => q.tracker = p.tracker ∧ more = [])
      fun q more => q.tracker = p.tracker ∧ more = [] := by
  simp only [Logs,save,EStateM.run]
  rcases Checkpoint.save height p.checkpoint with ⟨e | u,c⟩ <;>
    exact ⟨[],(List.append_nil _).symm,rfl,rfl⟩

section Methods

variable [BlockSource S]

theorem asks_walk (n : ℕ) (tip : BlockAt n) (branch : List BlockRef)
    (p : Poller (Recording S) C) (hbranch : branch.map BlockRef.number = List.range' n branch.length) :
    Logs asked (walk n tip branch : Method (Recording S) C (List BlockRef)) p
      (fun branch' q more => q.tracker = p.tracker ∧ ∃ k, WalkedBack p.tracker n k more ∧
        branch'.map BlockRef.number = List.range' (n-k) (branch.length+k))
      fun q more => q.tracker = p.tracker ∧ ∃ k, WalkedBack p.tracker n k more := by
  induction n generalizing p branch with
  | zero => exact .pure ⟨rfl,0,walkedBack_zero _ _,hbranch⟩
  | succ n ih =>
    refine .get ?_
    cases hat : p.tracker.blockAt n with
    | none => exact .pure ⟨rfl,0,walkedBack_zero _ _,hbranch⟩
    | some known =>
      by_cases hsame : known.hash = tip.val.parentHash
      · simp only [hsame,if_true]
        exact .pure ⟨rfl,0,walkedBack_zero _ _,hbranch⟩
      · simp only [hsame,if_false]
        have hretained : p.tracker.blockAt n ≠ none := by simp [hat]
        have hfetch : Logs asked
            (fetch (BlockSource.blockRef n) : Method (Recording S) C (BlockAt n)) p
            (fun _ q more => q.tracker = p.tracker ∧ more = [.blockRef n])
            fun q more => q.tracker = p.tracker ∧ ∃ k, WalkedBack p.tracker (n+1) k more := by
          refine (asks_fetch (.blockRef n) p).mono (fun _ _ _ h => h.2) ?_
          rintro q _ ⟨hq,rfl⟩
          exact ⟨hq,1,(walkedBack_zero _ _).succ hretained⟩
        refine hfetch.bind ?_
        rintro parent q _ ⟨hq,rfl⟩
        have hparent := ih parent (parent.val::branch) q
          (by rw [List.map_cons,parent.property,hbranch,List.length_cons,List.range'_succ])
        refine hparent.mono ?_ ?_
        · rintro branch' r more ⟨hr,k,hback,hnumbers⟩
          rw [hq] at hr hback
          refine ⟨hr,k+1,hback.succ hretained,?_⟩
          rw [hnumbers,List.length_cons,Nat.add_sub_add_right]
          congr 1
          omega
        · rintro r more ⟨hr,k,hback⟩
          rw [hq] at hr hback
          exact ⟨hr,k+1,hback.succ hretained⟩

theorem asks_handOver (b : BlockRef) (msgs : List IndexerMessage) (p : Poller (Recording S) C)
    (hp : p.tracker.Paced confirmations window) (hb : b.number < 2^64-1) :
    Logs asked (handOver b msgs : Method (Recording S) C (List IndexerMessage)) p
      (fun _ => Buries confirmations window [b.number]) (Buries confirmations window [b.number]) := by
  refine (asks_observe b p _).bind ?_
  rintro u q _ ⟨htracker,hu,rfl⟩
  have hq : q.tracker.Paced confirmations window := by
    rw [htracker]
    exact hp.observe hb
  cases hrange : confirmedRange u with
  | none => exact .pure (buries_nil hq)
  | some range =>
    obtain ⟨first,last⟩ := range
    rw [hu] at hrange
    obtain ⟨hfirst,rfl⟩ := confirmedRange_observe hp hrange
    have hburied : ∀ r : Poller (Recording S) C, r.tracker = q.tracker →
        Buries confirmations window [b.number] r [.transfers last last] := by
      intro r hr
      refine ⟨by rwa [hr],[b.number],.refl _,?_,?_⟩
      · simp only [List.mem_singleton]
        omega
      · rw [buried,List.map_singleton,← hfirst,Nat.add_sub_cancel]
    have hfetch : Logs asked
        (fetch (BlockSource.transfers last last) : Method (Recording S) C (List ChainEvent)) q
        (fun _ r more => r.tracker = q.tracker ∧ more = [.transfers last last])
        (Buries confirmations window [b.number]) := by
      refine (asks_fetch (.transfers last last) q).mono (fun _ _ _ h => h.2) ?_
      rintro r _ ⟨hr,rfl⟩
      exact hburied r hr
    refine hfetch.bind ?_
    rintro events r _ ⟨hr,rfl⟩
    exact .pure (hburied r hr)

theorem asks_handOverAll (bs : List BlockRef) (msgs : List IndexerMessage)
    (p : Poller (Recording S) C) (hp : p.tracker.Paced confirmations window)
    (hbs : ∀ b ∈ bs, b.number < 2^64-1) :
    Logs asked (handOverAll bs msgs : Method (Recording S) C (List IndexerMessage)) p
      (fun _ => Buries confirmations window (bs.map BlockRef.number))
      (Buries confirmations window (bs.map BlockRef.number)) := by
  induction bs generalizing p msgs with
  | nil => exact .pure (buries_nil hp)
  | cons b bs ih =>
    have hjoin : ∀ {q r : Poller (Recording S) C} {more rest : List Request},
        Buries confirmations window [b.number] q more →
        Buries confirmations window (bs.map BlockRef.number) r rest →
        Buries confirmations window ((b::bs).map BlockRef.number) r (more++rest) := by
      rintro q r _ _ ⟨-,heights,hsub,hdeep,rfl⟩ ⟨hr,heights',hsub',hdeep',rfl⟩
      refine ⟨hr,heights++heights',hsub.append hsub',?_,(List.map_append).symm⟩
      intro m hm
      exact (List.mem_append.mp hm).elim (hdeep m) (hdeep' m)
    have hfirst := asks_handOver b msgs p hp (hbs b (by simp))
    refine (hfirst.mono (fun _ _ _ h => h) fun q more hq => ?_).bind ?_
    · simpa using hjoin hq (buries_nil hq.1)
    · intro msgs' q more hq
      have hrest := ih msgs' q hq.1 fun c hc => hbs c (by simp [hc])
      exact hrest.mono (fun _ _ _ => hjoin hq) fun _ _ => hjoin hq

theorem asks_feed {n : ℕ} (b : BlockAt n) (msgs : List IndexerMessage)
    (p : Poller (Recording S) C) (hp : p.tracker.Paced confirmations window) (hn : n < 2^64-1) :
    Logs asked (feed b.val msgs : Method (Recording S) C (List IndexerMessage)) p
      (fun _ q more => q.tracker.Paced confirmations window ∧
        FeedRequests confirmations window n (.blockRef n :: more))
      fun q more => q.tracker.Paced confirmations window ∧
        FeedRequests confirmations window n (.blockRef n :: more) := by
  obtain ⟨b,rfl⟩ := b
  have hwalk := asks_walk b.number ⟨b,rfl⟩ [b] p rfl
  refine (hwalk.mono (fun _ _ _ h => h) ?_).bind ?_
  · rintro q more ⟨hq,k,hback⟩
    rw [← hq] at hp hback
    exact ⟨hp,k,[],hback.le,hback.le_window hp,List.nil_sublist _,by simp,by simp [hback.requests,buried]⟩
  · rintro branch q more ⟨hq,k,hback,hnumbers⟩
    rw [← hq] at hp hback
    have hbelow : ∀ c ∈ branch, c.number < 2^64-1 := by
      intro c hc
      have hmem := List.mem_map_of_mem (f:=BlockRef.number) hc
      rw [hnumbers,List.mem_range'_1,List.length_singleton] at hmem
      have hle := hback.le
      omega
    have hjoin : ∀ {r : Poller (Recording S) C} {rest : List Request},
        Buries confirmations window (branch.map BlockRef.number) r rest →
        r.tracker.Paced confirmations window ∧
          FeedRequests confirmations window b.number (.blockRef b.number :: (more++rest)) := by
      rintro r _ ⟨hr,heights,hsub,hdeep,rfl⟩
      rw [hnumbers,List.length_singleton,Nat.add_comm] at hsub
      refine ⟨hr,k,heights,hback.le,hback.le_window hp,hsub,hdeep,?_⟩
      rw [← hback.requests,List.cons_append]
    exact (asks_handOverAll branch msgs q hp hbelow).mono (fun _ _ _ => hjoin) fun _ _ => hjoin

theorem asks_fetchBlock (n : ℕ) (p : Poller (Recording S) C)
    (hp : p.tracker.Paced confirmations window) :
    Logs asked (fetch (BlockSource.blockRef n) : Method (Recording S) C (BlockAt n)) p
      (fun _ q more => q.tracker.Paced confirmations window ∧ more = [.blockRef n])
      (Feeds confirmations window n) := by
  refine (asks_fetch (.blockRef n) p).mono ?_ ?_
  · rintro _ q _ ⟨-,hq,rfl⟩
    exact ⟨by rwa [hq],rfl⟩
  · rintro q _ ⟨hq,rfl⟩
    exact feeds_one (by rwa [hq]) (feedRequests_alone _ _ n)

theorem asks_feedNumbers (first count : ℕ) (msgs : List IndexerMessage)
    (p : Poller (Recording S) C) (hp : p.tracker.Paced confirmations window)
    (hcount : ∀ n, first ≤ n → n < first+count → n < 2^64-1) :
    Logs asked
      (feedNumbers (List.range' first count) msgs : Method (Recording S) C (List IndexerMessage)) p
      (fun _ => Feeds confirmations window first) (Feeds confirmations window first) := by
  induction count generalizing first msgs p with
  | zero => exact .pure ⟨hp,[],rfl,.nil⟩
  | succ count ih =>
    refine (asks_fetchBlock first p hp).bind ?_
    rintro b q _ ⟨hq,rfl⟩
    refine ((asks_feed b msgs q hq (hcount first le_rfl (by omega))).mono (fun _ _ _ h => h) ?_).bind ?_
    · rintro r more ⟨hr,hfeed⟩
      exact feeds_one hr hfeed
    · rintro msgs' r more ⟨hr,hfeed⟩
      have hjoin : ∀ {u : Poller (Recording S) C} {rest : List Request},
          Feeds confirmations window (first+1) u rest →
          Feeds confirmations window first u ([.blockRef first] ++ (more++rest)) := by
        rintro u _ ⟨hu,feeds,rfl,hall⟩
        exact ⟨hu,(.blockRef first :: more)::feeds,rfl,.cons hfeed hall⟩
      exact (ih (first+1) msgs' r hr fun n hlow hhigh => hcount n (by omega) (by omega)).mono (fun _ _ _ => hjoin) fun _ _ => hjoin

def Polled (confirmations window : ℕ) (q : Poller (Recording S) C) (more : List Request) : Prop :=
  q.tracker.Paced confirmations window ∧ PollRequests confirmations window more

theorem asks_collect (p : Poller (Recording S) C) (hp : p.tracker.Paced confirmations window)
    (hheads : ∀ (s : S) n, (BlockSource.headNumber s).1 = .ok n → n < 2^64-1) :
    Logs asked (collect : Method (Recording S) C (List IndexerMessage)) p
      (fun _ => Polled confirmations window) (Polled confirmations window) := by
  have hjoin : ∀ {first : ℕ} {q : Poller (Recording S) C} {more : List Request},
      Feeds confirmations window first q more →
      Polled confirmations window q ([.headNumber] ++ more) := by
    rintro first q _ ⟨hq,feeds,rfl,hall⟩
    exact ⟨hq,first,feeds,rfl,hall⟩
  refine ((asks_fetch .headNumber p).mono (fun _ _ _ h => h) ?_).bind ?_
  · rintro q _ ⟨hq,rfl⟩
    rw [← hq] at hp
    exact ⟨hp,0,[],rfl,.nil⟩
  rintro headNum q _ ⟨⟨s,hs⟩,hq,rfl⟩
  rw [← hq] at hp
  have hhead := hheads s headNum hs
  refine .get ?_
  cases q.tracker.head.map BlockRef.number with
  | none =>
    exact (asks_feedNumbers _ _ [] q hp (by omega)).mono (fun _ _ _ => hjoin) fun _ _ => hjoin
  | some th =>
    by_cases hgrew : th < headNum
    · simp only [hgrew,if_true]
      exact (asks_feedNumbers _ _ [] q hp (by omega)).mono (fun _ _ _ => hjoin) fun _ _ => hjoin
    · simp only [hgrew,if_false]
      refine ((asks_fetchBlock headNum q hp).mono (fun _ _ _ h => h) fun _ _ => hjoin).bind ?_
      rintro b r _ ⟨hr,rfl⟩
      by_cases hsame : (q.tracker.blockAt headNum).any (fun known => known.hash == b.val.hash) = true
      · simp only [hsame,if_true]
        exact .pure (hjoin (feeds_one hr (feedRequests_alone _ _ headNum)))
      · simp only [hsame]
        have hfed : ∀ {u : Poller (Recording S) C} {more : List Request},
            u.tracker.Paced confirmations window ∧
              FeedRequests confirmations window headNum (.blockRef headNum :: more) →
            Polled confirmations window u ([.headNumber] ++ ([.blockRef headNum] ++ more)) :=
          fun h => hjoin (feeds_one h.1 h.2)
        exact (asks_feed b [] r hr hhead).mono (fun _ _ _ => hfed) fun _ _ => hfed

variable [Checkpoint C]

theorem asks_advance (p : Poller (Recording S) C) (hp : p.tracker.Paced confirmations window)
    (hheads : ∀ (s : S) n, (BlockSource.headNumber s).1 = .ok n → n < 2^64-1) :
    Logs asked (advance : Method (Recording S) C (List IndexerMessage)) p
      (fun _ => Polled confirmations window) (Polled confirmations window) := by
  refine (asks_collect p hp hheads).bind fun msgs q more hq => .get ?_
  have hkept : ∀ {r : Poller (Recording S) C} {rest : List Request},
      r.tracker = q.tracker ∧ rest = [] → Polled confirmations window r (more++rest) := by
    rintro r _ ⟨hr,rfl⟩
    rw [Polled,hr,List.append_nil]
    exact hq
  cases q.dueSave with
  | none => exact .pure (hkept ⟨rfl,rfl⟩)
  | some height =>
    refine ((asks_save height q).mono (fun _ _ _ h => h) fun _ _ => hkept).bind ?_
    rintro _ r _ ⟨hr,rfl⟩
    exact .pure (hkept ⟨hr,rfl⟩)

theorem asks_poll (p : Poller (Recording S) C) (hp : p.tracker.Paced confirmations window)
    (hheads : ∀ (s : S) n, (BlockSource.headNumber s).1 = .ok n → n < 2^64-1) :
    ∃ more, (poll p).1.asked = p.asked ++ more ∧ Polled confirmations window (poll p).1 more := by
  have hadvance := asks_advance p hp hheads
  simp only [Logs,poll] at hadvance ⊢
  generalize EStateM.run advance p = r at hadvance
  cases r <;> exact hadvance

theorem asks_polls (p : Poller (Recording S) C) (hp : p.tracker.Paced confirmations window)
    (hheads : ∀ (s : S) n, (BlockSource.headNumber s).1 = .ok n → n < 2^64-1)
    (moves : List (S → S)) : ∃ polls : List (List Request), polls.length = moves.length ∧
      (Machine.final pollAfter p (moves.map Recording.move)).asked = p.asked ++ polls.flatten ∧
      ∀ more ∈ polls, PollRequests confirmations window more := by
  induction moves generalizing p with
  | nil => exact ⟨[],rfl,(List.append_nil _).symm,by simp⟩
  | cons move moves ih =>
    obtain ⟨more,hmore,hnext,hpolled⟩ :=
      asks_poll { p with source := p.source.move move } hp hheads
    obtain ⟨polls,hlength,hasked,hall⟩ := ih _ hnext
    refine ⟨more::polls,by simp [hlength],?_,?_⟩
    · rw [List.flatten_cons,← List.append_assoc]
      exact hasked.trans (congrArg (· ++ polls.flatten) hmore)
    · simpa using ⟨hpolled,hall⟩

theorem outputs_recorded (p : Poller S C) (r : Recording S) (hr : r.source = p.source)
    (moves : List (S → S)) :
    Machine.outputs pollAfter (p.withSource r) (moves.map Recording.move) =
      Machine.outputs pollAfter p moves := by
  induction moves generalizing p r with
  | nil => rfl
  | cons move moves ih =>
    have hbeside : Beside (fun (s : S) (r : Recording S) => r.source = s)
        { p with source := move p.source } (p.withSource (r.move move)) :=
      ⟨_,rfl,congrArg move hr⟩
    obtain ⟨hsame,s',hs',hsource⟩ := poll_alike Recording.alike hbeside
    have hstep : pollAfter (p.withSource r) (Recording.move move) =
        ((pollAfter p move).1.withSource s',(pollAfter p move).2) := Prod.ext hs' hsame.symm
    rw [List.map_cons,Machine.outputs_cons,Machine.outputs_cons,hstep]
    exact congrArg _ (ih _ s' hsource)

end Methods

/-- A request for transfers is for one height, and the block `confirmations` above it has been
asked for before. -/
def Justified (confirmations : ℕ) (before : List Request) (r : Request) : Prop :=
  ∀ first last, r = .transfers first last → last = first ∧ .blockRef (first+confirmations) ∈ before

theorem Justified.append (l : List Request) {before : List Request} {r : Request}
    (h : Justified confirmations before r) : Justified confirmations (l++before) r := by
  rintro first last rfl
  obtain ⟨hlast,hmem⟩ := h first last rfl
  exact ⟨hlast,List.mem_append_right _ hmem⟩

end Poller

theorem mem_walked {n k m : ℕ} (h : k ≤ n) (hlow : n ≤ m+k) (hhigh : m ≤ n) :
    .blockRef m ∈ walked n k := by
  induction k generalizing n with
  | zero =>
    obtain rfl : m = n := by omega
    exact List.mem_singleton_self _
  | succ k ih =>
    by_cases hm : m = n
    · rw [hm]
      exact List.mem_cons_self
    · exact List.mem_cons_of_mem _ (ih (n:=n-1) (by omega) (by omega) (by omega))

theorem eq_blockRef_of_walked {n k : ℕ} {r : Request} (h : r ∈ walked n k) : ∃ m, r = .blockRef m := by
  induction k generalizing n with
  | zero => exact ⟨n,List.mem_singleton.mp h⟩
  | succ k ih => exact (List.mem_cons.mp h).elim (fun hr => ⟨n,hr⟩) ih

variable {confirmations window : ℕ}

theorem FeedRequests.justified {n : ℕ} {asked : List Request}
    (h : FeedRequests confirmations window n asked) :
    EachAfter (Poller.Justified confirmations) asked := by
  obtain ⟨k,heights,hle,-,hsub,hdeep,rfl⟩ := h
  refine (eachAfter_of_forall ?_).append (eachAfter_of_forall ?_)
  · rintro r hr before first last rfl
    obtain ⟨m,hm⟩ := eq_blockRef_of_walked hr
    cases hm
  · rintro r hr before first last rfl
    obtain ⟨m,hm,heq⟩ := List.mem_map.mp hr
    obtain ⟨rfl,rfl⟩ := Request.transfers.inj heq
    have hrange := List.mem_range'_1.mp (hsub.subset hm)
    rw [Nat.sub_add_cancel (hdeep m hm)]
    exact ⟨rfl,List.mem_append_left _ (mem_walked hle (by omega) (by omega))⟩

theorem PollRequests.justified {asked : List Request} (h : PollRequests confirmations window asked) :
    EachAfter (Poller.Justified confirmations) asked := by
  obtain ⟨first,feeds,rfl,hall⟩ := h
  have hfeeds : ∀ feed ∈ [.headNumber]::feeds, EachAfter (Poller.Justified confirmations) feed := by
    intro feed hfeed
    obtain rfl | hfeed := List.mem_cons.mp hfeed
    · exact eachAfter_of_forall (by simp [Poller.Justified])
    · obtain ⟨⟨i,hi⟩,rfl⟩ := List.get_of_mem hfeed
      exact FeedRequests.justified (hall.get (by simpa using hi) hi)
  exact EachAfter.flatten Poller.Justified.append hfeeds

namespace Poller

variable {S C : Type} [BlockSource S] [Checkpoint C]

/-- What the poller asks for, over any source and any checkpoint: each poll asks for the head and
then for blocks one above the other, each with the walk back behind it; transfers are asked for
one height at a time, once the block `confirmations` above it has been asked for. -/
theorem requests_of_run (hheads : ∀ (s : S) n, (BlockSource.headNumber s).1 = .ok n → n < 2^64-1)
    (h : confirmations < window) (p : Poller S C)
    (hp : p.tracker = Tracker.fresh confirmations window h) (moves : List (S → S)) :
    let recorded := p.withSource (⟨p.source,[]⟩ : Recording S)
    let recordedMoves := moves.map Recording.move
    Machine.outputs pollAfter recorded recordedMoves = Machine.outputs pollAfter p moves ∧
    (∃ polls : List (List Request), polls.length = moves.length ∧
      (Machine.final pollAfter recorded recordedMoves).asked = polls.flatten ∧
      ∀ asked ∈ polls, PollRequests confirmations window asked) ∧
    EachAfter (Justified confirmations) (Machine.final pollAfter recorded recordedMoves).asked := by
  intro recorded recordedMoves
  have hpaced : recorded.tracker.Paced confirmations window := by
    rw [show recorded.tracker = p.tracker from rfl,hp]
    exact Tracker.paced_fresh h
  obtain ⟨polls,hlength,hasked,hall⟩ := asks_polls recorded hpaced hheads moves
  refine ⟨outputs_recorded p _ rfl moves,⟨polls,hlength,hasked,hall⟩,?_⟩
  rw [hasked]
  exact EachAfter.flatten Justified.append fun asked hmem => (hall asked hmem).justified

/-- Blocks 2 to 4 are replaced by blocks 2' to 5' between two polls: the walk goes back to block 2,
and each transfer is asked for one block behind. -/
theorem requests_of_run_forked :
    let p := new (World.forked.node World.forkedLinear) (Tracker.fresh 1 4 (by decide)) 1
    let moves := [id,fun _ => World.forked.node World.forkedBranch]
    let asked := (Machine.final pollAfter
      (p.withSource (⟨p.source,[]⟩ : Recording Node)) (moves.map Recording.move)).asked
    EachAfter (Justified 1) asked ∧ asked =
      [.headNumber,.blockRef 1,.blockRef 2,.transfers 1 1,.blockRef 3,.transfers 2 2,.blockRef 4,
        .transfers 3 3,.headNumber,.blockRef 5,.blockRef 4,.blockRef 3,.blockRef 2,.transfers 2 2,
        .transfers 3 3,.transfers 4 4] := by
  intro p moves asked
  have hheads : ∀ (s : Node) n, (BlockSource.headNumber s).1 = .ok n → n < 2^64-1 := by
    rintro s _ ⟨⟩
    exact Nat.lt_of_le_of_lt s.head_le s.chain.height_lt
  exact ⟨(requests_of_run hheads (by decide) p rfl moves).2.2,by decide +kernel⟩

end Poller
end Fintrails
