import Fintrails.Poller
import Fintrails.TrackerSteps

/-! `advance` over a node whose chain does not change during the call.  No call
fails, and whatever branch of `advance` is taken the tracker observes one segment
of the canonical chain, from the fork point the walk finds up to the head. -/
namespace Fintrails

namespace Tracker

/-- Where the backward walk from the canonical block `n` stops. -/
def fork (t : Tracker) (c : Chain) : ℕ → ℕ
  | 0 => 0
  | n+1 =>
    match t.blockAt n with
    | some known => if known.hash = (c.block (n+1)).parentHash then n+1 else fork t c n
    | none => n+1

theorem fork_le (t : Tracker) (c : Chain) (n : ℕ) : t.fork c n ≤ n := by
  induction n with
  | zero => exact le_refl _
  | succ n ih =>
    simp only [fork]
    split
    · split
      · exact le_refl _
      · exact ih.trans (Nat.le_succ n)
    · exact le_refl _

theorem fork_mismatch (t : Tracker) (c : Chain) {n j : ℕ} (hj : t.fork c n ≤ j) (hjn : j < n) :
    ∃ known, t.blockAt j = some known ∧ known.hash ≠ (c.block (j+1)).parentHash := by
  induction n with
  | zero => omega
  | succ n ih =>
    simp only [fork] at hj
    split at hj
    · rename_i known hknown
      split at hj
      · omega
      · rename_i hne
        by_cases hjn' : j = n
        · exact ⟨known,hjn' ▸ hknown,hjn' ▸ hne⟩
        · exact ih hj (by omega)
    · omega

theorem fork_stop (t : Tracker) (c : Chain) (n : ℕ) :
    t.fork c n = 0 ∨ ∃ f, t.fork c n = f+1 ∧ ∀ known ∈ t.blockAt f,
      known.hash = (c.block (f+1)).parentHash := by
  induction n with
  | zero => exact .inl rfl
  | succ n ih =>
    simp only [fork]
    split
    · rename_i known hknown
      split
      · rename_i heq
        refine .inr ⟨n,rfl,?_⟩
        intro k hk
        rw [hknown] at hk
        rw [← Option.some.inj hk]
        exact heq
      · exact ih
    · rename_i hnone
      refine .inr ⟨n,rfl,?_⟩
      intro k hk
      rw [hnone] at hk
      cases hk

theorem Sound.blockAt_mem {t : Tracker} (h : t.Sound) {b : BlockRef} (hb : b ∈ t.chain) :
    t.blockAt b.number = some b :=
  h.linked.numbered.find?_eq hb

theorem mem_of_blockAt {t : Tracker} {n : ℕ} {b : BlockRef} (h : t.blockAt n = some b) :
    b ∈ t.chain ∧ b.number = n :=
  ⟨List.mem_of_find?_eq_some h,by simpa using List.find?_some h⟩

theorem Sound.fork_of_head {t : Tracker} (h : t.Sound) {c : Chain} {n : ℕ}
    (hn : n+1 ≤ c.height) (hhead : t.head = some (c.block n)) : t.fork c (n+1) = n+1 := by
  have hb := h.blockAt_mem (List.mem_of_getLast? hhead)
  rw [c.number_block n (by omega)] at hb
  simp [fork,hb,c.linked n (by omega)]

theorem fork_of_idle {t : Tracker} (c : Chain) (h : t.head = none) (n : ℕ) :
    t.fork c n = n := by
  have hnil : t.chain = [] := List.getLast?_eq_none_iff.mp h
  cases n <;> simp [fork,blockAt,hnil]

theorem Sound.observeAll {t : Tracker} (h : t.Sound) {bs : List BlockRef}
    (hbs : ∀ b ∈ bs, b.number < 2^64-1) : (observeAll t bs).1.Sound := by
  induction bs generalizing t with
  | nil => exact h
  | cons b bs ih =>
    exact ih (h.observe (hbs b (by simp))) fun x hx => hbs x (by simp [hx])

theorem observeAll_head (t : Tracker) (bs : List BlockRef) (b : BlockRef) :
    (observeAll t (bs++[b])).1.head = some b := by
  simp [observeAll_append]

theorem segment_below {c : Chain} {first last : ℕ} {b : BlockRef}
    (hb : b ∈ c.segment first last) : b.number < 2^64-1 := by
  obtain ⟨n,_,_,hn,rfl⟩ := Chain.mem_segment.mp hb
  exact c.number_lt hn

/-- The segment of the canonical chain one `advance` observes. -/
def plan (t : Tracker) (s : Node) (startBlock : ℕ) : List BlockRef :=
  match t.head with
  | none => s.chain.segment startBlock s.head
  | some top =>
    if top.number < s.head then s.chain.segment (t.fork s.chain (top.number+1)) s.head
    else if (t.blockAt s.head).any (fun b => b.hash == (s.chain.block s.head).hash) then []
    else s.chain.segment (t.fork s.chain s.head) s.head

end Tracker

def Node.confirmedEvents (s : Node) (u : TrackerUpdate) : List ChainEvent :=
  match Poller.confirmedRange u with
  | some (first,last) => (s.chain.segment first last).flatMap s.events
  | none => []

def Node.messages (s : Node) (u : TrackerUpdate) : List IndexerMessage :=
  Poller.orphanNotice u ++ (s.confirmedEvents u).map .confirmed

theorem Node.confirmed_mem_messages {s : Node} {u : TrackerUpdate} {e : ChainEvent} :
    IndexerMessage.confirmed e ∈ s.messages u ↔ ∃ range ∈ Poller.confirmedRange u, ∃ n ≤ range.2,
      range.1 ≤ n ∧ n ≤ s.chain.height ∧ e ∈ s.events (s.chain.block n) := by
  have hevents : IndexerMessage.confirmed e ∈ s.messages u ↔ e ∈ s.confirmedEvents u := by
    simp only [messages,Poller.orphanNotice]
    split <;> simp
  rw [hevents,confirmedEvents]
  cases Poller.confirmedRange u with
  | none => simp
  | some range =>
    simp only [List.mem_flatMap,Chain.mem_segment,Option.mem_some_iff,exists_eq_left']
    constructor
    · rintro ⟨_,⟨n,h1,h2,h3,rfl⟩,he⟩
      exact ⟨n,h2,h1,h3,he⟩
    · rintro ⟨n,h2,h1,h3,he⟩
      exact ⟨_,⟨n,h1,h2,h3,rfl⟩,he⟩

namespace Poller

section Observed

variable {S C : Type}

def observed (p : Poller S C) (bs : List BlockRef) : Poller S C :=
  { p with
    tracker := (Tracker.observeAll p.tracker bs).1
    reports := p.reports ++ (Tracker.observeAll p.tracker bs).2 }

def updates (p : Poller S C) (bs : List BlockRef) : List TrackerUpdate :=
  (Tracker.observeAll p.tracker bs).2

theorem observed_append (p : Poller S C) (bs cs : List BlockRef) :
    p.observed (bs++cs) = (p.observed bs).observed cs := by
  simp [observed,Tracker.observeAll_append]

theorem updates_append (p : Poller S C) (bs cs : List BlockRef) :
    p.updates (bs++cs) = p.updates bs ++ (p.observed bs).updates cs := by
  simp [observed,updates,Tracker.observeAll_append]

theorem observed_singleton (p : Poller S C) (b : BlockRef) :
    (observe b : Method S C TrackerUpdate).run p =
      .ok (p.tracker.observe b).2 (p.observed [b]) := rfl

end Observed

variable {C : Type}

theorem fetch_headNumber (p : Poller Node C) :
    (fetch BlockSource.headNumber : Method Node C ℕ).run p = .ok p.source.head p := rfl

theorem fetch_blockRef {p : Poller Node C} {n : ℕ} (h : n ≤ p.source.chain.height) :
    (fetch (BlockSource.blockRef n) : Method Node C (BlockAt n)).run p =
      .ok ⟨p.source.chain.block n,p.source.chain.number_block n h⟩ p := by
  simp [fetch,EStateM.run,BlockSource.blockRef,h]

theorem fetch_transfers (p : Poller Node C) (first last : ℕ) :
    (fetch (BlockSource.transfers first last) : Method Node C (List ChainEvent)).run p =
      .ok ((p.source.chain.segment first last).flatMap p.source.events) p := rfl

theorem walk_run (p : Poller Node C) {n m : ℕ} (tip : BlockAt n) (hn : n ≤ m)
    (hm : m ≤ p.source.chain.height) (htip : tip.val = p.source.chain.block n) :
    (walk n tip (p.source.chain.segment n m) : Method Node C (List BlockRef)).run p =
      .ok (p.source.chain.segment (p.tracker.fork p.source.chain n) m) p := by
  induction n with
  | zero => rfl
  | succ n ih =>
    simp only [walk,EStateM.run_bind,EStateM.run_get,Tracker.fork]
    cases hat : p.tracker.blockAt n with
    | none => rfl
    | some known =>
      by_cases hk : known.hash = tip.val.parentHash
      · rw [htip] at hk
        simp [hk,htip]
      · have hrec := ih ⟨p.source.chain.block n,p.source.chain.number_block n (by omega)⟩
          (by omega) rfl
        rw [Chain.segment_cons (by omega) hm] at hrec
        have hfetch := fetch_blockRef (p:=p) (n:=n) (by omega)
        simp only [hk,if_false,EStateM.run_bind,hfetch]
        rw [htip] at hk
        simpa only [hk,if_false] using hrec

theorem handOver_run (p : Poller Node C) (b : BlockRef) (msgs : List IndexerMessage) :
    (handOver b msgs : Method Node C (List IndexerMessage)).run p =
      .ok (msgs ++ p.source.messages (p.tracker.observe b).2) (p.observed [b]) := by
  simp only [handOver,EStateM.run_bind,observed_singleton,Node.messages,Node.confirmedEvents]
  cases confirmedRange (p.tracker.observe b).2 with
  | none => simp
  | some r =>
    simp only [EStateM.run_bind,fetch_transfers,EStateM.run_pure,List.append_assoc]
    rfl

theorem handOverAll_run (p : Poller Node C) (bs : List BlockRef) (msgs : List IndexerMessage) :
    (handOverAll bs msgs : Method Node C (List IndexerMessage)).run p =
      .ok (msgs ++ (p.updates bs).flatMap p.source.messages) (p.observed bs) := by
  induction bs generalizing p msgs with
  | nil => simp [handOverAll,updates,observed]
  | cons b bs ih =>
    have hih := ih (p.observed [b]) (msgs ++ p.source.messages (p.tracker.observe b).2)
    simp only [handOverAll,EStateM.run_bind,handOver_run,hih,← observed_append,
      List.singleton_append]
    congr 1
    simp [updates,observed]

theorem feed_eq {S : Type} [BlockSource S] {b : BlockRef} {n : ℕ} (h : b.number = n)
    (msgs : List IndexerMessage) : (feed b msgs : Method S C (List IndexerMessage)) =
      walk n ⟨b,h⟩ [b] >>= fun branch => handOverAll branch msgs := by
  subst h
  rfl

theorem feed_run (p : Poller Node C) {n : ℕ} (hn : n ≤ p.source.chain.height)
    (msgs : List IndexerMessage) :
    (feed (p.source.chain.block n) msgs : Method Node C (List IndexerMessage)).run p =
      .ok (msgs ++ (p.updates (p.source.chain.segment (p.tracker.fork p.source.chain n) n)).flatMap
          p.source.messages)
        (p.observed (p.source.chain.segment (p.tracker.fork p.source.chain n) n)) := by
  have hnum := p.source.chain.number_block n hn
  have hwalk := walk_run p ⟨p.source.chain.block n,hnum⟩ (le_refl n) hn rfl
  have hone : p.source.chain.segment n n = [p.source.chain.block n] := by
    rw [Chain.segment_cons (le_refl n) hn,Chain.segment_nil (Nat.lt_succ_self n)]
  rw [hone] at hwalk
  rw [feed_eq hnum,EStateM.run_bind,hwalk]
  exact handOverAll_run _ _ _

/-- A catch-up loop over a still node observes one segment: only its first block can
meet a fork. -/
theorem feedNumbers_run (p : Poller Node C) (first : ℕ) {k : ℕ} (hs : p.tracker.Sound)
    (hk : first+k ≤ p.source.chain.height) (msgs : List IndexerMessage) :
    (feedNumbers (List.range' first (k+1)) msgs : Method Node C (List IndexerMessage)).run p =
      .ok (msgs ++ (p.updates (p.source.chain.segment (p.tracker.fork p.source.chain first)
          (first+k))).flatMap p.source.messages)
        (p.observed (p.source.chain.segment (p.tracker.fork p.source.chain first) (first+k))) := by
  induction k generalizing p first msgs with
  | zero =>
    have hfetch := fetch_blockRef (p:=p) (n:=first) (by omega)
    have hfeed := feed_run p (n:=first) (by omega) msgs
    simp only [Nat.zero_add,List.range'_one,feedNumbers,EStateM.run_bind,hfetch,hfeed,
      EStateM.run_pure,Nat.add_zero]
  | succ k ih =>
    have hfork := p.tracker.fork_le p.source.chain first
    have hfetch := fetch_blockRef (p:=p) (n:=first) (by omega)
    have hfeed := feed_run p (n:=first) (by omega) msgs
    obtain ⟨l,hl⟩ := Chain.exists_segment_concat hfork (show first ≤ p.source.chain.height by omega)
    let seg := p.source.chain.segment (p.tracker.fork p.source.chain first) first
    have hnext : (p.observed seg).tracker.Sound :=
      hs.observeAll fun b hb => Tracker.segment_below hb
    have hhead : (p.observed seg).tracker.head = some (p.source.chain.block first) := by
      change (Tracker.observeAll p.tracker (p.source.chain.segment _ first)).1.head = _
      rw [hl]
      exact Tracker.observeAll_head _ _ _
    have hstop := hnext.fork_of_head (c:=p.source.chain) (n:=first) (by omega) hhead
    have hbound : first+1+k ≤ (p.observed seg).source.chain.height := by
      change first+1+k ≤ p.source.chain.height
      omega
    have hrec := ih (p.observed seg) (first+1) hnext hbound (msgs ++ (p.updates seg).flatMap p.source.messages)
    have hjoin : seg ++ p.source.chain.segment (first+1) (first+1+k) =
        p.source.chain.segment (p.tracker.fork p.source.chain first) (first+(k+1)) := by
      rw [show first+(k+1) = first+1+k by omega]
      exact Chain.segment_append (by omega) (by omega) (by omega)
    rw [List.range'_succ]
    simp only [feedNumbers,EStateM.run_bind,hfetch,hfeed]
    change (feedNumbers (List.range' (first+1) (k+1)) _ : Method Node C _).run (p.observed seg) = _
    rw [hrec]
    change EStateM.Result.ok (_ ++ ((p.observed seg).updates (p.source.chain.segment
      ((p.observed seg).tracker.fork p.source.chain (first+1)) (first+1+k))).flatMap _)
      ((p.observed seg).observed (p.source.chain.segment
      ((p.observed seg).tracker.fork p.source.chain (first+1)) (first+1+k))) = _
    rw [hstop,← observed_append,← hjoin,updates_append,List.flatMap_append,List.append_assoc]
    rfl

/-- Whatever branch it takes, `advance` over a still node observes one segment. -/
theorem collect_run (p : Poller Node C) (hs : p.tracker.Sound) :
    (collect : Method Node C (List IndexerMessage)).run p =
      .ok ((p.updates (p.tracker.plan p.source p.startBlock)).flatMap p.source.messages)
        (p.observed (p.tracker.plan p.source p.startBlock)) := by
  have hle := p.source.head_le
  simp only [collect,EStateM.run_bind,fetch_headNumber,EStateM.run_get,Tracker.plan]
  cases hhead : p.tracker.head with
  | none =>
    simp only [Option.map_none]
    by_cases hstart : p.startBlock ≤ p.source.head
    · have hidle := Tracker.fork_of_idle p.source.chain hhead p.startBlock
      have hrun := feedNumbers_run p p.startBlock (k:=p.source.head-p.startBlock) hs (by omega) []
      rw [hidle,show p.startBlock+(p.source.head-p.startBlock) = p.source.head by omega,
        show p.source.head-p.startBlock+1 = p.source.head+1-p.startBlock by omega] at hrun
      simpa using hrun
    · rw [show p.source.head+1-p.startBlock = 0 by omega,Chain.segment_nil (by omega)]
      simp [feedNumbers,updates,observed]
  | some top =>
    simp only [Option.map_some]
    by_cases hgrew : top.number < p.source.head
    · have hrun := feedNumbers_run p (top.number+1) (k:=p.source.head-top.number-1) hs
        (by omega) []
      rw [show top.number+1+(p.source.head-top.number-1) = p.source.head by omega,
        show p.source.head-top.number-1+1 = p.source.head-top.number by omega] at hrun
      simpa [hgrew] using hrun
    · have hfetch := fetch_blockRef (p:=p) (n:=p.source.head) hle
      simp only [hgrew,if_false,EStateM.run_bind,hfetch]
      split
      · simp [updates,observed]
      · simpa using feed_run p hle []

section Settle

variable [Checkpoint C]

/-- What a poll leaves behind over a still node whose checkpoint does not fail. -/
def settled (p : Poller Node C) (bs : List BlockRef) : Poller Node C :=
  match (p.observed bs).dueSave with
  | some height => { p.observed bs with
      checkpoint := (Checkpoint.save height p.checkpoint).2
      lastSaved := some height
      effects := p.effects ++ [.save height] }
  | none => p.observed bs

@[simp] theorem settled_tracker (p : Poller Node C) (bs : List BlockRef) :
    (p.settled bs).tracker = (Tracker.observeAll p.tracker bs).1 := by
  unfold settled
  split <;> rfl

@[simp] theorem settled_reports (p : Poller Node C) (bs : List BlockRef) :
    (p.settled bs).reports = p.reports ++ p.updates bs := by
  unfold settled
  split <;> rfl

@[simp] theorem settled_startBlock (p : Poller Node C) (bs : List BlockRef) :
    (p.settled bs).startBlock = p.startBlock := by
  unfold settled
  split <;> rfl

@[simp] theorem settled_source (p : Poller Node C) (bs : List BlockRef) :
    (p.settled bs).source = p.source := by
  unfold settled
  split <;> rfl

theorem save_run {S : Type} (hsave : ∀ height (c : C), (Checkpoint.save height c).1 = .ok ())
    (height : ℕ) (p : Poller S C) : (save height : Method S C Unit).run p =
      .ok () { p with
        checkpoint := (Checkpoint.save height p.checkpoint).2
        lastSaved := some height
        effects := p.effects ++ [.save height] } := by
  have hok := hsave height p.checkpoint
  cases hsv : Checkpoint.save height p.checkpoint with
  | mk res c =>
    rw [hsv] at hok
    simp only at hok
    subst hok
    simp [save,EStateM.run,hsv]

/-- `advance` over a still node succeeds, and hands down the messages of one segment. -/
theorem advance_run (p : Poller Node C) (hs : p.tracker.Sound)
    (hsave : ∀ height (c : C), (Checkpoint.save height c).1 = .ok ()) :
    (advance : Method Node C (List IndexerMessage)).run p =
      .ok ((p.updates (p.tracker.plan p.source p.startBlock)).flatMap p.source.messages)
        (p.settled (p.tracker.plan p.source p.startBlock)) := by
  simp only [advance,EStateM.run_bind,collect_run p hs,EStateM.run_get,settled]
  cases hdue : (p.observed (p.tracker.plan p.source p.startBlock)).dueSave with
  | none => rfl
  | some height =>
    simp only [EStateM.run_bind,save_run hsave,EStateM.run_pure]
    rfl

theorem poll_eq (p : Poller Node C) (hs : p.tracker.Sound)
    (hsave : ∀ height (c : C), (Checkpoint.save height c).1 = .ok ()) :
    p.poll = (p.settled (p.tracker.plan p.source p.startBlock),
      .ok ((p.updates (p.tracker.plan p.source p.startBlock)).flatMap p.source.messages)) := by
  rw [poll,advance_run p hs hsave]

/-- One poll of what the node has become by then. -/
def tick (p : Poller Node C) (s : Node) :
    Poller Node C × Except PollerError (List IndexerMessage) :=
  poll { p with source := s }

theorem tick_eq (p : Poller Node C) (s : Node) (hs : p.tracker.Sound)
    (hsave : ∀ height (c : C), (Checkpoint.save height c).1 = .ok ()) :
    p.tick s = (settled { p with source := s } (p.tracker.plan s p.startBlock),
      .ok ((updates { p with source := s } (p.tracker.plan s p.startBlock)).flatMap s.messages)) :=
  poll_eq { p with source := s } hs hsave

end Settle

/-- The poller of the tests, over a cold in-memory checkpoint. -/
def cold (source : Node) (confirmations window : ℕ) (h : confirmations < window)
    (startBlock : ℕ) : Poller Node InMemoryCheckpoint :=
  ⟨source,⟨none⟩,Tracker.fresh confirmations window h,startBlock,none,[],[]⟩

theorem settled_height {p : Poller Node InMemoryCheckpoint} (h : p.lastSaved = p.checkpoint.height)
    (bs : List BlockRef) :
    (p.settled bs).lastSaved = (p.settled bs).checkpoint.height ∧
      (p.settled bs).checkpoint.height =
        ((p.observed bs).tracker.confirmedHeight <|> p.checkpoint.height) := by
  simp only [settled,dueSave]
  cases hw : (p.observed bs).tracker.confirmedHeight with
  | none => exact ⟨h,rfl⟩
  | some w =>
    by_cases hlast : (p.observed bs).lastSaved = some w
    · simp only [hlast,ne_eq,not_true_eq_false,if_false]
      have hstored : p.checkpoint.height = some w := h.symm.trans hlast
      exact ⟨hstored.symm,hstored⟩
    · simp only [hlast,ne_eq,not_false_eq_true,if_true]
      exact ⟨rfl,rfl⟩

theorem save_inMemory (height : ℕ) (c : InMemoryCheckpoint) :
    (Checkpoint.save height c).1 = .ok () := rfl

end Poller
end Fintrails
