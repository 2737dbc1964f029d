import Fintrails.FailingRounds
import Fintrails.Restarts
import Fintrails.RunLoop

/-! Processes that come to an end in any way: a call of the source or a save fails, the
consumer drops its receiver, or the process is stopped between two rounds.  Each takes up at
the height the ones before it have persisted.  Over one chain all of them together repeat
nothing, and miss nothing but what a consumer did not take of the round in which it was
dropped. -/
namespace Fintrails

/-- A checkpoint that stores so many heights more, and then fails. -/
structure FailingCheckpoint where
  height : Option ℕ
  answers : ℕ
  deriving DecidableEq, Repr

instance : Checkpoint FailingCheckpoint where
  load c := .ok c.height
  save height c :=
    match c.answers with
    | 0 => (.error (.store "unavailable"),c)
    | answers+1 => (.ok (),⟨some height,answers⟩)

/-- What a process meets with: what the node is in each round and how many calls it answers in
it, how many saves succeed, and how much the consumer takes. -/
structure Process where
  rounds : List FailingNode
  saves : ℕ
  consumer : Receiver

namespace Poller

/-- How a process ends, what it has sent, and the height it leaves persisted. -/
structure Life where
  ending : Option Receiver ⊕ PollerError
  sent : List IndexerMessage
  height : Option ℕ

def life (confirmations window : ℕ) (h : confirmations < window) (startBlock : ℕ)
    (source : FailingNode) (height : Option ℕ) (x : Process) : Life :=
  match resume source (FailingCheckpoint.mk height x.saves)
    (Tracker.fresh confirmations window h) startBlock with
  | .error e => ⟨.inr e,[],height⟩
  | .ok p =>
    let r := ended ((run (x.rounds.map fun s _ => s) x.consumer).run p)
    ⟨r.1,sentOf r.2.effects,r.2.checkpoint.height⟩

/-- `K` tells what a checkpoint has stored: a save that succeeds stores the height it is given, one
that fails stores nothing. -/
structure Stores {C : Type} [Checkpoint C] (K : C → Option ℕ → Prop) : Prop where
  saved : ∀ c c' stored height, K c stored → Checkpoint.save height c = (.ok (),c') →
    K c' (some height)
  failed : ∀ c c' stored height e, K c stored → Checkpoint.save height c = (.error e,c') → K c' stored

theorem stores_failing : Stores fun (c : FailingCheckpoint) stored => c.height = stored where
  saved := by
    rintro ⟨_,_ | _⟩ _ _ _ - hsave <;> cases hsave
    rfl
  failed := by
    rintro ⟨_,_ | _⟩ _ _ _ _ rfl hsave <;> cases hsave
    rfl

/-- The poller over calls that may fail stands where the one over calls that do not stands. -/
structure Shadows {C : Type} (K : C → Option ℕ → Prop) (p : Poller FailingNode C)
    (m : Poller Node InMemoryCheckpoint) : Prop where
  tracker : p.tracker = m.tracker
  startBlock : p.startBlock = m.startBlock
  lastSaved : p.lastSaved = m.lastSaved
  stored : K p.checkpoint m.checkpoint.height

section Shadowed

variable {C : Type} [Checkpoint C] {K : C → Option ℕ → Prop}

/-- A poll that succeeds does what it does when nothing can fail; one that fails has persisted
nothing. -/
theorem Shadows.poll (hK : Stores K) {p : Poller FailingNode C} {m : Poller Node InMemoryCheckpoint}
    (h : Shadows K p m) (hs : m.tracker.Sound) (s : FailingNode) :
    (∃ msgs p', pollAfter p (fun _ => s) = (p',.ok msgs) ∧ (m.tick s.node).2 = .ok msgs ∧
      Shadows K p' (m.tick s.node).1) ∨
    ∃ e p', pollAfter p (fun _ => s) = (p',.error e) ∧ K p'.checkpoint m.checkpoint.height := by
  obtain ⟨source,checkpoint,tracker,start,lastSaved,reports,effects⟩ := p
  obtain ⟨htracker,hstart,hlast,hstored⟩ := h
  obtain rfl : tracker = m.tracker := htracker
  obtain rfl : start = m.startBlock := hstart
  obtain rfl : lastSaved = m.lastSaved := hlast
  obtain ⟨node,answers⟩ := s
  -- the same poller over a node that answers every call
  have hcollect := collect_run (C:=C)
    ⟨node,checkpoint,m.tracker,m.startBlock,m.lastSaved,reports,effects⟩ hs
  obtain ⟨new,hnew,heffects,hcases⟩ := cutsShort_collect _ answers _ _ hcollect
  rcases hcases with ⟨answers',hok⟩ | ⟨e,r,herror,-,-⟩
  · have htick := tick_eq m node hs save_inMemory
    have hdue : dueSave (failing (observed (Poller.mk node checkpoint m.tracker m.startBlock
          m.lastSaved reports effects) (m.tracker.plan node m.startBlock)) answers') =
        (observed { m with source := node } (m.tracker.plan node m.startBlock)).dueSave := rfl
    rw [htick]
    simp only [settled]
    cases hsave : (observed { m with source := node } (m.tracker.plan node m.startBlock)).dueSave with
    | none =>
      exact .inl ⟨_,_,poll_of_unsaved hok (hdue.trans hsave),rfl,rfl,rfl,rfl,hstored⟩
    | some height =>
      rcases hanswer : Checkpoint.save height checkpoint with ⟨e | ⟨⟩,c⟩
      · exact .inr ⟨_,_,poll_of_save_error hok (hdue.trans hsave) hanswer,
          hK.failed _ _ _ _ _ hstored hanswer⟩
      · exact .inl ⟨_,_,poll_of_saved hok (hdue.trans hsave) hanswer,rfl,rfl,rfl,rfl,
          hK.saved _ _ _ _ hstored hanswer⟩
  · right
    have hkept := collect_error herror
    refine ⟨e,r,poll_of_error herror,?_⟩
    rw [hkept]
    exact hstored

theorem tick_sound {m : Poller Node InMemoryCheckpoint} (hs : m.tracker.Sound) (s : Node) :
    (m.tick s).1.tracker.Sound := by
  rw [tick_eq m s hs save_inMemory,settled_tracker]
  exact hs.plan_sound s m.startBlock

/-- However it ends, a call of `run` leaves persisted what some of its rounds leave persisted
when nothing can fail, and has sent what they return, up to what the consumer did not take
of the last. -/
theorem Shadows.run (hK : Stores K) {p : Poller FailingNode C} {m : Poller Node InMemoryCheckpoint}
    (h : Shadows K p m) (hs : m.tracker.Sound) (rounds : List FailingNode) (rx : Receiver) :
    ∃ done unread, done <+: rounds.map FailingNode.node ∧
      K (ended ((run (rounds.map fun s _ => s) rx).run p)).2.checkpoint
        (Machine.final tick m done).checkpoint.height ∧
      sentOf (ended ((run (rounds.map fun s _ => s) rx).run p)).2.effects ++ unread =
        sentOf p.effects ++ returned (Machine.outputs tick m done) ∧
      ((ended ((run (rounds.map fun s _ => s) rx).run p)).1 ≠ .inl none → unread = []) := by
  induction rounds generalizing p m rx with
  | nil => exact ⟨[],[],List.prefix_rfl,h.stored,by simp [Poller.run,ended],fun _ => rfl⟩
  | cons s rounds ih =>
    have hsent := sentOf_pollAfter p fun _ => s
    rw [List.map_cons,List.map_cons]
    rcases h.poll hK hs s with ⟨msgs,p',hpoll,htick,hnext⟩ | ⟨e,p',hpoll,hstored⟩
    · rw [hpoll] at hsent
      have htrace : Machine.outputs tick m [s.node] = [.ok msgs] := by simp [htick]
      rw [run_cons_ok hpoll]
      cases hafter : rx.after msgs.length with
      | none =>
        obtain ⟨rest,hrest⟩ := rx.exists_accepted_append msgs
        refine ⟨[s.node],rest,List.prefix_append [s.node] _,hnext.stored,?_,
          fun hne => absurd rfl hne⟩
        rw [htrace]
        simp only [ended,sentOf_append,sentOf_sends,List.append_assoc,hrest]
        rw [hsent]
        simp [returned]
      | some rx' =>
        obtain ⟨done,unread,hdone,hheight,hmsgs,hunread⟩ := ih
          (p:={ p' with effects := p'.effects ++ (rx.accepted msgs).map .send })
          ⟨hnext.tracker,hnext.startBlock,hnext.lastSaved,hnext.stored⟩ (tick_sound hs s.node) rx'
        refine ⟨s.node::done,unread,List.cons_prefix_cons.mpr ⟨rfl,hdone⟩,hheight,?_,hunread⟩
        rw [hmsgs,sentOf_append,sentOf_sends,hsent,Machine.outputs_cons,htick,returned_cons,
          Receiver.accepted_of_after hafter,List.append_assoc]
    · rw [hpoll] at hsent
      rw [run_cons_error hpoll]
      refine ⟨[],[],List.nil_prefix,hstored,?_,fun _ => rfl⟩
      simpa [ended] using hsent

end Shadowed

section Lives

variable {c : Chain} {events : BlockRef → List ChainEvent} {confirmations window : ℕ}

def Process.nodes (x : Process) : List Node := x.rounds.map FailingNode.node

theorem life_session (h : confirmations < window) (startBlock : ℕ) (source : FailingNode)
    {height : Option ℕ} (hresumed : ∀ stored ∈ height, stored < 2^64-1) (x : Process) :
    ∃ done unread, done <+: Process.nodes x ∧
      (life confirmations window h startBlock source height x).height =
        (session confirmations window h startBlock source.node ⟨height⟩ done).1.height ∧
      (life confirmations window h startBlock source height x).sent ++ unread =
        (session confirmations window h startBlock source.node ⟨height⟩ done).2 ∧
      ((life confirmations window h startBlock source height x).ending ≠ .inl none →
        unread = []) := by
  have hload : Checkpoint.load (FailingCheckpoint.mk height x.saves) = .ok height := rfl
  have hlife := resume_eq source (Tracker.fresh confirmations window h) startBlock hload hresumed
  obtain ⟨done,unread,hdone,hstored,hmsgs,hunread⟩ := Shadows.run stores_failing
    (p:=⟨source,⟨height,x.saves⟩,Tracker.fresh confirmations window h,
      effectiveStart startBlock height,height,[],[]⟩)
    (m:=⟨source.node,⟨height⟩,Tracker.fresh confirmations window h,
      effectiveStart startBlock height,height,[],[]⟩)
    ⟨rfl,rfl,rfl,rfl⟩ (Tracker.fresh_sound _ _ _) x.rounds x.consumer
  refine ⟨done,unread,hdone,?_,?_,?_⟩
  · rw [session_eq h startBlock source.node hresumed done rfl]
    simp only [life,hlife]
    exact hstored
  · rw [session_eq h startBlock source.node hresumed done rfl]
    simp only [life,hlife]
    exact hmsgs
  · simp only [life,hlife]
    exact hunread

def nextLife (confirmations window : ℕ) (h : confirmations < window) (startBlock : ℕ)
    (source : FailingNode) (height : Option ℕ) (x : Process) : Option ℕ × Life :=
  ((life confirmations window h startBlock source height x).height,
    life confirmations window h startBlock source height x)

/-- One process after another. -/
def lives (confirmations window : ℕ) (h : confirmations < window) (startBlock : ℕ)
    (source : FailingNode) (height : Option ℕ) (xs : List Process) : List Life :=
  Machine.outputs (nextLife confirmations window h startBlock source) height xs

def leaves (confirmations window : ℕ) (h : confirmations < window) (startBlock : ℕ)
    (source : FailingNode) (height : Option ℕ) (xs : List Process) : Option ℕ :=
  Machine.final (nextLife confirmations window h startBlock source) height xs

/-- `unread` tells for each process what its consumer did not take: nothing, unless it dropped
its receiver. -/
structure Unread (ls : List Life) (unread : List (List IndexerMessage)) : Prop where
  length_eq : unread.length = ls.length
  nothing : ∀ x ∈ ls.zip unread, x.1.ending ≠ .inl none → x.2 = []

/-- What the processes have sent, with what was not taken put back where it is missing. -/
def restored (ls : List Life) (unread : List (List IndexerMessage)) : List IndexerMessage :=
  (List.zipWith (fun l rest => l.sent ++ rest) ls unread).flatten

@[simp] theorem restored_nil (unread : List (List IndexerMessage)) : restored [] unread = [] := rfl

@[simp] theorem restored_cons (l : Life) (ls : List Life) (rest : List IndexerMessage)
    (unread : List (List IndexerMessage)) :
    restored (l::ls) (rest::unread) = l.sent ++ rest ++ restored ls unread := rfl

theorem restored_of_stays {ls : List Life} {unread : List (List IndexerMessage)}
    (h : Unread ls unread) (hstays : ∀ l ∈ ls, l.ending ≠ .inl none) :
    restored ls unread = ls.flatMap Life.sent := by
  obtain ⟨hlength,hnothing⟩ := h
  induction ls generalizing unread with
  | nil => simp
  | cons l ls ih =>
    obtain ⟨rest,unread,rfl⟩ := List.exists_cons_of_length_eq_add_one hlength
    have hempty : rest = [] := hnothing (l,rest) (by simp) (hstays l (by simp))
    have hothers := ih (fun x hx => hstays x (by simp [hx])) (by simpa using hlength)
      fun x hx => hnothing x (by simp [hx])
    rw [restored_cons,hothers,List.flatMap_cons,hempty,List.append_nil]

theorem sent_sublist_restored {ls : List Life} {unread : List (List IndexerMessage)}
    (h : unread.length = ls.length) : (ls.flatMap Life.sent).Sublist (restored ls unread) := by
  induction ls generalizing unread with
  | nil => exact List.nil_sublist _
  | cons l ls ih =>
    obtain ⟨rest,unread,rfl⟩ := List.exists_cons_of_length_eq_add_one h
    rw [List.flatMap_cons,restored_cons]
    exact (List.sublist_append_left _ _).append (ih (by simpa using h))

theorem Unread.cons {l : Life} {ls : List Life} {rest : List IndexerMessage}
    {unread : List (List IndexerMessage)} (h : l.ending ≠ .inl none → rest = [])
    (hs : Unread ls unread) : Unread (l::ls) (rest::unread) := by
  refine ⟨by simp [hs.length_eq],fun y hy => ?_⟩
  rw [List.zip_cons_cons] at hy
  rcases List.mem_cons.mp hy with rfl | hy
  · exact h
  · exact hs.nothing y hy

theorem Unread.concat {l : Life} {ls : List Life} {rest : List IndexerMessage}
    {unread : List (List IndexerMessage)} (hs : Unread ls unread)
    (h : l.ending ≠ .inl none → rest = []) :
    Unread (ls ++ [l]) (unread ++ [rest]) ∧
      restored (ls ++ [l]) (unread ++ [rest]) = restored ls unread ++ (l.sent ++ rest) := by
  refine ⟨⟨by simp [hs.length_eq],fun y hy => ?_⟩,?_⟩
  · rw [List.zip_append hs.length_eq.symm] at hy
    rcases List.mem_append.mp hy with hy | hy
    · exact hs.nothing y hy
    · obtain rfl := List.mem_singleton.mp hy
      exact h
  · rw [restored,List.zipWith_append hs.length_eq.symm,List.flatten_append]
    simp [restored]

/-- The next process starts at the configured floor or above. -/
def Life.KeepsFloor (startBlock : ℕ) (l : Life) : Prop :=
  startBlock ≤ effectiveStart startBlock l.height

instance keepsFloorDecidable (startBlock : ℕ) (l : Life) : Decidable (l.KeepsFloor startBlock) :=
  inferInstanceAs (Decidable (_ ≤ _))

theorem life_steady (h : confirmations < window) (startBlock : ℕ) (source : FailingNode)
    {x : Process} {later : List Node} {height : Option ℕ}
    (hnodes : ∀ s ∈ Process.nodes x, ServesChain c events s)
    (hmono : (Process.nodes x ++ later).Pairwise fun a b => a.head ≤ b.head)
    (hp : Persistent c confirmations height (Process.nodes x ++ later)) :
    let l := life confirmations window h startBlock source height x
    ∃ unread, (l.ending ≠ .inl none → unread = []) ∧ Persistent c confirmations l.height later ∧
      effectiveStart startBlock height ≤ max startBlock (effectiveStart startBlock l.height) ∧
      l.sent ++ unread = ((c.upTo (effectiveStart startBlock height)
        (effectiveStart startBlock l.height)).flatMap events).map .confirmed := by
  intro l
  have hresumed : ∀ stored ∈ height, stored < 2^64-1 := fun stored hs =>
    Nat.lt_of_le_of_lt (hp.below stored hs) c.height_lt
  obtain ⟨done,unread,hdone,hheight,hmsgs,hunread⟩ := life_session h startBlock source hresumed x
  have hsub := hdone.sublist.append_right later
  have hmono' := hmono.sublist hsub
  have hpersistent : Persistent c confirmations (InMemoryCheckpoint.mk height).height
      (done ++ later) := ⟨hp.below,fun stored hs s hmem => hp.ahead stored hs s (hsub.subset hmem)⟩
  obtain ⟨frontier,hran⟩ := @session_ran c events _ _ h startBlock source.node ⟨height⟩ hresumed _
    (fun s hs => hnodes s (hdone.subset hs)) (List.pairwise_append.mp hmono').1
  have hnext := hran.persistent hpersistent hmono'
  have hgrows := hran.grows hpersistent
  have hemitted := hran.emitted_upTo
  rw [← hheight] at hnext hgrows hemitted
  exact ⟨unread,hunread,hnext,hgrows,hmsgs.trans hemitted⟩

theorem lives_cons (h : confirmations < window) (startBlock : ℕ) (source : FailingNode)
    (height : Option ℕ) (x : Process) (xs : List Process) :
    lives confirmations window h startBlock source height (x::xs) =
      life confirmations window h startBlock source height x ::
        lives confirmations window h startBlock source
          (life confirmations window h startBlock source height x).height xs := rfl

theorem lives_steady (h : confirmations < window) {startBlock : ℕ} (source : FailingNode)
    {xs : List Process} {later : List Node} {height : Option ℕ}
    (hnodes : ∀ x ∈ xs, ∀ s ∈ Process.nodes x, ServesChain c events s)
    (hmono : (xs.flatMap Process.nodes ++ later).Pairwise fun a b => a.head ≤ b.head)
    (hfloor : ∀ l ∈ lives confirmations window h startBlock source height xs,
      l.KeepsFloor startBlock)
    (hp : Persistent c confirmations height (xs.flatMap Process.nodes ++ later)) :
    Persistent c confirmations
        (leaves confirmations window h startBlock source height xs) later ∧
      effectiveStart startBlock height ≤
        effectiveStart startBlock (leaves confirmations window h startBlock source height xs) ∧
      ∃ unread, Unread (lives confirmations window h startBlock source height xs) unread ∧
        restored (lives confirmations window h startBlock source height xs) unread =
          ((c.upTo (effectiveStart startBlock height) (effectiveStart startBlock
            (leaves confirmations window h startBlock source height xs))).flatMap events).map
              .confirmed := by
  induction xs generalizing height with
  | nil =>
    refine ⟨hp,le_refl _,[],⟨rfl,by simp [lives]⟩,?_⟩
    change [] = ((c.upTo _ (effectiveStart startBlock height)).flatMap events).map _
    rw [Chain.upTo_nil (le_refl _)]
    rfl
  | cons x xs ih =>
    rw [List.flatMap_cons,List.append_assoc] at hmono hp
    obtain ⟨unread,hunread,hnext,hgrows,hemitted⟩ :=
      life_steady h startBlock source (hnodes x (by simp)) hmono hp
    rw [lives_cons] at hfloor ⊢
    have hkept := hfloor _ List.mem_cons_self
    rw [max_eq_right hkept] at hgrows
    obtain ⟨hleft,hgrown,rest,hrest,hsteady⟩ := ih (fun y hy => hnodes y (by simp [hy]))
      (List.pairwise_append.mp hmono).2.1 (fun l hl => hfloor l (List.mem_cons_of_mem _ hl)) hnext
    refine ⟨hleft,hgrows.trans hgrown,unread::rest,hrest.cons hunread,?_⟩
    have hjoin := @Chain.upTo_append c (effectiveStart startBlock height) _ _
      (hgrown.trans (le_max_right _ _))
    rw [max_eq_right hgrows] at hjoin
    rw [restored_cons,hemitted,hsteady,← List.map_append,← List.flatMap_append,hjoin]
    rfl

theorem lives_concat (h : confirmations < window) (startBlock : ℕ) (source : FailingNode)
    (height : Option ℕ) (earlier : List Process) (last : Process) :
    let left := leaves confirmations window h startBlock source height earlier
    lives confirmations window h startBlock source height (earlier ++ [last]) =
        lives confirmations window h startBlock source height earlier ++
          [life confirmations window h startBlock source left last] ∧
      leaves confirmations window h startBlock source height (earlier ++ [last]) =
        (life confirmations window h startBlock source left last).height :=
  ⟨Machine.outputs_append _ _ _,Machine.final_append _ _ _⟩

/-- From a cold checkpoint: however many processes there are and however each of them ends, in
the middle of a poll, at a save, or between two rounds, together they emit the chain from the
configured floor up to the height left persisted, in order and each block once, but for what a
consumer that dropped its receiver did not take. -/
theorem interrupted_steady (confirmations window : ℕ) (h : confirmations < window)
    (startBlock : ℕ) (source : FailingNode) (xs : List Process)
    (hnodes : ∀ x ∈ xs, ∀ s ∈ Process.nodes x, ServesChain c events s)
    (hmono : (xs.flatMap Process.nodes).Pairwise fun a b => a.head ≤ b.head)
    (hfloor : ∀ l ∈ (lives confirmations window h startBlock source none xs).dropLast,
      l.KeepsFloor startBlock) :
    ∃ unread, Unread (lives confirmations window h startBlock source none xs) unread ∧
      Steady c events startBlock
        (restored (lives confirmations window h startBlock source none xs) unread) ∧
      restored (lives confirmations window h startBlock source none xs) unread =
        ((c.upTo startBlock (effectiveStart startBlock
          (leaves confirmations window h startBlock source none xs))).flatMap events).map
            .confirmed := by
  suffices hall : ∃ later, Persistent c confirmations
        (leaves confirmations window h startBlock source none xs) later ∧
      ∃ unread, Unread (lives confirmations window h startBlock source none xs) unread ∧
        restored (lives confirmations window h startBlock source none xs) unread =
          ((c.upTo startBlock (effectiveStart startBlock
            (leaves confirmations window h startBlock source none xs))).flatMap events).map
              .confirmed by
    obtain ⟨later,hleft,unread,hunread,hrestored⟩ := hall
    refine ⟨unread,hunread,?_,hrestored⟩
    rw [hrestored]
    rcases hleft.start_le startBlock with hle | hle
    · have hnothing := @steady_upTo c events startBlock 0 (Nat.zero_le _)
      rwa [Chain.upTo_nil (Nat.zero_le _),← Chain.upTo_nil hle] at hnothing
    · exact steady_upTo hle
  rcases List.eq_nil_or_concat' xs with rfl | ⟨earlier,last,rfl⟩
  · obtain ⟨hleft,-,hemitted⟩ := lives_steady h source hnodes (by simp) (by simp [lives])
      (persistent_cold c confirmations ([].flatMap Process.nodes ++ []))
    exact ⟨[],hleft,hemitted⟩
  · -- what the last process leaves persisted is held to no floor
    obtain ⟨hlives,hleaves⟩ := lives_concat h startBlock source none earlier last
    rw [hlives,List.dropLast_concat] at hfloor
    rw [List.flatMap_append,List.flatMap_singleton] at hmono
    obtain ⟨hleft,hgrown,rest,hrest,hemitted⟩ := lives_steady h source
      (fun x hx => hnodes x (by simp [hx])) hmono hfloor (persistent_cold c confirmations _)
    obtain ⟨unread,hunread,hnext,hgrows,hlast⟩ := life_steady h startBlock source
      (hnodes last (by simp)) (show (Process.nodes last ++ []).Pairwise _ by
        simpa using (List.pairwise_append.mp hmono).2.1) (by simpa using hleft)
    rw [← hleaves] at hnext hgrows hlast
    obtain ⟨hall,hrestored⟩ := hrest.concat hunread
    rw [← hlives] at hall hrestored
    refine ⟨[],hnext,_,hall,?_⟩
    have hcold : effectiveStart startBlock none = startBlock := rfl
    have hjoin := Chain.upTo_append (c:=c) hgrows
    rw [hcold] at hgrown hemitted
    rw [max_eq_right hgrown] at hjoin
    rw [hrestored,hemitted,hlast,← List.map_append,← List.flatMap_append,hjoin]

end Lives

/-- The first process fails at the transfers of block 1, the second loses its consumer in front
of the transfer of block 2, the third cannot persist, and the fourth goes on. -/
def interruptions : List Process :=
  [⟨[⟨World.linearAt 2 (by decide),5⟩],9,⟨none⟩⟩,⟨[⟨World.linearAt 3 (by decide),99⟩],9,⟨some 2⟩⟩,
    ⟨[⟨World.linearAt 4 (by decide),99⟩],0,⟨none⟩⟩,⟨[⟨World.linearAt 5 (by decide),99⟩],9,⟨none⟩⟩]

theorem interrupted_steady_four :
    ∃ unread, Unread (lives 1 3 (by decide) 0 ⟨World.linearAt 0 (by decide),0⟩ none interruptions)
        unread ∧
      restored (lives 1 3 (by decide) 0 ⟨World.linearAt 0 (by decide),0⟩ none interruptions) unread =
        (((Chain.linear 5 (by decide)).upTo 0 5).flatMap World.linear.events).map .confirmed := by
  have hleaves : effectiveStart 0 (leaves 1 3 (by decide) 0 ⟨World.linearAt 0 (by decide),0⟩ none
      interruptions) = 5 := by decide +kernel
  have hnodes : ∀ x ∈ interruptions, ∀ s ∈ Process.nodes x,
      ServesChain (.linear 5 (by decide)) World.linear.events s := by
    simp [interruptions,Process.nodes,ServesChain,World.linearAt]
  obtain ⟨unread,hunread,-,hemitted⟩ := interrupted_steady 1 3 (by decide) 0
    ⟨World.linearAt 0 (by decide),0⟩ interruptions hnodes (by decide +kernel) (by decide +kernel)
  rw [hleaves] at hemitted
  exact ⟨unread,hunread,hemitted⟩

end Poller
end Fintrails
