import Fintrails.Poller
import Fintrails.Machine

/-! The methods of the poller over two sources.  They reach the source through its calls alone,
so a relation between computations that respects binding, and holds of each call and of
`observe`, holds of everything `advance` does before it persists. -/
namespace Fintrails
namespace Poller

variable {S S' C C' α β : Type}

section Methods

variable [BlockSource S] [BlockSource S']

/-- `Rel` relates a computation from a poller over the one source to a computation from a poller
over the other, where `At` relates the two pollers. -/
structure Relates (At : Poller S C → Poller S' C' → Prop)
    (Rel : ∀ {α : Type}, Poller S C → Poller S' C' → Method S C α → Method S' C' α → Prop) :
    Prop where
  same : ∀ {p p'}, At p p' → p'.tracker = p.tracker ∧ p'.startBlock = p.startBlock
  pure : ∀ {α p p'} (a : α), At p p' → Rel p p' (pure a) (pure a)
  bind : ∀ {α β p p'} {x : Method S C α} {x' : Method S' C' α} {f : α → Method S C β}
    {f' : α → Method S' C' β}, Rel p p' x x' → (∀ a q q', At q q' → Rel q q' (f a) (f' a)) →
      Rel p p' (x >>= f) (x' >>= f')
  get : ∀ {β p p'} {f : Poller S C → Method S C β} {f' : Poller S' C' → Method S' C' β},
    Rel p p' (f p) (f' p') → Rel p p' (get >>= f) (get >>= f')
  headNumber : ∀ {p p'}, At p p' →
    Rel p p' (fetch BlockSource.headNumber) (fetch BlockSource.headNumber)
  blockRef : ∀ {p p'} n, At p p' →
    Rel p p' (fetch (BlockSource.blockRef n)) (fetch (BlockSource.blockRef n))
  transfers : ∀ {p p'} first last, At p p' →
    Rel p p' (fetch (BlockSource.transfers first last)) (fetch (BlockSource.transfers first last))
  observe : ∀ {p p'} b, At p p' → Rel p p' (observe b) (observe b)

namespace Relates

variable {At : Poller S C → Poller S' C' → Prop}
  {Rel : ∀ {α : Type}, Poller S C → Poller S' C' → Method S C α → Method S' C' α → Prop}
  {p : Poller S C} {p' : Poller S' C'}

theorem walk (h : Relates At Rel) (hp : At p p') (n : ℕ) (tip : BlockAt n)
    (branch : List BlockRef) : Rel p p' (walk n tip branch) (walk n tip branch) := by
  induction n generalizing p p' branch with
  | zero => exact h.pure branch hp
  | succ n ih =>
    refine h.get ?_
    rw [(h.same hp).1]
    cases p.tracker.blockAt n with
    | none => exact h.pure branch hp
    | some known =>
      by_cases hk : known.hash = tip.val.parentHash
      · simp only [hk,if_true]
        exact h.pure branch hp
      · simp only [hk,if_false]
        exact h.bind (h.blockRef n hp) fun parent _ _ hq => ih hq parent _

theorem handOver (h : Relates At Rel) (hp : At p p') (b : BlockRef) (msgs : List IndexerMessage) :
    Rel p p' (handOver b msgs) (handOver b msgs) := by
  refine h.bind (h.observe b hp) fun u _ _ hq => ?_
  cases confirmedRange u with
  | none => exact h.pure _ hq
  | some range =>
    exact h.bind (h.transfers range.1 range.2 hq) fun _ _ _ hr => h.pure _ hr

theorem handOverAll (h : Relates At Rel) (hp : At p p') (bs : List BlockRef)
    (msgs : List IndexerMessage) : Rel p p' (handOverAll bs msgs) (handOverAll bs msgs) := by
  induction bs generalizing p p' msgs with
  | nil => exact h.pure msgs hp
  | cons b bs ih => exact h.bind (h.handOver hp b msgs) fun msgs' _ _ hq => ih hq msgs'

theorem feed (h : Relates At Rel) (hp : At p p') (b : BlockRef) (msgs : List IndexerMessage) :
    Rel p p' (feed b msgs) (feed b msgs) :=
  h.bind (h.walk hp b.number ⟨b,rfl⟩ [b]) fun branch _ _ hq => h.handOverAll hq branch msgs

theorem feedNumbers (h : Relates At Rel) (hp : At p p') (ns : List ℕ)
    (msgs : List IndexerMessage) : Rel p p' (feedNumbers ns msgs) (feedNumbers ns msgs) := by
  induction ns generalizing p p' msgs with
  | nil => exact h.pure msgs hp
  | cons n ns ih =>
    exact h.bind (h.blockRef n hp) fun b _ _ hq =>
      h.bind (h.feed hq b.val msgs) fun msgs' _ _ hr => ih hr msgs'

theorem collect (h : Relates At Rel) (hp : At p p') : Rel p p' collect collect := by
  refine h.bind (h.headNumber hp) fun headNum q q' hq => h.get ?_
  rw [(h.same hq).1,(h.same hq).2]
  cases q.tracker.head.map BlockRef.number with
  | none => exact h.feedNumbers hq _ []
  | some th =>
    by_cases hgrew : th < headNum
    · simp only [hgrew,if_true]
      exact h.feedNumbers hq _ []
    · simp only [hgrew,if_false]
      refine h.bind (h.blockRef headNum hq) fun b _ _ hr => ?_
      by_cases hsame : (q.tracker.blockAt headNum).any (fun known => known.hash == b.val.hash) = true
      · simp only [hsame,if_true]
        exact h.pure [] hr
      · simp only [hsame]
        exact h.feed hr b.val []

end Relates
end Methods

def withSource (p : Poller S C) (s' : S') : Poller S' C :=
  ⟨s',p.checkpoint,p.tracker,p.startBlock,p.lastSaved,p.reports,p.effects⟩

/-- The two pollers differ in their sources alone, and these are related. -/
def Beside (R : S → S' → Prop) (p : Poller S C) (p' : Poller S' C) : Prop :=
  ∃ s', p' = p.withSource s' ∧ R p.source s'

inductive Agrees (R : S → S' → Prop) : EStateM.Result PollerError (Poller S C) α →
    EStateM.Result PollerError (Poller S' C) α → Prop
  | ok (a : α) {q : Poller S C} {s' : S'} (h : R q.source s') :
    Agrees R (.ok a q) (.ok a (q.withSource s'))
  | error (e : PollerError) {q : Poller S C} {s' : S'} (h : R q.source s') :
    Agrees R (.error e q) (.error e (q.withSource s'))

section Rules

variable {R : S → S' → Prop} {p : Poller S C} {p' : Poller S' C}

theorem agrees_pure (a : α) (hp : Beside R p p') :
    Agrees R ((pure a : Method S C α).run p) ((pure a : Method S' C α).run p') := by
  obtain ⟨s',rfl,hs⟩ := hp
  exact .ok a hs

theorem Agrees.bind {x : Method S C α} {x' : Method S' C α} {f : α → Method S C β}
    {f' : α → Method S' C β} (h : Agrees R (x.run p) (x'.run p'))
    (hf : ∀ a q q', Beside R q q' → Agrees R ((f a).run q) ((f' a).run q')) :
    Agrees R ((x >>= f).run p) ((x' >>= f').run p') := by
  rw [EStateM.run_bind,EStateM.run_bind]
  generalize x.run p = r,x'.run p' = r' at h
  cases h with
  | ok a hs => exact hf a _ _ ⟨_,rfl,hs⟩
  | error e hs => exact .error e hs

theorem agrees_fetch {call : S → Except SourceError α × S}
    {call' : S' → Except SourceError α × S'} (hp : Beside R p p')
    (hcall : ∀ {s s'}, R s s' → (call' s').1 = (call s).1 ∧ R (call s).2 (call' s').2) :
    Agrees R ((fetch call : Method S C α).run p) ((fetch call' : Method S' C α).run p') := by
  obtain ⟨s',rfl,hs⟩ := hp
  obtain ⟨hanswer,hnext⟩ := hcall hs
  simp only [fetch,EStateM.run,withSource]
  generalize call p.source = r,call' s' = r' at hanswer hnext ⊢
  obtain ⟨answer,t⟩ := r
  obtain ⟨answer',t'⟩ := r'
  obtain rfl : answer' = answer := hanswer
  cases answer' with
  | error e => exact .error _ hnext
  | ok a => exact .ok a hnext

theorem agrees_observe (b : BlockRef) (hp : Beside R p p') :
    Agrees R ((observe b : Method S C _).run p) ((observe b : Method S' C _).run p') := by
  obtain ⟨s',rfl,hs⟩ := hp
  exact .ok _ hs

theorem agrees_save [Checkpoint C] (height : ℕ) (hp : Beside R p p') :
    Agrees R ((save height : Method S C Unit).run p) ((save height : Method S' C Unit).run p') := by
  obtain ⟨s',rfl,hs⟩ := hp
  simp only [save,EStateM.run,withSource]
  rcases Checkpoint.save height p.checkpoint with ⟨e | u,c⟩
  · exact .error _ hs
  · exact .ok u hs

end Rules

variable [BlockSource S] [BlockSource S']

/-- Sources in related states answer every call alike, and are left in related states. -/
structure Alike (R : S → S' → Prop) : Prop where
  headNumber : ∀ {s s'}, R s s' →
    (BlockSource.headNumber s').1 = (BlockSource.headNumber s).1 ∧
      R (BlockSource.headNumber s).2 (BlockSource.headNumber s').2
  blockRef : ∀ n {s s'}, R s s' →
    (BlockSource.blockRef n s').1 = (BlockSource.blockRef n s).1 ∧
      R (BlockSource.blockRef n s).2 (BlockSource.blockRef n s').2
  transfers : ∀ first last {s s'}, R s s' →
    (BlockSource.transfers first last s').1 = (BlockSource.transfers first last s).1 ∧
      R (BlockSource.transfers first last s).2 (BlockSource.transfers first last s').2

/-- Sources that answer alike cannot be told apart by the methods of the poller. -/
theorem Alike.relates {R : S → S' → Prop} (h : Alike R) : Relates (C:=C) (Beside R)
    fun p p' x x' => Agrees R (x.run p) (x'.run p') where
  same := by
    rintro p _ ⟨s',rfl,_⟩
    exact ⟨rfl,rfl⟩
  pure a hp := agrees_pure a hp
  bind := Agrees.bind
  get hf := hf
  headNumber hp := agrees_fetch hp h.headNumber
  blockRef n hp := agrees_fetch hp (h.blockRef n)
  transfers first last hp := agrees_fetch hp (h.transfers first last)
  observe b hp := agrees_observe b hp

section Polls

variable [Checkpoint C] {R : S → S' → Prop} {p : Poller S C} {p' : Poller S' C}

theorem advance_alike (h : Alike R) (hp : Beside R p p') :
    Agrees R ((advance : Method S C _).run p) ((advance : Method S' C _).run p') := by
  refine (h.relates.collect hp).bind fun msgs q q' hq => h.relates.get ?_
  have hdue : q'.dueSave = q.dueSave := by
    obtain ⟨s',rfl,_⟩ := hq
    rfl
  rw [hdue]
  cases q.dueSave with
  | none => exact agrees_pure msgs hq
  | some height => exact (agrees_save height hq).bind fun _ r r' hr => agrees_pure msgs hr

theorem poll_alike (h : Alike R) (hp : Beside R p p') :
    (poll p).2 = (poll p').2 ∧ Beside R (poll p).1 (poll p').1 := by
  have hadvance := advance_alike h hp
  simp only [poll]
  generalize EStateM.run advance p = r,EStateM.run advance p' = r' at hadvance
  cases hadvance with
  | ok msgs hs => exact ⟨rfl,_,rfl,hs⟩
  | error e hs => exact ⟨rfl,_,rfl,hs⟩

end Polls
end Poller
end Fintrails
