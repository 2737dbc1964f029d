import Fintrails.ShiftingWalk
import Fintrails.TwoSources

/-! The calls of a source as data.  A recording keeps what has been asked; a script says
in advance which calls will be asked, and which node answers each of them.  Whatever a poller
returns over a node that changes between the calls, it returns over the script of its calls. -/
namespace Fintrails

/-- One call of a source. -/
inductive Request
  | headNumber
  | blockRef (number : ℕ)
  | transfers (first last : ℕ)
  deriving DecidableEq, Repr

/-- A source, and every call that has been made of it. -/
structure Recording (S : Type) where
  source : S
  requests : List Request

namespace Recording

variable {S α : Type}

def record (request : Request) (call : S → Except SourceError α × S) (r : Recording S) :
    Except SourceError α × Recording S :=
  ((call r.source).1,⟨(call r.source).2,r.requests ++ [request]⟩)

def move (f : S → S) (r : Recording S) : Recording S := ⟨f r.source,r.requests⟩

instance [BlockSource S] : BlockSource (Recording S) where
  headNumber := record .headNumber BlockSource.headNumber
  blockRef number := record (.blockRef number) (BlockSource.blockRef number)
  transfers first last := record (.transfers first last) (BlockSource.transfers first last)

theorem alike [BlockSource S] : Poller.Alike fun (s : S) (r : Recording S) => r.source = s where
  headNumber := by
    rintro _ r rfl
    exact ⟨rfl,rfl⟩
  blockRef := by
    rintro n _ r rfl
    exact ⟨rfl,rfl⟩
  transfers := by
    rintro first last _ r rfl
    exact ⟨rfl,rfl⟩

end Recording

/-- A call, and the node as it is when it answers. -/
structure Exchange where
  request : Request
  node : Node

/-- A source that is going to be asked these calls, in this order, of nodes that may serve
any chain. -/
structure Scripted where
  calls : List Exchange

namespace Scripted

variable {α : Type} {request : Request} {call : Node → Except SourceError α × Node}

def answer (request : Request) (call : Node → Except SourceError α × Node) (s : Scripted) :
    Except SourceError α × Scripted :=
  match s.calls with
  | [] => (.error (.rpc "out of turn"),s)
  | x::rest =>
    if x.request = request then ((call x.node).1,⟨rest⟩) else (.error (.rpc "out of turn"),s)

instance : BlockSource Scripted where
  headNumber := answer .headNumber BlockSource.headNumber
  blockRef number := answer (.blockRef number) (BlockSource.blockRef number)
  transfers first last := answer (.transfers first last) (BlockSource.transfers first last)

theorem answer_ok {s : Scripted} {a : α} (h : (answer request call s).1 = .ok a) :
    ∃ x, s.calls = x::(answer request call s).2.calls ∧ x.request = request ∧
      (call x.node).1 = .ok a := by
  obtain ⟨calls⟩ := s
  cases calls with
  | nil => cases h
  | cons x rest =>
    by_cases hx : x.request = request
    · simp only [answer,hx,if_true] at h ⊢
      exact ⟨x,rfl,hx,h⟩
    · simp [answer,hx] at h

end Scripted

/-- The script of some requests to a node that changes, from its `calls`-th call on. -/
def ShiftingNode.script (nodes : ℕ → Node) : (calls : ℕ) → List Request → List Exchange
  | _, [] => []
  | calls, request::requests => ⟨request,nodes calls⟩ :: script nodes (calls+1) requests

namespace Poller

variable {C α β : Type}

def shadow (requests : List Request) (p : Poller (Recording ShiftingNode) C) : Poller Scripted C :=
  p.withSource ⟨ShiftingNode.script p.source.source.nodes p.source.source.calls
    (requests.drop p.source.requests.length)⟩

/-- Where `x` returns over the recording, and has asked what the script says, `y` returns the
same over the script. -/
def FollowsScript (requests : List Request) (p : Poller (Recording ShiftingNode) C)
    (p' : Poller Scripted C) (x : Method (Recording ShiftingNode) C α) (y : Method Scripted C α) :
    Prop :=
  ∀ a q, x.run p = .ok a q → p.source.requests <+: q.source.requests ∧
    (q.source.requests <+: requests → y.run p' = .ok a (q.shadow requests))

variable {requests : List Request} {p : Poller (Recording ShiftingNode) C} {p' : Poller Scripted C}

theorem FollowsScript.bind {x : Method (Recording ShiftingNode) C α} {y : Method Scripted C α}
    {f : α → Method (Recording ShiftingNode) C β} {g : α → Method Scripted C β}
    (h : FollowsScript requests p p' x y)
    (hf : ∀ a q q', q' = q.shadow requests → FollowsScript requests q q' (f a) (g a)) :
    FollowsScript requests p p' (x >>= f) (y >>= g) := by
  intro b r hrun
  obtain ⟨a,q,hx,hfa⟩ := bind_ok hrun
  obtain ⟨hfirst,hy⟩ := h a q hx
  obtain ⟨hrest,hg⟩ := hf a q _ rfl b r hfa
  refine ⟨hfirst.trans hrest,fun hall => ?_⟩
  rw [EStateM.run_bind,hy (hrest.trans hall)]
  exact hg hall

theorem followsScript_pure (a : α) (hp : p' = p.shadow requests) :
    FollowsScript requests p p' (pure a) (pure a) := by
  intro b q h
  obtain ⟨rfl,rfl⟩ := pure_ok h
  exact ⟨List.prefix_rfl,fun _ => by rw [hp]; rfl⟩

theorem followsScript_fetch (request : Request) {call : Node → Except SourceError α × Node}
    (hp : p' = p.shadow requests) :
    FollowsScript requests p p'
      (fetch (Recording.record request fun s : ShiftingNode => ((call s.current).1,s.answered)))
      (fetch (Scripted.answer request call)) := by
  intro a q h
  obtain ⟨hanswer,rfl⟩ := fetch_ok h
  refine ⟨List.prefix_append _ _,fun ⟨rest,hrest⟩ => ?_⟩
  change p.source.requests ++ [request] ++ rest = requests at hrest
  have hremain : requests.drop p.source.requests.length = request::rest := by
    simp [← hrest]
  have hnext : requests.drop (p.source.requests ++ [request]).length = rest := by
    rw [← hrest]
    exact List.drop_left
  have hsource : Scripted.answer request call p'.source = (.ok a,
      ⟨ShiftingNode.script p.source.source.nodes (p.source.source.calls+1) rest⟩) := by
    simp only [hp,shadow,withSource,hremain,ShiftingNode.script,Scripted.answer,if_true]
    exact congrArg (·,_) hanswer
  rw [fetch_of_ok (by rw [hsource]),hsource,hp]
  simp only [shadow,withSource,Recording.record,hnext]
  rfl

theorem relates_followsScript (requests : List Request) :
    Relates (C:=C) (fun p p' => p' = shadow requests p) (FollowsScript requests) where
  same := by
    rintro p _ rfl
    exact ⟨rfl,rfl⟩
  pure a hp := followsScript_pure a hp
  bind := FollowsScript.bind
  get h := h
  headNumber hp := followsScript_fetch .headNumber hp
  blockRef n hp := followsScript_fetch (.blockRef n) hp
  transfers first last hp := followsScript_fetch (.transfers first last) hp
  observe b hp := by
    intro u q h
    cases h
    exact ⟨List.prefix_rfl,fun _ => by rw [hp]; rfl⟩

section Advance

variable [Checkpoint C]

theorem followsScript_save (height : ℕ) (hp : p' = p.shadow requests) :
    FollowsScript requests p p' (save height) (save height) := by
  intro u q h
  subst hp
  rcases hsave : Checkpoint.save height p.checkpoint with ⟨e | ⟨⟩,c⟩
  · simp [save,EStateM.run,hsave] at h
  · simp only [save,EStateM.run,hsave,EStateM.Result.ok.injEq,true_and] at h
    subst h
    exact ⟨List.prefix_rfl,fun _ => by simp [save,EStateM.run,shadow,withSource,hsave]⟩

theorem followsScript_advance (hp : p' = p.shadow requests) :
    FollowsScript requests p p' advance advance := by
  have hrel := relates_followsScript (C:=C) requests
  refine FollowsScript.bind (hrel.collect hp) fun msgs q q' hq => hrel.get ?_
  have hdue : q'.dueSave = q.dueSave := by
    rw [hq]
    rfl
  rw [hdue]
  cases q.dueSave with
  | none => exact followsScript_pure msgs hq
  | some height =>
    exact (followsScript_save height hq).bind fun _ r r' hr => followsScript_pure msgs hr

/-- However a node changes between the calls, what `advance` returns over it is returned over a
script: the calls that were made, each with the node as it was. -/
theorem advance_scripted {p q : Poller ShiftingNode C} {msgs : List IndexerMessage}
    (h : advance.run p = .ok msgs q) : ∃ requests,
      advance.run (p.withSource (Scripted.mk
        (ShiftingNode.script p.source.nodes p.source.calls requests))) =
        .ok msgs (q.withSource (Scripted.mk [])) := by
  have hrecord := advance_alike (C:=C) Recording.alike
    ⟨Recording.mk p.source [],rfl,rfl⟩
  rw [h] at hrecord
  generalize hrun : advance.run (p.withSource (Recording.mk p.source [])) = r at hrecord
  cases hrecord with
  | ok _ hs =>
    rename_i r
    have hscript : FollowsScript r.requests (p.withSource (Recording.mk p.source [])) _
      (advance : Method _ C _) advance := followsScript_advance rfl
    have hfollows := (hscript _ _ hrun).2 List.prefix_rfl
    refine ⟨r.requests,?_⟩
    have hdone : r.requests.drop r.requests.length = [] := List.drop_length
    simp only [shadow,withSource,hdone,ShiftingNode.script] at hfollows
    exact hfollows

end Advance

end Poller
end Fintrails
