import Mathlib.Data.List.Basic

/-! Computations that may fail and that append to a log kept in their state.  What is said of
one concerns what it appends and the state it leaves, for each of the two ways in which it
can end; the rules put such facts together along a program. -/
namespace Fintrails

variable {ε σ ρ α β : Type}

/-- From `s`, `x` only appends to the log: when it returns, a value, a state and requests that
`Q` admits, and when it fails, a state and requests that `E` admits. -/
def Logs (log : σ → List ρ) (x : EStateM ε σ α) (s : σ) (Q : α → σ → List ρ → Prop)
    (E : σ → List ρ → Prop) : Prop :=
  match x.run s with
  | .ok a t => ∃ more, log t = log s ++ more ∧ Q a t more
  | .error _ t => ∃ more, log t = log s ++ more ∧ E t more

namespace Logs

variable {log : σ → List ρ} {x : EStateM ε σ α} {s : σ} {Q : α → σ → List ρ → Prop}
  {E : σ → List ρ → Prop}

theorem pure {a : α} (h : Q a s []) : Logs log (pure a : EStateM ε σ α) s Q E :=
  ⟨[],(List.append_nil _).symm,h⟩

theorem mono {Q' : α → σ → List ρ → Prop} {E' : σ → List ρ → Prop} (h : Logs log x s Q E)
    (hQ : ∀ a t more, Q a t more → Q' a t more) (hE : ∀ t more, E t more → E' t more) :
    Logs log x s Q' E' := by
  simp only [Logs] at h ⊢
  cases hx : x.run s with
  | ok a t =>
    rw [hx] at h
    obtain ⟨more,hmore,hq⟩ := h
    exact ⟨more,hmore,hQ a t more hq⟩
  | error e t =>
    rw [hx] at h
    obtain ⟨more,hmore,he⟩ := h
    exact ⟨more,hmore,hE t more he⟩

theorem bind {f : α → EStateM ε σ β} {Q' : β → σ → List ρ → Prop} (hx : Logs log x s Q E)
    (hf : ∀ a t more, Q a t more →
      Logs log (f a) t (fun b u rest => Q' b u (more++rest)) fun u rest => E u (more++rest)) :
    Logs log (x >>= f) s Q' E := by
  simp only [Logs] at hx ⊢
  rw [EStateM.run_bind]
  cases hrun : x.run s with
  | error e t =>
    rw [hrun] at hx
    exact hx
  | ok a t =>
    rw [hrun] at hx
    obtain ⟨more,hmore,hq⟩ := hx
    have hnext := hf a t more hq
    simp only [Logs] at hnext ⊢
    cases hrest : (f a).run t with
    | ok b u =>
      rw [hrest] at hnext
      obtain ⟨rest,hlog,hq'⟩ := hnext
      exact ⟨more++rest,by rw [hlog,hmore,List.append_assoc],hq'⟩
    | error e u =>
      rw [hrest] at hnext
      obtain ⟨rest,hlog,he⟩ := hnext
      exact ⟨more++rest,by rw [hlog,hmore,List.append_assoc],he⟩

theorem get {f : σ → EStateM ε σ β} {Q' : β → σ → List ρ → Prop} (h : Logs log (f s) s Q' E) :
    Logs log (get >>= f) s Q' E := h

end Logs

/-- Each entry of a log meets `J` together with the entries before it. -/
def EachAfter (J : List ρ → ρ → Prop) (l : List ρ) : Prop :=
  ∀ before r after, l = before ++ r::after → J before r

section EachAfter

variable {J : List ρ → ρ → Prop} {l m : List ρ}

theorem eachAfter_nil : EachAfter J [] := by
  intro before r after h
  simp at h

theorem EachAfter.append (hl : EachAfter J l) (hm : EachAfter (fun before => J (l++before)) m) :
    EachAfter J (l++m) := by
  intro before r after h
  obtain ⟨mid,rfl,hrest⟩ | ⟨mid,rfl,hrest⟩ := List.append_eq_append_iff.mp h
  · exact hm mid r after hrest
  · cases mid with
    | nil =>
      have hh := hm [] r after hrest.symm
      rwa [List.append_nil,List.append_nil] at hh
    | cons c mid =>
      obtain ⟨rfl,rfl⟩ := List.cons.inj hrest
      exact hl before r mid rfl

theorem EachAfter.flatten (hmono : ∀ l {before r}, J before r → J (l++before) r)
    {ls : List (List ρ)} (h : ∀ l ∈ ls, EachAfter J l) : EachAfter J ls.flatten := by
  induction ls with
  | nil => exact eachAfter_nil
  | cons l ls ih =>
    have hrest := ih fun m hm => h m (by simp [hm])
    exact (h l (by simp)).append fun before r after heq => hmono l (hrest before r after heq)

theorem eachAfter_of_forall (h : ∀ r ∈ l, ∀ before, J before r) : EachAfter J l := by
  rintro before r after rfl
  exact h r (by simp) before

end EachAfter
end Fintrails
