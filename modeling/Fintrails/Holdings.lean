import Mathlib.Data.Finsupp.Weight

/-! Who holds how much of each token, as transfers change it.  One account is nobody: what it
pays out is issued, what it is paid is destroyed, and seen from outside it owes all that there
is. -/
namespace Fintrails

abbrev Holdings (κ α : Type*) := κ → α →₀ ℕ

structure TokenMove (κ α : Type*) where
  token : κ
  sender : α
  receiver : α
  value : ℕ
  deriving DecidableEq, Repr

namespace Holdings

variable {κ α : Type*} {nobody a : α} {token : κ} {cap : ℕ} {s s₁ s' : Holdings κ α}
  {m : TokenMove κ α}

noncomputable def supply (s : Holdings κ α) (token : κ) : ℕ := (s token).degree

def Capped (cap : ℕ) (s : Holdings κ α) : Prop := ∀ token, s.supply token ≤ cap

theorem supply_add (s s' : Holdings κ α) (token : κ) :
    (s+s').supply token = s.supply token + s'.supply token := by
  simp [supply]

theorem capped_zero (cap : ℕ) : (0 : Holdings κ α).Capped cap := by
  intro token
  simp [supply]

theorem Capped.add {cap' : ℕ} (h : s.Capped cap) (h' : s'.Capped cap') : (s+s').Capped (cap+cap') := by
  intro token
  rw [supply_add]
  exact Nat.add_le_add (h token) (h' token)

theorem Capped.held_le (h : s.Capped cap) (token : κ) (a : α) : s token a ≤ cap :=
  (Finsupp.le_degree a (s token)).trans (h token)

section Positions

variable [DecidableEq α]

/-- What `a` has of a token, and what nobody owes. -/
noncomputable def position (nobody : α) (s : Holdings κ α) (token : κ) (a : α) : ℤ :=
  if a = nobody then -(s.supply token : ℤ) else s token a

theorem position_nobody (s : Holdings κ α) (nobody : α) (token : κ) :
    s.position nobody token nobody = -(s.supply token : ℤ) :=
  if_pos rfl

theorem position_somebody (s : Holdings κ α) (token : κ) (h : a ≠ nobody) :
    s.position nobody token a = s token a :=
  if_neg h

theorem position_add (nobody : α) (s s' : Holdings κ α) (token : κ) (a : α) :
    (s+s').position nobody token a = s.position nobody token a + s'.position nobody token a := by
  simp only [position,supply_add,Pi.add_apply,Finsupp.add_apply]
  split <;> push_cast <;> omega

theorem Capped.position_sub (h : s.Capped cap) (h' : s'.Capped cap) (nobody : α) (token : κ) (a : α) :
    -(cap : ℤ) ≤ s.position nobody token a - s'.position nobody token a ∧
      s.position nobody token a - s'.position nobody token a ≤ cap := by
  by_cases ha : a = nobody
  · subst ha
    have hs := h token
    have hs' := h' token
    rw [position_nobody,position_nobody]
    omega
  · have hs := h.held_le token a
    have hs' := h'.held_le token a
    rw [position_somebody s token ha,position_somebody s' token ha]
    omega

end Positions

variable [DecidableEq κ] [DecidableEq α]

/-- An amount of a token in the hands of `a`.  Nobody has nothing. -/
noncomputable def share (nobody : α) (token : κ) (a : α) (value : ℕ) : Holdings κ α :=
  Pi.single token (if a = nobody then 0 else .single a value)

theorem share_nobody (nobody : α) (token : κ) (value : ℕ) : share nobody token nobody value = 0 := by
  simp [share]

theorem share_add (nobody : α) (token : κ) (a : α) (v w : ℕ) :
    share nobody token a (v+w) = share nobody token a v + share nobody token a w := by
  by_cases ha : a = nobody <;> simp [share,ha,Finsupp.single_add,Pi.single_add]

theorem capped_share (nobody : α) (token : κ) (a : α) (value : ℕ) :
    (share nobody token a value).Capped value := by
  intro k
  by_cases hk : token = k
  · subst hk
    by_cases ha : a = nobody <;> simp [supply,share,ha]
  · simp [supply,share,Ne.symm hk]

theorem position_share (nobody : α) (token : κ) (b : α) (value : ℕ) (k : κ) (a : α) :
    (share nobody token b value).position nobody k a =
      (if b = a ∧ token = k then (value : ℤ) else 0) -
        if a = nobody ∧ token = k then (value : ℤ) else 0 := by
  by_cases hk : token = k
  · subst hk
    by_cases ha : a = nobody
    · subst ha
      rw [position_nobody]
      by_cases hb : b = a <;> simp [supply,share,hb]
    · rw [position_somebody _ _ ha]
      by_cases hb : b = nobody
      · subst hb
        simp [share,ha,Ne.symm ha]
      · simp [share,hb,ha,Finsupp.single_apply]
  · simp [position,supply,share,hk,Ne.symm hk]

structure Pays (nobody : α) (m : TokenMove κ α) (s s' : Holdings κ α) : Prop where
  somebody : ¬(m.sender = nobody ∧ m.receiver = nobody)
  moved : ∃ rest, s = rest + share nobody m.token m.sender m.value ∧
    s' = rest + share nobody m.token m.receiver m.value

/-- One transfer after the other. -/
inductive Plays (nobody : α) (cap : ℕ) : List (TokenMove κ α) → Holdings κ α → Holdings κ α → Prop
  | nil {s : Holdings κ α} (h : s.Capped cap) : Plays nobody cap [] s s
  | cons {m : TokenMove κ α} {ms : List (TokenMove κ α)} {s s₁ s' : Holdings κ α}
      (h : s.Capped cap) (hpays : Pays nobody m s s₁) (hrest : Plays nobody cap ms s₁ s') :
      Plays nobody cap (m::ms) s s'

theorem Pays.position (h : Pays nobody m s s') (token : κ) (a : α) :
    s'.position nobody token a = s.position nobody token a -
      (if m.sender = a ∧ m.token = token then (m.value : ℤ) else 0) +
        if m.receiver = a ∧ m.token = token then (m.value : ℤ) else 0 := by
  obtain ⟨rest,rfl,rfl⟩ := h.moved
  simp only [position_add,position_share]
  omega

theorem Pays.value_le_sender (h : Pays nobody m s s') (hm : m.sender ≠ nobody) :
    m.value ≤ s m.token m.sender := by
  obtain ⟨rest,rfl,-⟩ := h.moved
  simp [share,hm]

theorem Pays.value_le_receiver (h : Pays nobody m s s') (hm : m.receiver ≠ nobody) :
    m.value ≤ s' m.token m.receiver := by
  obtain ⟨rest,-,rfl⟩ := h.moved
  simp [share,hm]

theorem Pays.value_le (h : Pays nobody m s s') (hs : s.Capped cap) (hs' : s'.Capped cap) :
    m.value ≤ cap := by
  by_cases hm : m.sender = nobody
  · exact (h.value_le_receiver fun hr => h.somebody ⟨hm,hr⟩).trans (hs'.held_le _ _)
  · exact (h.value_le_sender hm).trans (hs.held_le _ _)

theorem Pays.between (h : Pays nobody m s s') (hs : s.Capped cap) (hs₁ : s₁.Capped cap)
    (hsender : m.sender = a) (hreceiver : m.receiver = a) :
    -(cap : ℤ) ≤ s.position nobody m.token a - m.value - s₁.position nobody m.token a ∧
      s.position nobody m.token a - m.value - s₁.position nobody m.token a ≤ cap := by
  have ha : a ≠ nobody := by
    rintro rfl
    exact h.somebody ⟨hsender,hreceiver⟩
  have hpaid := h.value_le_sender (hsender ▸ ha)
  have hheld := hs.held_le m.token a
  have hheld₁ := hs₁.held_le m.token a
  rw [hsender] at hpaid
  rw [position_somebody s m.token ha,position_somebody s₁ m.token ha]
  omega

theorem Plays.capped_start {ms : List (TokenMove κ α)} (h : Plays nobody cap ms s s') :
    s.Capped cap := by
  cases h <;> assumption

theorem Plays.append {ms more : List (TokenMove κ α)} (h : Plays nobody cap ms s s₁)
    (h' : Plays nobody cap more s₁ s') : Plays nobody cap (ms++more) s s' := by
  induction h with
  | nil => exact h'
  | cons hcapped hpays _ ih => exact .cons hcapped hpays (ih h')

theorem Plays.of_append {ms more : List (TokenMove κ α)} (h : Plays nobody cap (ms++more) s s') :
    ∃ mid, Plays nobody cap ms s mid := by
  induction ms generalizing s with
  | nil => exact ⟨s,.nil h.capped_start⟩
  | cons m ms ih =>
    obtain _ | ⟨hcapped,hpays,hrest⟩ := h
    obtain ⟨mid,hmid⟩ := ih hrest
    exact ⟨mid,.cons hcapped hpays hmid⟩

theorem plays_flatMap (moves : ℕ → List (TokenMove κ α)) (holds : ℕ → Holdings κ α) {start count : ℕ}
    (hstart : (holds start).Capped cap)
    (h : ∀ n, start ≤ n → n < start+count → Plays nobody cap (moves n) (holds n) (holds (n+1))) :
    Plays nobody cap ((List.range' start count).flatMap moves) (holds start) (holds (start+count)) := by
  induction count with
  | zero => exact .nil hstart
  | succ count ih =>
    have hinit := ih fun n hn hlt => h n hn (by omega)
    have hlast := h (start+count) (by omega) (by omega)
    rw [List.range'_concat,List.flatMap_append,Nat.one_mul]
    simpa [Nat.add_assoc] using hinit.append hlast

end Holdings
end Fintrails
