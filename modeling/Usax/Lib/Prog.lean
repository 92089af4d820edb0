import Mathlib.Logic.Basic

/-!
# Programs with errors and undefined outcomes

A program on a state returns a result or an error and leaves a state, or has no defined outcome (`none`). `Spec p s Q E`
says of every outcome of `p` from `s` that `Q` holds of a result and `E` of an error. There is a rule for each way to make
a program. The rules are used backwards, from the end of a program to its start.
-/

namespace Usax.Lib

/-- A program on states `σ` with errors `ε`. -/
abbrev Prog (ε σ α : Type) : Type := ExceptT ε (StateT σ Option) α

namespace Prog

variable {ε σ α β : Type}

/-- There is no outcome. -/
def undefined : Prog ε σ α := fun _ => none

/-- `if (c) return -e;` -/
def failIf (c : Prop) [Decidable c] (e : ε) : Prog ε σ Unit := fun s => some (if c then .error e else .ok (), s)

/-- What a pointer points to. -/
def deref (p : Option α) : Prog ε σ α := fun s => p.map fun a => (.ok a, s)

def read (f : σ → α) : Prog ε σ α := fun s => some (.ok (f s), s)

/-- A value that is there in some states only. -/
def lookup (f : σ → Option α) : Prog ε σ α := fun s => (f s).map fun a => (.ok a, s)

def update (f : σ → σ) : Prog ε σ Unit := fun s => some (.ok (), f s)

/-- The clean-up after a program that has failed. -/
def onError (p : Prog ε σ α) (cleanup : Prog ε σ Unit) : Prog ε σ α := fun s =>
  match p s with
  | some (.error e, s') =>
    match cleanup s' with
    | some (.error e', s'') => some (.error e', s'')
    | some (.ok _, s'') => some (.error e, s'')
    | none => none
  | r => r

theorem bind_apply {p : Prog ε σ α} {f : α → Prog ε σ β} {s : σ} : (p >>= f) s = (p s).bind fun r => match r.1 with
    | .ok a => f a r.2
    | .error e => some (.error e, r.2) := by
  unfold Prog at p
  simp only [Bind.bind, ExceptT.bind, ExceptT.mk, StateT.bind]
  cases p s with
  | none => rfl
  | some r => obtain ⟨a | a, s'⟩ := r <;> rfl

/-- Every outcome of the program meets `Q`, or `E` when it is an error. -/
def Spec (p : Prog ε σ α) (s : σ) (Q : α → σ → Prop) (E : ε → σ → Prop) : Prop :=
  (∀ a s', p s = some (.ok a, s') → Q a s') ∧ ∀ e s', p s = some (.error e, s') → E e s'

namespace Spec

variable {p : Prog ε σ α} {f : α → Prog ε σ β} {s : σ} {Q Q' : α → σ → Prop} {R : β → σ → Prop} {E E' : ε → σ → Prop}

theorem mono (h : Spec p s Q E) (hQ : ∀ a s', Q a s' → Q' a s') (hE : ∀ e s', E e s' → E' e s') : Spec p s Q' E' :=
  ⟨fun a s' hp => hQ a s' (h.1 a s' hp), fun e s' hp => hE e s' (h.2 e s' hp)⟩

theorem both (h : Spec p s Q E) (h' : Spec p s Q' E') :
    Spec p s (fun a s' => Q a s' ∧ Q' a s') (fun e s' => E e s' ∧ E' e s') :=
  ⟨fun a s' hp => ⟨h.1 a s' hp, h'.1 a s' hp⟩, fun e s' hp => ⟨h.2 e s' hp, h'.2 e s' hp⟩⟩

theorem of_eq (h : ∀ r, p s = some r → (∀ a, r.1 = .ok a → Q a r.2) ∧ ∀ e, r.1 = .error e → E e r.2) :
    Spec p s Q E :=
  ⟨fun a _ hp => (h _ hp).1 a rfl, fun e _ hp => (h _ hp).2 e rfl⟩

theorem pure {a : α} (h : Q a s) : Spec (pure a : Prog ε σ α) s Q E := by
  refine ⟨fun b s' hp => ?_, fun e s' hp => ?_⟩
  · cases hp
    exact h
  · cases hp

theorem bind (h : Spec p s (fun a s' => Spec (f a) s' R E) E) : Spec (p >>= f) s R E := by
  apply of_eq
  intro r hr
  rw [bind_apply] at hr
  obtain ⟨⟨a | a, s'⟩, hp, hr⟩ := Option.bind_eq_some_iff.mp hr
  · obtain rfl := Option.some.inj hr
    exact ⟨fun b hb => (by cases hb), fun e he => (by cases he; exact h.2 _ _ hp)⟩
  · have := h.1 _ _ hp
    exact ⟨fun b hb => this.1 b r.2 (by rw [← hb]; exact hr), fun e he => this.2 e r.2 (by rw [← he]; exact hr)⟩

theorem bind_eq (h₁ : ∀ a s', p s = some (.ok a, s') → Spec (f a) s' R E)
    (h₂ : ∀ e s', p s = some (.error e, s') → E e s') : Spec (p >>= f) s R E := bind ⟨h₁, h₂⟩

theorem undefined : Spec (undefined : Prog ε σ α) s Q E :=
  ⟨fun _ _ hp => (by cases hp), fun _ _ hp => (by cases hp)⟩

theorem failIf {c : Prop} [Decidable c] {e : ε} {Q : Unit → σ → Prop} (h₁ : c → E e s) (h₂ : ¬ c → Q () s) :
    Spec (failIf c e) s Q E := by
  refine ⟨fun b s' hp => ?_, fun e' s' hp => ?_⟩ <;> unfold Prog.failIf at hp <;> split at hp <;> cases hp
  · exact h₂ ‹_›
  · exact h₁ ‹_›

theorem deref {o : Option α} (h : ∀ a, o = some a → Q a s) : Spec (deref o) s Q E := by
  refine ⟨fun b s' hp => ?_, fun e' s' hp => ?_⟩ <;> obtain ⟨a, ho, hp⟩ := Option.map_eq_some_iff.mp hp <;> cases hp
  exact h _ ho

theorem read {g : σ → α} (h : Q (g s) s) : Spec (read g : Prog ε σ α) s Q E := by
  refine ⟨fun b s' hp => ?_, fun e' s' hp => ?_⟩ <;> cases hp
  exact h

theorem lookup {g : σ → Option α} (h : ∀ a, g s = some a → Q a s) : Spec (lookup g : Prog ε σ α) s Q E := by
  refine ⟨fun b s' hp => ?_, fun e' s' hp => ?_⟩ <;> obtain ⟨a, ho, hp⟩ := Option.map_eq_some_iff.mp hp <;> cases hp
  exact h _ ho

theorem update {g : σ → σ} {Q : Unit → σ → Prop} (h : Q () (g s)) : Spec (update g : Prog ε σ Unit) s Q E := by
  refine ⟨fun b s' hp => ?_, fun e' s' hp => ?_⟩ <;> cases hp
  exact h

theorem onError {c : Prog ε σ Unit} (h : Spec p s Q fun e s' => Spec c s' (fun _ s'' => E e s'') E) :
    Spec (onError p c) s Q E := by
  apply of_eq
  intro r hr
  unfold Prog.onError at hr
  split at hr
  · rename_i e s' hp
    have hc := h.2 e s' hp
    split at hr
    · rename_i e' s'' hc'
      obtain rfl := Option.some.inj hr
      exact ⟨fun b hb => (by cases hb), fun e he => (by cases he; exact hc.2 _ _ hc')⟩
    · rename_i s'' hc'
      obtain rfl := Option.some.inj hr
      exact ⟨fun b hb => (by cases hb), fun e he => (by cases he; exact hc.1 _ _ hc')⟩
    · cases hr
  · rename_i hne
    obtain ⟨a | a, s'⟩ := r
    · exact absurd hr (hne _ _)
    · exact ⟨fun b hb => (by cases hb; exact h.1 _ _ hr), fun e he => (by cases he)⟩

theorem ite {c : Prop} [Decidable c] {p' : Prog ε σ α} (h₁ : c → Spec p s Q E) (h₂ : ¬ c → Spec p' s Q E) :
    Spec (if c then p else p') s Q E := by
  split
  · exact h₁ ‹_›
  · exact h₂ ‹_›

end Spec

end Prog

end Usax.Lib
