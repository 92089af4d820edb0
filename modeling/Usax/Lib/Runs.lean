import Mathlib.Data.List.Basic

/-!
# Runs of a step function

A system takes a step by a label, or refuses it (`none`). `Reached` has the states of the runs whose steps all meet a
condition; what holds at the start and is kept by such steps holds of them (`Reached.invariant`). A run that is given by
its labels is one of them when each of its steps meets the condition (`Reached.execs`).
-/

namespace Usax.Lib

variable {S L : Type} {init : S → Prop} {exec : S → L → Option S} {ok : S → L → Prop}

/-- The states of the runs from an initial state by steps that meet `ok`. -/
inductive Reached (init : S → Prop) (exec : S → L → Option S) (ok : S → L → Prop) : S → Prop
  | start {s : S} : init s → Reached init exec ok s
  | step {s s' : S} {l : L} : Reached init exec ok s → ok s l → exec s l = some s' → Reached init exec ok s'

theorem Reached.invariant {I : S → Prop} (h₀ : ∀ s, init s → I s)
    (hs : ∀ s l s', I s → ok s l → exec s l = some s' → I s') {s : S} (h : Reached init exec ok s) : I s := by
  induction h with
  | start h => exact h₀ _ h
  | step _ hok he ih => exact hs _ _ _ ih hok he

def execs (exec : S → L → Option S) : S → List L → Option S
  | s, [] => some s
  | s, l :: ls => (exec s l).bind fun s' => execs exec s' ls

/-- Each step of a list of labels meets `ok`. -/
def Along (exec : S → L → Option S) (ok : S → L → Prop) : S → List L → Prop
  | _, [] => True
  | s, l :: ls => ok s l ∧ (exec s l).elim True fun s' => Along exec ok s' ls

instance Along.decidable [∀ s l, Decidable (ok s l)] : ∀ (s : S) (ls : List L), Decidable (Along exec ok s ls)
  | _, [] => .isTrue trivial
  | s, l :: ls =>
    have : Decidable ((exec s l).elim True fun s' => Along exec ok s' ls) :=
      match exec s l with
      | none => .isTrue trivial
      | some s' => Along.decidable s' ls
    inferInstanceAs (Decidable (ok s l ∧ _))

theorem Reached.execs {s s' : S} {ls : List L} (h : Reached init exec ok s) (ha : Along exec ok s ls)
    (he : execs exec s ls = some s') : Reached init exec ok s' := by
  induction ls generalizing s with
  | nil =>
    obtain rfl := Option.some.inj he
    exact h
  | cons l ls ih =>
    obtain ⟨u, hu, he⟩ := Option.bind_eq_some_iff.mp he
    obtain ⟨hok, ha⟩ := ha
    rw [hu] at ha
    exact ih (h.step hok hu) ha he

end Usax.Lib
