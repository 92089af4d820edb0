import Mathlib.Tactic

/-!
# Writers to a bounded buffer

A writer appends to a buffer and says whether there is room left. `Emits w text` says that `w` writes `text` as far as the buffer
goes; writers that do so compose.
-/

namespace Usax.Lib

/-- What was written, the size of the buffer, and whether something was written outside it. -/
structure Out (α : Type*) where
  buf : List α
  cap : Nat
  fault : Bool
deriving DecidableEq

abbrev Writer (α : Type*) := Out α → Out α × Bool

variable {α : Type*}

/-- The write of one element at the end, wherever that is. -/
def put (c : α) : Writer α := fun o =>
  ({ o with buf := o.buf ++ [c], fault := o.fault || decide (o.cap ≤ o.buf.length) }, decide (o.buf.length + 1 < o.cap))

def done : Writer α := fun o => (o, true)

/-- One writer after the other, unless there is no room left. -/
def Writer.andThen (w v : Writer α) : Writer α := fun o => if (w o).2 then v (w o).1 else w o

/-- The loop that writes an element `n` times. -/
def putMany (c : α) : Nat → Writer α
  | 0 => done
  | n + 1 => (put c).andThen (putMany c n)

/-- The loop that writes a text up to the end of the buffer. -/
def putText : List α → Writer α
  | [] => fun o => (o, decide (o.buf.length < o.cap))
  | c :: s => fun o => if o.buf.length < o.cap then putText s { o with buf := o.buf ++ [c] } else (o, false)

/-- As much of the text as there is room for. -/
def emit (text : List α) : Writer α := fun o =>
  ({ o with buf := (o.buf ++ text).take o.cap }, decide ((o.buf ++ text).length < o.cap))

def Emits (w : Writer α) (text : List α) : Prop := ∀ o : Out α, o.buf.length < o.cap → w o = emit text o

theorem emits_done : Emits (done : Writer α) [] := by
  intro o ho
  simp [done, emit, ho, List.take_of_length_le ho.le]

theorem emits_put (c : α) : Emits (put c) [c] := by
  intro o ho
  have htake : (o.buf ++ [c]).take o.cap = o.buf ++ [c] := List.take_of_length_le (by simpa using ho)
  simp [put, emit, htake, ho]

theorem Emits.andThen {w v : Writer α} {a b : List α} (hw : Emits w a) (hv : Emits v b) : Emits (w.andThen v) (a ++ b) := by
  intro o ho
  rw [Writer.andThen, hw o ho]
  by_cases hroom : (o.buf ++ a).length < o.cap
  · have hfirst : emit a o = ({ o with buf := o.buf ++ a }, true) := by
      simp only [emit, hroom, decide_true, List.take_of_length_le hroom.le]
    rw [hfirst, if_pos rfl, hv _ hroom]
    simp [emit]
  · have hfull : ¬ (o.buf ++ (a ++ b)).length < o.cap := by
      rw [← List.append_assoc, List.length_append]
      omega
    have htake : (o.buf ++ (a ++ b)).take o.cap = (o.buf ++ a).take o.cap := by
      rw [← List.append_assoc, List.take_append_of_le_length (by omega)]
    simp only [emit, hroom, hfull, htake, decide_false, Bool.false_eq_true, if_false]

theorem emits_putMany (c : α) (n : Nat) : Emits (putMany c n) (List.replicate n c) := by
  induction n with
  | zero => exact emits_done
  | succ n ih => exact (emits_put c).andThen ih

theorem emits_putText (s : List α) : Emits (putText s) s := by
  induction s with
  | nil =>
    intro o ho
    simp [putText, emit, List.take_of_length_le ho.le]
  | cons c s ih =>
    intro o ho
    rw [putText]
    beta_reduce
    rw [if_pos ho]
    by_cases hroom : o.buf.length + 1 < o.cap
    · rw [ih _ (by simpa using hroom)]
      simp [emit]
    · -- the last cell of the buffer
      have hlast : o.buf.length + 1 = o.cap := by omega
      have hrest : putText s { o with buf := o.buf ++ [c] } = ({ o with buf := o.buf ++ [c] }, false) := by
        cases s <;> simp [putText, hlast]
      rw [hrest]
      have htake : (o.buf ++ c :: s).take o.cap = o.buf ++ [c] := by
        rw [← hlast, List.append_cons, List.take_append_of_le_length (by simp), List.take_of_length_le (by simp)]
      simp [emit, htake]
      omega

theorem emits_ite {p : Prop} [Decidable p] {w : Writer α} {a : List α} (hw : Emits w a) :
    Emits (if p then w else done) (if p then a else []) := by
  split_ifs
  · exact hw
  · exact emits_done

end Usax.Lib
