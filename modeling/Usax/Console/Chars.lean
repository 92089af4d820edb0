import Mathlib.Tactic
import Usax.Console.Lines

/-!
# The character operations of the console

The insertion, the deletion and the erasure of characters in the cursor's row, in `term_actions.c.h`: a move within the row, then
a loop that blanks cells and keeps their colours. The cursor is at a column of the row or right behind it, so that
`t.cols - t.c` is not negative.
-/

namespace Usax.Console

/-- `make_vgaentry(c, color)`. -/
def vgaEntry (c color : UInt8) : UInt16 := c.toUInt16 ||| (color.toUInt16 <<< 8)

/-- `vgaentry_get_color`. -/
def entryColor (e : UInt16) : UInt8 := (e >>> 8).toUInt8

/-- `vgaentry_get_char`. -/
def entryChar (e : UInt16) : UInt8 := e.toUInt8

def blankCell (e : UInt16) : UInt16 := vgaEntry 32 (entryColor e)

/-- `memmove` of `count` cells of a row. -/
def moveCells (row : Row) (dest src count : Nat) : Row :=
  row.mapIdx fun j e => if dest ≤ j ∧ j < dest + count then row.getD (src + (j - dest)) 0 else e

/-- The loop that blanks `count` cells from `col` on. -/
def blankCells : (count col : Nat) → Row → Row
  | 0, _, row => row
  | count + 1, col, row => blankCells count (col + 1) (row.modify col blankCell)

namespace Vterm

variable (t : Vterm) (n : Nat)

def insBlankChars : Vterm :=
  let n := min n (t.cols - t.c)
  t.setRow t.r (blankCells n t.c (moveCells (t.row t.r) (t.c + n) t.c (t.cols - t.c - n)))

def delCharsInLine : Vterm :=
  let maxN := min n (t.cols - t.c)
  let cN := t.cols - t.c - maxN
  t.setRow t.r (blankCells (min (t.c + cN + n - maxN) t.cols - (t.c + cN)) (t.c + cN)
    (moveCells (t.row t.r) t.c (t.c + maxN) cN))

def eraseCharsInLine : Vterm :=
  t.setRow t.r (blankCells (min t.cols (t.c + n) - t.c) t.c (t.row t.r))

end Vterm

inductive CharOp
  | ins | del | erase
deriving DecidableEq, Repr

def Vterm.charOp (t : Vterm) (n : Nat) : CharOp → Vterm
  | .ins => t.insBlankChars n
  | .del => t.delCharsInLine n
  | .erase => t.eraseCharsInLine n

/-! ## What they should do -/

/-- The cell at column `j` after an operation on a VT102 of `k` characters from column `c` on. -/
def vt102Cell (row : Row) (c k : Nat) (j : Nat) : CharOp → UInt16
  | .ins => if j < c then row.getD j 0 else if j < c + k then blankCell (row.getD j 0) else row.getD (j - k) 0
  | .del =>
    if j < c then row.getD j 0 else if j + k < row.length then row.getD (j + k) 0 else blankCell (row.getD j 0)
  | .erase => if c ≤ j ∧ j < c + k then blankCell (row.getD j 0) else row.getD j 0

def vt102Chars (row : Row) (c n : Nat) (op : CharOp) : Row :=
  (List.range row.length).map (vt102Cell row c (min n (row.length - c)) · op)

/-- The deletion does not blank the last cells of the row, unless the count is twice the number of cells there are: those
have to be blank before. -/
def CharsExact (t : Vterm) (n : Nat) (op : CharOp) : Prop :=
  op = .del → ∀ j < t.cols, t.c ≤ j → t.cols + n ≤ j + 2 * min n (t.cols - t.c) →
    blankCell ((t.row t.r).getD j 0) = (t.row t.r).getD j 0

instance (t : Vterm) (n : Nat) (op : CharOp) : Decidable (CharsExact t n op) :=
  inferInstanceAs (Decidable (_ → _))

/-! ## Rows cell by cell -/

@[simp] theorem length_moveCells (row : Row) (dest src count : Nat) :
    (moveCells row dest src count).length = row.length := by
  simp [moveCells]

@[simp] theorem length_blankCells (count col : Nat) (row : Row) :
    (blankCells count col row).length = row.length := by
  induction count generalizing col row with
  | zero => rfl
  | succ count ih => rw [blankCells, ih, List.length_modify]

theorem getD_moveCells (row : Row) (dest src count j : Nat) (hj : j < row.length) :
    (moveCells row dest src count).getD j 0
      = if dest ≤ j ∧ j < dest + count then row.getD (src + (j - dest)) 0 else row.getD j 0 := by
  simp [moveCells, List.getD_eq_getElem?_getD, List.getElem?_mapIdx, List.getElem?_eq_getElem hj]

theorem getD_blankCells (count col : Nat) (row : Row) (j : Nat) (hj : j < row.length) :
    (blankCells count col row).getD j 0
      = if col ≤ j ∧ j < col + count then blankCell (row.getD j 0) else row.getD j 0 := by
  induction count generalizing col row with
  | zero =>
    rw [blankCells, if_neg (by omega)]
  | succ count ih =>
    have hcell : (row.modify col blankCell).getD j 0
        = if col = j then blankCell (row.getD j 0) else row.getD j 0 := by
      simp only [List.getD_eq_getElem?_getD, List.getElem?_modify, List.getElem?_eq_getElem hj]
      split_ifs <;> rfl
    rw [blankCells, ih _ _ (by simpa using hj), hcell]
    by_cases hcol : col = j
    · subst hcol
      rw [if_neg (by omega), if_pos rfl, if_pos (by omega)]
    · rw [if_neg hcol]
      split_ifs <;> first | rfl | omega

theorem row_eq_iff_getD {a : Row} {n : Nat} {cell : Nat → UInt16} (hlen : a.length = n) :
    a = (List.range n).map cell ↔ ∀ j < n, a.getD j 0 = cell j := by
  refine ⟨fun h j hj => ?_, fun hcells => List.ext_getElem (by simp [hlen]) fun j hj _ => ?_⟩
  · rw [h]
    simp [List.getD_eq_getElem?_getD, hj]
  · have hcell := hcells j (hlen ▸ hj)
    rw [List.getD_eq_getElem?_getD, List.getElem?_eq_getElem hj, Option.getD_some] at hcell
    simpa using hcell

theorem setRow_inj {t : Vterm} {i : Nat} {a b : Row} : t.setRow i a = t.setRow i b ↔ a = b := by
  refine ⟨fun h => ?_, fun h => by rw [h]⟩
  have := congrArg (fun t' : Vterm => t'.buffer (t.bufRow i)) h
  simpa [Vterm.setRow] using this

/-! ## They do it -/

variable {t : Vterm}

theorem insBlankChars_eq (hlen : (t.row t.r).length = t.cols) (n : Nat) :
    t.insBlankChars n = t.setRow t.r (vt102Chars (t.row t.r) t.c n .ins) := by
  unfold Vterm.insBlankChars vt102Chars
  rw [hlen]
  refine congrArg (t.setRow t.r) ?_
  refine (row_eq_iff_getD (by simpa using hlen)).mpr fun j hj => ?_
  rw [getD_blankCells _ _ _ _ (by simpa [hlen] using hj), getD_moveCells _ _ _ _ _ (by rwa [hlen])]
  simp only [vt102Cell]
  split_ifs <;> first | rfl | omega | (congr 1; omega)

theorem eraseCharsInLine_eq (hlen : (t.row t.r).length = t.cols) (n : Nat) :
    t.eraseCharsInLine n = t.setRow t.r (vt102Chars (t.row t.r) t.c n .erase) := by
  unfold Vterm.eraseCharsInLine vt102Chars
  rw [hlen]
  refine congrArg (t.setRow t.r) ?_
  refine (row_eq_iff_getD (by simpa using hlen)).mpr fun j hj => ?_
  rw [getD_blankCells _ _ _ _ (by rwa [hlen])]
  simp only [vt102Cell]
  split_ifs <;> first | rfl | omega

theorem delCharsInLine_eq_iff (hlen : (t.row t.r).length = t.cols) (n : Nat) :
    t.delCharsInLine n = t.setRow t.r (vt102Chars (t.row t.r) t.c n .del) ↔ CharsExact t n .del := by
  unfold Vterm.delCharsInLine vt102Chars
  rw [setRow_inj, hlen, row_eq_iff_getD (by simpa using hlen)]
  simp only [CharsExact, true_implies]
  refine forall_congr' fun j => forall_congr' fun hj => ?_
  rw [getD_blankCells _ _ _ _ (by simpa [hlen] using hj), getD_moveCells _ _ _ _ _ (by rwa [hlen])]
  simp only [vt102Cell, hlen]
  -- a cell that is moved, one that the loop blanks, one that it should blank, and one before the cursor
  by_cases hlast : t.c ≤ j ∧ t.cols + n ≤ j + 2 * min n (t.cols - t.c)
  · rw [if_neg (by omega), if_neg (by omega), if_neg (by omega), if_neg (by omega)]
    exact ⟨fun h _ _ => h.symm, fun h => (h hlast.1 hlast.2).symm⟩
  · refine iff_of_true ?_ fun h₁ h₂ => absurd ⟨h₁, h₂⟩ hlast
    split_ifs <;> first | rfl | omega | (congr 1; omega)

/-- **The operations leave exactly the row of a VT102** at the cursor, with nothing else changed, if and only if a deletion has
nothing to blank that it does not blank. -/
theorem charOp_exact (t : Vterm) (hlen : (t.row t.r).length = t.cols) (op : CharOp) (n : Nat) :
    t.charOp n op = t.setRow t.r (vt102Chars (t.row t.r) t.c n op) ↔ CharsExact t n op := by
  cases op with
  | ins => exact iff_of_true (insBlankChars_eq hlen n) (fun h => by cases h)
  | del => exact delCharsInLine_eq_iff hlen n
  | erase => exact iff_of_true (eraseCharsInLine_eq hlen n) (fun h => by cases h)

def abcTerm (c : Nat) : Vterm where
  rows := 1
  cols := 3
  r := 0
  c := c
  startScrollRegion := 0
  endScrollRegion := 0
  scroll := 0
  totalBufferRows := 1
  buffer := fun _ => [0x0761, 0x0762, 0x0763]

theorem charOp_exact_insert :
    ((abcTerm 1).charOp 1 .ins).row 0 = [0x0761, 0x0720, 0x0762] ∧ ¬ CharsExact (abcTerm 0) 1 .del := by
  constructor
  · rw [(charOp_exact (abcTerm 1) rfl .ins 1).mpr (by decide)]
    decide
  · decide

/-- To delete one character of `abc` from column 0 on leaves `bcc`: the last cell is not blanked. -/
theorem delChars_keeps_tail :
    ((abcTerm 0).charOp 1 .del).row 0 = [0x0762, 0x0763, 0x0763] ∧
      vt102Chars ((abcTerm 0).row 0) 0 1 .del = [0x0762, 0x0763, 0x0720] := by
  constructor <;> decide

end Usax.Console
