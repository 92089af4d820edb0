import Mathlib.Tactic
import Usax.Common.Strtol
import Usax.Console.Lines

/-!
# The cursor commands of the console

The handlers of `console.c` for the cursor commands, the action that each makes (`video_term_int.h`: its two arguments are
16-bit fields), and what the terminal does with it (`term_actions.c.h`).
-/

namespace Usax.Console

open Usax.Common (IntType)

/-- The low 16 bits, as `LO_BITS(x, 16, u16)`. -/
def u16 (x : Int) : Nat := (x % 2 ^ 16).toNat

def s16 (x : Nat) : Int := ((x : Int) + 2 ^ 15) % 2 ^ 16 - 2 ^ 15

/-- `CLAMP(x, 0, n - 1)`. -/
def clamp (n : Nat) (x : Int) : Nat := (min (max x 0) ((n : Int) - 1)).toNat

inductive MoveAction
  | moveCur (arg1 arg2 : Nat)
  | moveCurRel (arg1 arg2 : Nat)
deriving DecidableEq, Repr

/-- `term_make_action_move_cursor`. -/
def makeMoveCursor (row col : Nat) : MoveAction := .moveCur (u16 row) (u16 col)

/-- `term_make_action_move_cursor_rel`. -/
def makeMoveCursorRel (dr dc : Int) : MoveAction := .moveCurRel (u16 dr) (u16 dc)

namespace Vterm

variable (t : Vterm)

def moveCur (row col : Int) : Vterm := { t with r := clamp t.rows row, c := clamp t.cols col }

def moveCurRel (dr dc : Int) : Vterm := { t with r := clamp t.rows (t.r + dr), c := clamp t.cols (t.c + dc) }

def executeMove : MoveAction → Vterm
  | .moveCur arg1 arg2 => t.moveCur arg1 arg2
  | .moveCurRel arg1 arg2 => t.moveCurRel (s16 arg1) (s16 arg2)

end Vterm

inductive CursorCmd
  | cuu | cud | cuf | cub | cnl | cpl | cha | cup | vpa | hpa | hpr | vpr
deriving DecidableEq, Repr

/-! ## The handlers -/

section
variable (t : Vterm) (p q : Nat)

/-- `tty_csi_ABCD_handler` for the command `'A' + dir`: the differences are of type `int`. -/
def csiABCDHandler (dir : Fin 4) : MoveAction :=
  let d (i : Fin 4) : Int := if i = dir then IntType.s32.wrap (max 1 p : Nat) else 0
  makeMoveCursorRel (IntType.s32.wrap (-d 0 + d 1)) (IntType.s32.wrap (d 2 - d 3))

/-- `tty_move_cursor_begin_nth_row`; `row` is a `u32`. -/
def moveCursorBeginNthRow (row : Nat) : MoveAction :=
  makeMoveCursor (min (u32 (t.r + row)) (t.rows - 1)) 0

/-- `tty_csi_EF_handler`: for `F`, the row is the negation of a `u32`. -/
def csiEFHandler (down : Bool) : MoveAction :=
  if down then moveCursorBeginNthRow t (max 1 p) else moveCursorBeginNthRow t (u32 (2 ^ 32 - max 1 p))

def csiGHandler : MoveAction := makeMoveCursor t.r (min (max 1 p - 1) (t.cols - 1))

def csiFHHandler : MoveAction := makeMoveCursor (min (max 1 p - 1) (t.rows - 1)) (min (max 1 q - 1) (t.cols - 1))

def csiDHandler : MoveAction := makeMoveCursor (min (max 1 p - 1) (t.rows - 1)) t.c

def csiHpaHandler : MoveAction := makeMoveCursor t.r (min (max 1 p - 1) (t.cols - 1))

/-- `MAX(1, (int)params[0])`, the distance of the two handlers below. -/
def distanceInt : Int := max 1 (IntType.s32.wrap p)

def csiAHandler : MoveAction := makeMoveCursorRel 0 (distanceInt p)

def csiEHandler : MoveAction := makeMoveCursorRel (distanceInt p) 0

/-- The handler of the command in `csi_handlers`, for the parameters `p` and `q`. -/
def csiHandler : CursorCmd → MoveAction
  | .cuu => csiABCDHandler p 0
  | .cud => csiABCDHandler p 1
  | .cuf => csiABCDHandler p 2
  | .cub => csiABCDHandler p 3
  | .cnl => csiEFHandler t p true
  | .cpl => csiEFHandler t p false
  | .cha => csiGHandler t p
  | .cup => csiFHHandler t p q
  | .vpa => csiDHandler t p
  | .hpa => csiHpaHandler t p
  | .hpr => csiAHandler p
  | .vpr => csiEHandler p

def Vterm.cursorCmd (cmd : CursorCmd) : Vterm := t.executeMove (csiHandler t p q cmd)

/-! ## The targets -/

/-- Where the command moves the cursor of a VT102, before the screen's borders stop it. -/
def vt102Target : CursorCmd → Int × Int
  | .cuu => (t.r - (max 1 p : Nat), t.c)
  | .cud | .vpr => (t.r + (max 1 p : Nat), t.c)
  | .cuf | .hpr => (t.r, t.c + (max 1 p : Nat))
  | .cub => (t.r, t.c - (max 1 p : Nat))
  | .cnl => (t.r + (max 1 p : Nat), 0)
  | .cpl => (t.r - (max 1 p : Nat), 0)
  | .cha | .hpa => (t.r, (max 1 p : Nat) - 1)
  | .cup => ((max 1 p : Nat) - 1, (max 1 q : Nat) - 1)
  | .vpa => ((max 1 p : Nat) - 1, t.c)

/-- A number as it comes out of a 16-bit field of an action. -/
def field (x : Int) : Int := s16 (u16 x)

/-- Two positions at which the borders of a screen of `n` rows or columns stop the cursor at the same place. -/
def SameStop (n : Nat) (x y : Int) : Prop := x = y ∨ x ≤ 0 ∧ y ≤ 0 ∨ (n : Int) - 1 ≤ x ∧ (n : Int) - 1 ≤ y ∨ n = 1

/-- The parameters that reach the terminal: the distance of a relative move leads to the same place when it has been through a
field of 16 bits, and the row of a move by lines does not wrap around. -/
def MoveExact : CursorCmd → Prop
  | .cuu => SameStop t.rows (t.r + field (-(max 1 p : Nat))) (t.r - (max 1 p : Nat))
  | .cud => SameStop t.rows (t.r + field (max 1 p : Nat)) (t.r + (max 1 p : Nat))
  | .cuf => SameStop t.cols (t.c + field (max 1 p : Nat)) (t.c + (max 1 p : Nat))
  | .cub => SameStop t.cols (t.c + field (-(max 1 p : Nat))) (t.c - (max 1 p : Nat))
  | .hpr => SameStop t.cols (t.c + field (distanceInt p)) (t.c + (max 1 p : Nat))
  | .vpr => SameStop t.rows (t.r + field (distanceInt p)) (t.r + (max 1 p : Nat))
  | .cnl => t.r + max 1 p < 2 ^ 32
  | .cpl => max 1 p ≤ t.r ∨ t.rows = 1
  | .cha | .cup | .vpa | .hpa => True

instance (n : Nat) (x y : Int) : Decidable (SameStop n x y) := inferInstanceAs (Decidable (_ ∨ _))

instance (cmd : CursorCmd) : Decidable (MoveExact t p cmd) := by
  cases cmd <;> unfold MoveExact <;> infer_instance

end

structure Vterm.InRange (t : Vterm) : Prop where
  rows_pos : 0 < t.rows
  cols_pos : 0 < t.cols
  rows_lt : t.rows < 2 ^ 16
  cols_lt : t.cols < 2 ^ 16
  r_lt : t.r < t.rows
  c_le : t.c ≤ t.cols

/-! ## Through the conversions -/

theorem u16_natCast {x : Nat} (hx : x < 2 ^ 16) : u16 x = x := by
  unfold u16
  omega

theorem field_zero : field 0 = 0 := by decide

theorem u16_s32_wrap (x : Int) : u16 (IntType.s32.wrap x) = u16 x ∧ u16 (-IntType.s32.wrap x) = u16 (-x) := by
  simp only [u16, IntType.wrap, IntType.minVal, IntType.s32]
  norm_num
  omega

theorem clamp_eq_iff {n : Nat} (hn : 0 < n) (x y : Int) : clamp n x = clamp n y ↔ SameStop n x y := by
  unfold clamp SameStop
  omega

/-- A relative move goes by what its fields hold. -/
theorem executeMove_rel (t : Vterm) (dr dc : Int) :
    t.executeMove (makeMoveCursorRel dr dc) = t.moveCurRel (field dr) (field dc) := rfl

theorem executeMove_abs (t : Vterm) {row col : Nat} (hrow : row < 2 ^ 16) (hcol : col < 2 ^ 16) :
    t.executeMove (makeMoveCursor row col) = t.moveCur row col := by
  simp only [Vterm.executeMove, makeMoveCursor, u16_natCast hrow, u16_natCast hcol]

theorem executeMove_ABCD (t : Vterm) (p : Nat) (dir : Fin 4) :
    t.executeMove (csiABCDHandler p dir) =
      match dir with
      | 0 => t.moveCurRel (field (-(max 1 p : Nat))) 0
      | 1 => t.moveCurRel (field (max 1 p : Nat)) 0
      | 2 => t.moveCurRel 0 (field (max 1 p : Nat))
      | 3 => t.moveCurRel 0 (field (-(max 1 p : Nat))) := by
  have hwrap (x : Int) : field (IntType.s32.wrap x) = field x := by rw [field, (u16_s32_wrap x).1, field]
  have hneg (x : Int) : field (-IntType.s32.wrap x) = field (-x) := by rw [field, (u16_s32_wrap x).2, field]
  rw [csiABCDHandler, executeMove_rel, hwrap, hwrap]
  fin_cases dir
  · simp [field_zero, hneg]
  · simp [field_zero, hwrap]
  · simp [field_zero, hwrap]
  · simp [field_zero, hneg]

/-! ## The commands -/

theorem moveCur_eq_iff {t : Vterm} {r r' c c' : Nat} :
    ({ t with r := r, c := c } : Vterm) = { t with r := r', c := c' } ↔ r = r' ∧ c = c' := by
  rw [Vterm.mk.injEq]
  simp

/-- A screen of 25 rows and 80 columns with the cursor at row `r`. -/
def screenAt (r : Nat) : Vterm where
  rows := 25
  cols := 80
  r := r
  c := 7
  startScrollRegion := 0
  endScrollRegion := 24
  scroll := 0
  totalBufferRows := 25
  buffer := fun _ => []

end Usax.Console
