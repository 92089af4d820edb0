import Mathlib.Tactic
import Usax.Console.Chars
import Usax.Console.Cursor

/-!
# The actions of the terminal and its alternate buffer

`video_term.c` and `term_actions.c.h`: the writing of characters, every action, and the two switches of
`term_action_use_alt_buffer`. The copy of the screen is one block from the first row of the window on, and so is its way back,
whereas the window of the terminal goes around the end of the buffer. What is drawn is not in the model: it is redrawn from the
rows.
-/

namespace Usax.Console

/-- What the switch to the alternate buffer leaves behind. -/
structure Saved where
  copy : Option (List Row)
  curRow : Nat
  curCol : Nat
  usingAlt : Bool

/-- `struct vterm`. The region in `vt` is the one in use, `otherRegion` that of the other buffer. The rows of the buffer from
`totalBufferRows` on are the memory behind it. -/
structure Term where
  vt : Vterm
  maxScroll : Nat
  extraBufferRows : Nat
  colOffset : Nat
  tabsize : Nat
  /-- The video interface has `scroll_one_line_up`. -/
  scrollsLine : Bool
  mainTabs : Option (Nat → Bool)
  altTabs : Option (Nat → Bool)
  otherRegion : Nat × Nat
  saved : Saved

namespace Term

/-! ## Scrolling -/

section
variable (t : Term)

def setScroll (requested : Nat) : Term :=
  let minScroll := if t.maxScroll > t.extraBufferRows then t.maxScroll - t.extraBufferRows else 0
  { t with vt := { t.vt with scroll := min (max requested minScroll) t.maxScroll } }

def scrollUp (lines : Nat) : Term :=
  if lines > t.vt.scroll then t.setScroll 0 else t.setScroll (t.vt.scroll - lines)

def scrollDown (lines : Nat) : Term := t.setScroll (u32 (t.vt.scroll + lines))

def scrollToBottom : Term := if t.vt.scroll ≠ t.maxScroll then t.setScroll t.maxScroll else t

/-! ## Characters -/

def tabs : Option (Nat → Bool) := if t.saved.usingAlt then t.altTabs else t.mainTabs

def setTabs (tabs : Option (Nat → Bool)) : Term :=
  if t.saved.usingAlt then { t with altTabs := tabs } else { t with mainTabs := tabs }

def cellIndex (col : Nat) : Nat := t.vt.r * t.vt.cols + col

/-- `buf_get_entry` in the cursor's row: behind the last column is the next row of the buffer. -/
def entryAt (col : Nat) : UInt16 :=
  if col < t.vt.cols then (t.vt.row t.vt.r).getD col 0
  else (t.vt.buffer (t.vt.bufRow t.vt.r + 1)).getD (col - t.vt.cols) 0

def currCellColor : UInt8 := entryColor (t.entryAt t.vt.c)

def incrRow : Term :=
  let t := { t with colOffset := 0 }
  if t.vt.r < t.vt.eR - 1 then { t with vt := { t.vt with r := t.vt.r + 1 } }
  else if t.vt.startScrollRegion ≠ 0 ∨ t.vt.eR < t.vt.rows then
    let vt := t.vt.moveCur t.vt.r 0
    if vt.r = vt.eR - 1 then { t with vt := (vt.nonBufScrollUp 1).1 }
    else if vt.r < vt.rows - 1 then { t with vt := { vt with r := vt.r + 1 } }
    else { t with vt := vt }
  else
    let t := { t with maxScroll := u32 (t.maxScroll + 1) }
    let t := if t.scrollsLine then { t with vt := { t.vt with scroll := u32 (t.vt.scroll + 1) } } else t.setScroll t.maxScroll
    { t with vt := t.vt.bufClearRow (t.vt.rows - 1) }

/-- `buf_set_entry` in the cursor's row, or behind it. -/
def setEntry (col : Nat) (entry : UInt16) : Term :=
  if col < t.vt.cols then { t with vt := t.vt.setRow t.vt.r ((t.vt.row t.vt.r).set col entry) }
  else
    let next := t.vt.bufRow t.vt.r + 1
    { t with vt := t.vt.withRows (Function.update t.vt.buffer next ((t.vt.buffer next).set (col - t.vt.cols) entry)) }

def setCol (col : Nat) : Term := { t with vt := { t.vt with c := col % 2 ^ 16 } }

def writePrintableChar (c color : UInt8) : Term := (t.setEntry t.vt.c (vgaEntry c color)).setCol (t.vt.c + 1)

/-- The column before the next tab stop, a `u32`. -/
def tabCol : Nat :=
  u32 (min ((t.vt.c + 1 + t.tabsize - 1) / t.tabsize * t.tabsize) (t.vt.cols - 1) + (2 ^ 32 - 1))

def writeTab (color : UInt8) : Term :=
  match t.tabs with
  | none => if t.vt.c + 1 ≠ t.vt.cols then t.writePrintableChar 32 color else t
  | some tabs => (t.setTabs (some (Function.update tabs (t.cellIndex t.tabCol) true))).setCol (t.tabCol + 1)

end

/-- The loop of `term_internal_write_backspace` through the blanks of a tab. -/
def backTab (tabs : Nat → Bool) : Nat → Term → Term
  | 0, t => t
  | i + 1, t =>
    if t.vt.c = 0 ∨ t.vt.c = t.colOffset then t
    else if tabs (t.cellIndex (t.vt.c - 1)) then t
    else if entryChar (t.entryAt (t.vt.c - 1)) ≠ 32 then t
    else backTab tabs i (t.setCol (t.vt.c - 1))

def writeBackspace (t : Term) (color : UInt8) : Term :=
  if t.vt.c = 0 ∨ t.vt.c ≤ t.colOffset then t
  else
    let t := t.setCol (t.vt.c - 1)
    match t.tabs with
    | none => t.setEntry t.vt.c (vgaEntry 32 color)
    | some tabs =>
      if tabs (t.cellIndex t.vt.c) then
        let tabs := Function.update tabs (t.cellIndex t.vt.c) false
        backTab tabs t.tabsize (t.setTabs (some tabs))
      else t.setEntry t.vt.c (vgaEntry 32 color)

/-- The loops of `term_internal_delete_last_word`: backspaces while the character before the cursor is a blank, or is none. Each
takes at least one column; where the column offset stops it, the loop of the source does not end, and the one here does. -/
def backspaceWhile (blank : Bool) (color : UInt8) : Nat → Term → Term
  | 0, t => t
  | fuel + 1, t =>
    if t.vt.c > 0 ∧ decide (entryChar (t.entryAt (t.vt.c - 1)) = 32) = blank then
      backspaceWhile blank color fuel (t.writeBackspace color)
    else t

def deleteLastWord (t : Term) (color : UInt8) : Term :=
  let t := backspaceWhile true color t.vt.c t
  backspaceWhile false color t.vt.c t

/-- `term_internal_write_char2`. -/
def writeChar (t : Term) (c color : UInt8) : Term :=
  if c = 10 then t.incrRow
  else if c = 13 then t.setCol 0
  else if c = 9 then t.writeTab color
  else
    let t := if t.vt.c = t.vt.cols then (t.setCol 0).incrRow else t
    t.writePrintableChar c color

/-! ## Erasing -/

/-- The loop that blanks the cells of the cursor's row from `from` to `to`. -/
def eraseCells (t : Term) (start stop : Nat) : Term :=
  { t with vt := t.vt.setRow t.vt.r ((t.vt.row t.vt.r).mapIdx fun j e => if start ≤ j ∧ j < stop then blankEntry else e) }

def eraseRows (t : Term) (count row : Nat) : Term := { t with vt := Vterm.clearRows count row t.vt }

def reset (t : Term) : Term :=
  let t := { t with vt := { t.vt.moveCur 0 0 with scroll := 0 }, maxScroll := 0 }
  let t := t.eraseRows t.vt.rows 0
  t.setTabs (t.tabs.map fun _ _ => false)

def eraseInDisplay (t : Term) (mode : Nat) : Term :=
  match mode with
  | 0 => (t.eraseCells t.vt.c t.vt.cols).eraseRows (t.vt.rows - (t.vt.r + 1)) (t.vt.r + 1)
  | 1 => (t.eraseRows t.vt.r 0).eraseCells 0 t.vt.c
  | 2 => t.eraseRows t.vt.rows 0
  | 3 => t.reset
  | _ => t

def eraseInLine (t : Term) (mode : Nat) : Term :=
  match mode with
  | 0 => t.eraseCells t.vt.c t.vt.cols
  | 1 => t.eraseCells 0 t.vt.c
  | 2 => t.eraseRows 1 t.vt.r
  | _ => t

def setScrollRegion (t : Term) (start stop : Nat) : Term :=
  let start := min start (t.vt.rows - 1)
  let stop := min stop (t.vt.rows - 1)
  if start ≥ stop then t
  else { t with vt := { t.vt with startScrollRegion := start, endScrollRegion := stop }.moveCur 0 0 }

/-! ## The alternate buffer -/

def screenBlock (t : Term) : List Row := (List.range t.vt.rows).map fun i => t.vt.buffer (t.vt.bufRow 0 + i)

def swapRegion (t : Term) : Term :=
  { t with
    vt := { t.vt with startScrollRegion := t.otherRegion.1, endScrollRegion := t.otherRegion.2 }
    otherRegion := (t.vt.startScrollRegion, t.vt.endScrollRegion) }

def enterAlt (t : Term) : Term :=
  { t.swapRegion with
    altTabs := if t.saved.copy = none then t.altTabs <|> some fun _ => false else t.altTabs
    saved := ⟨some t.screenBlock, t.vt.r, t.vt.c, true⟩ }

/-- The switch back; there is always a copy here. -/
def leaveAlt (t : Term) : Term :=
  let copy := t.saved.copy.getD []
  let first := t.vt.bufRow 0
  let buffer k := if first ≤ k ∧ k < first + t.vt.rows then copy.getD (k - first) [] else t.vt.buffer k
  let t' := t.swapRegion
  { t' with
    vt := { t'.vt with buffer := buffer, r := t.saved.curRow, c := t.saved.curCol }
    saved := { t.saved with usingAlt := false } }

/-- `term_action_use_alt_buffer`; `alloc` says whether `term_allocate_alt_buffers` gets its memory. -/
def useAltBuffer (t : Term) (alloc use : Bool) : Term :=
  if t.saved.usingAlt = use then t
  else if use then
    if t.saved.copy = none ∧ alloc = false then t else t.enterAlt
  else t.leaveAlt

end Term

/-! ## Actions -/

inductive Action
  | none
  | directWrite (buf : List UInt8) (color : UInt8)
  | delPrevChar
  | delPrevWord
  | eraseInDisplay (mode : Nat)
  | eraseInLine (mode : Nat)
  | scroll (lines : Nat) (up : Bool)
  | setColOffset (off : Nat)
  | moveCur (row col : Int)
  | moveCurRel (dr dc : Int)
  | reset
  | pauseOutput
  | restartOutput
  | enableCursor (val : Bool)
  | useAltBuffer (alloc use : Bool)
  | nonBufScroll (n : Nat) (up : Bool)
  | insBlankLines (n : Nat)
  | delLines (n : Nat)
  | setScrollRegion (start stop : Nat)
  | chars (op : CharOp) (n : Nat)

/-- `term_execute_action`. -/
def Term.execute (t : Term) : Action → Term
  | .none | .pauseOutput | .restartOutput | .enableCursor _ => t
  | .directWrite buf color => buf.foldl (fun t c => t.writeChar c color) t
  | .delPrevChar => t.writeBackspace t.currCellColor
  | .delPrevWord => t.deleteLastWord t.currCellColor
  | .eraseInDisplay mode => t.eraseInDisplay mode
  | .eraseInLine mode => t.eraseInLine mode
  | .scroll lines up => if up then t.scrollUp lines else t.scrollDown lines
  | .setColOffset off => { t with colOffset := off }
  | .moveCur row col => { t with vt := t.vt.moveCur row col }
  | .moveCurRel dr dc => { t with vt := t.vt.moveCurRel dr dc }
  | .reset => t.reset
  | .useAltBuffer alloc use => t.useAltBuffer alloc use
  | .nonBufScroll n up => { t with vt := (if up then t.vt.nonBufScrollUp n else t.vt.nonBufScrollDown n).1 }
  | .insBlankLines n => { t with vt := (t.vt.insBlankLines n).1 }
  | .delLines n => { t with vt := (t.vt.delLines n).1 }
  | .setScrollRegion start stop => t.setScrollRegion start stop
  | .chars op n => { t with vt := t.vt.charOp n op }

/-- What the filter makes of one byte: a character to write, with its colour, or none, and an action. -/
structure Filtered where
  char : Option (UInt8 × UInt8)
  action : Action

def Term.writeFiltered (t : Term) (x : Filtered) : Term :=
  (match x.char with
  | Option.none => t
  | some (c, color) => t.writeChar c color).execute x.action

/-- A request to the terminal: `term_action_write` on the filtered bytes, or another action. -/
inductive Request
  | write (xs : List Filtered)
  | action (a : Action)

def Term.request (t : Term) : Request → Term
  | .write xs => xs.foldl Term.writeFiltered t.scrollToBottom
  | .action a => t.execute a

def Term.requests (t : Term) (rs : List Request) : Term := rs.foldl Term.request t

def Action.Leaves : Action → Prop
  | .useAltBuffer _ use => use = false
  | _ => False

def Request.Stays : Request → Prop
  | .write xs => ∀ x ∈ xs, ¬ x.action.Leaves
  | .action a => ¬ a.Leaves

/-! ## What no action touches -/

namespace Vterm

def geometry (t : Vterm) : Nat × Nat × Nat := (t.rows, t.cols, t.totalBufferRows)

variable {t : Vterm}

@[simp] theorem geometry_setRow (i : Nat) (x : Row) : (t.setRow i x).geometry = t.geometry := rfl

@[simp] theorem geometry_bufCopyRow (i j : Nat) : (t.bufCopyRow i j).geometry = t.geometry := by
  unfold bufCopyRow
  split_ifs <;> rfl

@[simp] theorem geometry_copyUp (n count row : Nat) : (copyUp n count row t).geometry = t.geometry := by
  induction count generalizing row t with
  | zero => rfl
  | succ count ih => rw [copyUp, ih, geometry_bufCopyRow]

@[simp] theorem geometry_copyDown (n count row : Nat) : (copyDown n count row t).geometry = t.geometry := by
  induction count generalizing row t with
  | zero => rfl
  | succ count ih => rw [copyDown, ih, geometry_bufCopyRow]

@[simp] theorem geometry_clearRows (count row : Nat) : (clearRows count row t).geometry = t.geometry := by
  induction count generalizing row t with
  | zero => rfl
  | succ count ih => rw [clearRows, ih, bufClearRow, geometry_setRow]

@[simp] theorem geometry_lineOp (op : LineOp) (n : Nat) : (t.lineOp op n).1.geometry = t.geometry := by
  cases op
  case insLines =>
    simp only [lineOp, insBlankLines]
    split_ifs <;> simp
    rfl
  all_goals
    simp only [lineOp, nonBufScrollUp, nonBufScrollDown, delLines]
    split_ifs <;> simp

@[simp] theorem geometry_charOp (op : CharOp) (n : Nat) : (t.charOp n op).geometry = t.geometry := by
  cases op <;> rfl

end Vterm

namespace Term

def frame (t : Term) : Saved × Nat × Nat × Nat := (t.saved, t.vt.geometry)

variable {t : Term}

theorem frame_vt {vt : Vterm} (h : vt.geometry = t.vt.geometry) : ({ t with vt := vt } : Term).frame = t.frame := by
  simp only [frame, h]

@[simp] theorem frame_setCol (col : Nat) : (t.setCol col).frame = t.frame := frame_vt rfl

@[simp] theorem frame_setEntry (col : Nat) (e : UInt16) : (t.setEntry col e).frame = t.frame := by
  unfold setEntry
  split_ifs <;> exact frame_vt rfl

@[simp] theorem frame_setTabs (tabs : Option (Nat → Bool)) : (t.setTabs tabs).frame = t.frame := by
  unfold setTabs
  split_ifs <;> rfl

@[simp] theorem frame_eraseCells (i j : Nat) : (t.eraseCells i j).frame = t.frame := frame_vt rfl

@[simp] theorem frame_eraseRows (n i : Nat) : (t.eraseRows n i).frame = t.frame := frame_vt (by simp)

@[simp] theorem frame_scrollToBottom : t.scrollToBottom.frame = t.frame := by
  unfold scrollToBottom
  split_ifs <;> rfl

@[simp] theorem frame_incrRow : t.incrRow.frame = t.frame := by
  have hup : ∀ vt : Vterm, (vt.nonBufScrollUp 1).1.geometry = vt.geometry := fun vt => vt.geometry_lineOp .scrollUp 1
  unfold incrRow
  dsimp only
  split_ifs
  · rfl
  · exact frame_vt (hup _)
  all_goals rfl

@[simp] theorem frame_writePrintableChar (c color : UInt8) : (t.writePrintableChar c color).frame = t.frame := by
  rw [writePrintableChar, frame_setCol, frame_setEntry]

@[simp] theorem frame_writeTab (color : UInt8) : (t.writeTab color).frame = t.frame := by
  unfold writeTab
  cases t.tabs with
  | none => dsimp only; split_ifs <;> simp
  | some tabs => simp

@[simp] theorem frame_backTab (tabs : Nat → Bool) (n : Nat) : (backTab tabs n t).frame = t.frame := by
  induction n generalizing t with
  | zero => rfl
  | succ n ih =>
    unfold backTab
    split_ifs <;> simp [ih]

@[simp] theorem frame_writeBackspace (color : UInt8) : (t.writeBackspace color).frame = t.frame := by
  unfold writeBackspace
  dsimp only
  split_ifs
  · rfl
  · cases (t.setCol (t.vt.c - 1)).tabs with
    | none => simp
    | some tabs => dsimp only; split_ifs <;> simp

@[simp] theorem frame_backspaceWhile (blank : Bool) (color : UInt8) (fuel : Nat) :
    (backspaceWhile blank color fuel t).frame = t.frame := by
  induction fuel generalizing t with
  | zero => rfl
  | succ fuel ih =>
    unfold backspaceWhile
    split_ifs <;> simp [ih]

@[simp] theorem frame_writeChar (c color : UInt8) : (t.writeChar c color).frame = t.frame := by
  unfold writeChar
  dsimp only
  split_ifs <;> simp

@[simp] theorem frame_reset : t.reset.frame = t.frame := by
  unfold reset
  simp only [frame_setTabs, frame_eraseRows]
  rfl

@[simp] theorem frame_eraseInDisplay (mode : Nat) : (t.eraseInDisplay mode).frame = t.frame := by
  unfold eraseInDisplay
  split <;> simp

@[simp] theorem frame_eraseInLine (mode : Nat) : (t.eraseInLine mode).frame = t.frame := by
  unfold eraseInLine
  split <;> simp

theorem frame_foldl {α : Type} {f : Term → α → Term} {xs : List α} (hf : ∀ t, ∀ x ∈ xs, (f t x).frame = t.frame) :
    (xs.foldl f t).frame = t.frame := by
  induction xs generalizing t with
  | nil => rfl
  | cons x xs ih =>
    rw [List.foldl_cons, ih fun t y hy => hf t y (List.mem_cons_of_mem x hy), hf t x List.mem_cons_self]

theorem frame_execute (halt : t.saved.usingAlt = true) {a : Action} (ha : ¬ a.Leaves) : (t.execute a).frame = t.frame := by
  cases a with
  | directWrite buf color => exact frame_foldl fun t c _ => frame_writeChar c color
  | delPrevChar => exact frame_writeBackspace _
  | delPrevWord => simp only [execute, deleteLastWord, frame_backspaceWhile]
  | eraseInDisplay mode => exact frame_eraseInDisplay mode
  | eraseInLine mode => exact frame_eraseInLine mode
  | scroll lines up =>
    simp only [execute, scrollUp, scrollDown]
    split_ifs <;> rfl
  | reset => exact frame_reset
  | useAltBuffer alloc use =>
    cases use with
    | false => exact absurd rfl ha
    | true => simp only [execute, useAltBuffer, halt, if_true]
  | nonBufScroll n up =>
    cases up with
    | true => exact frame_vt (t.vt.geometry_lineOp .scrollUp n)
    | false => exact frame_vt (t.vt.geometry_lineOp .scrollDown n)
  | insBlankLines n => exact frame_vt (t.vt.geometry_lineOp .insLines n)
  | delLines n => exact frame_vt (t.vt.geometry_lineOp .delLines n)
  | setScrollRegion start stop =>
    simp only [execute, setScrollRegion]
    split_ifs <;> rfl
  | chars op n => exact frame_vt (t.vt.geometry_charOp op n)
  | _ => rfl

theorem usingAlt_of_frame {t' : Term} (h : t'.frame = t.frame) : t'.saved.usingAlt = t.saved.usingAlt :=
  congrArg (fun f => f.1.usingAlt) h

theorem frame_foldl_alt {α : Type} {f : Term → α → Term} {xs : List α} (halt : t.saved.usingAlt = true)
    (hf : ∀ t : Term, t.saved.usingAlt = true → ∀ x ∈ xs, (f t x).frame = t.frame) : (xs.foldl f t).frame = t.frame := by
  induction xs generalizing t with
  | nil => rfl
  | cons x xs ih =>
    have hx := hf t halt x List.mem_cons_self
    rw [List.foldl_cons, ih ((usingAlt_of_frame hx).trans halt) fun t ht y hy => hf t ht y (List.mem_cons_of_mem x hy), hx]

theorem frame_writeFiltered (halt : t.saved.usingAlt = true) {x : Filtered} (hx : ¬ x.action.Leaves) :
    (t.writeFiltered x).frame = t.frame := by
  obtain ⟨char, action⟩ := x
  cases char with
  | none => exact frame_execute halt hx
  | some ch =>
    have hchar : (t.writeChar ch.1 ch.2).frame = t.frame := frame_writeChar _ _
    exact (frame_execute ((usingAlt_of_frame hchar).trans halt) hx).trans hchar

theorem frame_request (halt : t.saved.usingAlt = true) {r : Request} (hr : r.Stays) : (t.request r).frame = t.frame := by
  cases r with
  | write xs =>
    have hbottom : t.scrollToBottom.frame = t.frame := frame_scrollToBottom
    have hxs := frame_foldl_alt (t := t.scrollToBottom) ((usingAlt_of_frame hbottom).trans halt)
      fun t ht x hx => frame_writeFiltered ht (hr x hx)
    exact hxs.trans hbottom
  | action a => exact frame_execute halt hr

theorem frame_requests (halt : t.saved.usingAlt = true) {rs : List Request} (hrs : ∀ r ∈ rs, r.Stays) :
    (t.requests rs).frame = t.frame :=
  frame_foldl_alt halt fun _ ht r hr => frame_request ht (hrs r hr)

/-! ## There and back -/

def Contiguous (t : Term) : Prop :=
  t.vt.scroll + t.vt.rows ≤ 2 ^ 32 ∧ t.vt.scroll % t.vt.totalBufferRows + t.vt.rows ≤ t.vt.totalBufferRows

instance (t : Term) : Decidable t.Contiguous := inferInstanceAs (Decidable (_ ∧ _))

theorem Contiguous.bufRow (h : t.Contiguous) {i : Nat} (hi : i < t.vt.rows) : t.vt.bufRow i = t.vt.bufRow 0 + i := by
  obtain ⟨hu32, hend⟩ := h
  have hsmall : i < t.vt.totalBufferRows := by omega
  unfold Vterm.bufRow u32
  rw [Nat.mod_eq_of_lt (show i + t.vt.scroll < 2 ^ 32 by omega), Nat.zero_add,
    Nat.mod_eq_of_lt (show t.vt.scroll < 2 ^ 32 by omega), Nat.add_mod, Nat.mod_eq_of_lt hsmall,
    Nat.mod_eq_of_lt (by omega), Nat.add_comm]

theorem getD_screenBlock (h : t.Contiguous) {i : Nat} (hi : i < t.vt.rows) : t.screenBlock.getD i [] = t.vt.row i := by
  simp [screenBlock, Vterm.row, h.bufRow hi, hi]

theorem row_leaveAlt (h : t.Contiguous) {i : Nat} (hi : i < t.vt.rows) :
    t.leaveAlt.vt.row i = (t.saved.copy.getD []).getD i [] := by
  have hrow : t.leaveAlt.vt.bufRow i = t.vt.bufRow 0 + i := h.bufRow hi
  rw [Vterm.row, hrow]
  simp only [leaveAlt]
  rw [if_pos (by omega), Nat.add_sub_cancel_left]

end Term

/-- A switch to the alternate buffer, any requests there, and the switch back leave the screen and the cursor as they were, if
the window is in one piece at both switches. -/
theorem useAltBuffer_restores (t : Term) (hmain : t.saved.usingAlt = false) (alloc : Bool)
    (halloc : t.saved.copy = none → alloc = true) (rs : List Request) (hrs : ∀ r ∈ rs, r.Stays)
    (hwin : t.Contiguous) (hwin' : ((t.useAltBuffer alloc true).requests rs).Contiguous) :
    let t' := ((t.useAltBuffer alloc true).requests rs).useAltBuffer alloc false
    t'.vt.r = t.vt.r ∧ t'.vt.c = t.vt.c ∧ ∀ i < t.vt.rows, t'.vt.row i = t.vt.row i := by
  have henter : t.useAltBuffer alloc true = t.enterAlt := by
    unfold Term.useAltBuffer
    rw [hmain, if_neg Bool.false_ne_true, if_pos rfl, if_neg]
    rintro ⟨hnone, hfail⟩
    rw [halloc hnone] at hfail
    exact Bool.false_ne_true hfail.symm
  rw [henter] at hwin' ⊢
  set u := t.enterAlt.requests rs with hu
  have hframe : u.frame = t.enterAlt.frame := Term.frame_requests rfl hrs
  have hsaved : u.saved = ⟨some t.screenBlock, t.vt.r, t.vt.c, true⟩ := congrArg Prod.fst hframe
  have hrows : u.vt.rows = t.vt.rows := congrArg (fun f => f.2.1) hframe
  have hleave : u.useAltBuffer alloc false = u.leaveAlt := by
    simp [Term.useAltBuffer, hsaved]
  rw [hleave]
  refine ⟨?_, ?_, fun i hi => ?_⟩
  · simp only [Term.leaveAlt, hsaved]
  · simp only [Term.leaveAlt, hsaved]
  · rw [Term.row_leaveAlt hwin' (by rwa [hrows]), hsaved]
    exact Term.getD_screenBlock hwin hi

/-- A screen of two rows and one column in a buffer of three rows, scrolled by `scroll` rows. -/
def twoRows (scroll : Nat) : Term where
  vt := ⟨2, 1, 0, 0, 0, 1, scroll, 3, fun i => [UInt16.ofNat i]⟩
  maxScroll := scroll
  extraBufferRows := 1
  colOffset := 0
  tabsize := 8
  scrollsLine := false
  mainTabs := none
  altTabs := none
  otherRegion := (0, 1)
  saved := ⟨none, 0, 0, false⟩

def writeSecond : List Request := [.action (.moveCur 1 0), .write [⟨some (120, 7), .none⟩]]

theorem useAltBuffer_restores_two :
    (((twoRows 1).useAltBuffer true true).requests writeSecond |>.useAltBuffer true false).vt.row 1 = [2] := by
  have hstays : ∀ r ∈ writeSecond, r.Stays := by
    intro r hr
    simp only [writeSecond, List.mem_cons, List.not_mem_nil, or_false] at hr
    obtain rfl | rfl := hr
    · exact id
    · intro x hx
      rw [List.mem_singleton.mp hx]
      exact id
  have h := useAltBuffer_restores (twoRows 1) rfl true (fun _ => rfl) writeSecond hstays (by decide) (by decide)
  exact (h.2.2 1 (by decide)).trans (by decide)

/-- After two rows have scrolled away, the second row of the screen is the first one of the buffer: it is not in the copy, and it
keeps what was written in the alternate buffer. -/
theorem useAltBuffer_loses_row :
    (twoRows 2).vt.row 1 = [0] ∧
      (((twoRows 2).useAltBuffer true true).requests writeSecond |>.useAltBuffer true false).vt.row 1 = [0x0778] := by
  constructor <;> decide

end Usax.Console
