import Mathlib.Data.Nat.ModEq
import Mathlib.Logic.Function.Basic
import Mathlib.Order.Basic

/-!
# The line operations of the console

The scrolling of the scroll region in `video_term.c`, and the insertion and the deletion of lines in `term_actions.c.h`. The
rows of the terminal are in a circular buffer (`Vterm.bufRow`); the rows behind those of the screen are the ones that have
scrolled away. Each operation is a loop that copies rows, upwards or downwards, and one that clears rows. `Vterm.lineOp` also
counts the rounds of the loops.

`vt102` is what the operations should do. `lineOp_exact` has the conditions under which they do it (`Exact`): only the scrolling
up needs none.
-/

namespace Usax.Console

abbrev Row := List UInt16

/-- `struct vterm` with a buffer, as far as the line operations use it. -/
structure Vterm where
  rows : Nat
  cols : Nat
  r : Nat
  c : Nat
  startScrollRegion : Nat
  endScrollRegion : Nat
  scroll : Nat
  totalBufferRows : Nat
  buffer : Nat → Row

/-- `make_vgaentry(' ', DEFAULT_COLOR16)`. -/
def blankEntry : UInt16 := 0x0720

def u32 (n : Nat) : Nat := n % 2 ^ 32

namespace Vterm

variable (t : Vterm)

def bufRow (row : Nat) : Nat := u32 (row + t.scroll) % t.totalBufferRows

def row (i : Nat) : Row := t.buffer (t.bufRow i)

def blank : Row := List.replicate t.cols blankEntry

def setRow (i : Nat) (x : Row) : Vterm := { t with buffer := Function.update t.buffer (t.bufRow i) x }

def bufCopyRow (dest src : Nat) : Vterm := if dest = src then t else t.setRow dest (t.row src)

def bufClearRow (i : Nat) : Vterm := t.setRow i t.blank

/-- `count` rounds of a loop that copies the rows from `row` on, each from `n` rows below. -/
def copyUp (n : Nat) : (count row : Nat) → Vterm → Vterm
  | 0, _, t => t
  | count + 1, row, t => copyUp n count (row + 1) (t.bufCopyRow row (row + n))

/-- `count` rounds of a loop that copies the rows before `row` downwards, each to `n` rows below. -/
def copyDown (n : Nat) : (count row : Nat) → Vterm → Vterm
  | 0, _, t => t
  | count + 1, row, t => copyDown n count (row - 1) (t.bufCopyRow (u32 (row - 1 + n)) (row - 1))

def clearRows : (count row : Nat) → Vterm → Vterm
  | 0, _, t => t
  | count + 1, row, t => clearRows count (row + 1) (t.bufClearRow row)

/-- `*t->end_scroll_region + 1`. -/
def eR : Nat := t.endScrollRegion + 1

/-- `term_internal_non_buf_scroll_up`, with the rounds of its loops. -/
def nonBufScrollUp (n : Nat) : Vterm × Nat :=
  if n = 0 then (t, 0)
  else
    let n := min n (t.eR - t.startScrollRegion)
    let count := t.eR - n - t.startScrollRegion
    (clearRows n (t.eR - n) (copyUp n count t.startScrollRegion t), count + n)

/-- `term_internal_non_buf_scroll_down`. The first row of the loop is a `u32`. -/
def nonBufScrollDown (n : Nat) : Vterm × Nat :=
  if n = 0 then (t, 0)
  else
    let n := min n t.rows
    let row := u32 (t.eR + 2 ^ 32 - n)
    let count := row - t.startScrollRegion
    (clearRows (n - t.startScrollRegion) t.startScrollRegion (copyDown n count row t), count + (n - t.startScrollRegion))

def insBlankLines (n : Nat) : Vterm × Nat :=
  if n = 0 then (t, 0)
  else if t.eR ≤ t.r then (t, 0)
  else
    let n := min n (t.eR - t.r)
    let count := t.eR - n - t.r
    (clearRows n t.r (copyDown n count (t.eR - n) { t with c := 0 }), count + n)

def delLines (n : Nat) : Vterm × Nat :=
  if n = 0 then (t, 0)
  else if t.eR ≤ t.r then (t, 0)
  else
    let n := min n (t.eR - t.r)
    (clearRows n (t.eR - n) (copyUp n (n + 1) t.r t), n + 1 + n)

end Vterm

inductive LineOp
  | scrollUp | scrollDown | insLines | delLines
deriving DecidableEq, Repr

def Vterm.lineOp (t : Vterm) : LineOp → Nat → Vterm × Nat
  | .scrollUp => t.nonBufScrollUp
  | .scrollDown => t.nonBufScrollDown
  | .insLines => t.insBlankLines
  | .delLines => t.delLines

/-! ## What they should do -/

/-- The rows from `top` to `bot` move up by `n`, and blank ones enter at the bottom. -/
def shiftUp (blank : Row) (top bot n : Nat) (row : Nat → Row) (i : Nat) : Row :=
  if top ≤ i ∧ i < bot then if i + n < bot then row (i + n) else blank else row i

/-- The rows from `top` to `bot` move down by `n`, and blank ones enter at the top. -/
def shiftDown (blank : Row) (top bot n : Nat) (row : Nat → Row) (i : Nat) : Row :=
  if top ≤ i ∧ i < bot then if top + n ≤ i then row (i - n) else blank else row i

/-- The rows after an operation on a VT102. Lines are inserted and deleted only if the cursor is in the scroll region. -/
def vt102 (t : Vterm) (n : Nat) : LineOp → Nat → Row
  | .scrollUp => shiftUp t.blank t.startScrollRegion t.eR n t.row
  | .scrollDown => shiftDown t.blank t.startScrollRegion t.eR n t.row
  | .insLines => if t.startScrollRegion ≤ t.r ∧ t.r < t.eR then shiftDown t.blank t.r t.eR n t.row else t.row
  | .delLines => if t.startScrollRegion ≤ t.r ∧ t.r < t.eR then shiftUp t.blank t.r t.eR n t.row else t.row

/-- The terminals that there are: the region is on the screen and the screen in the buffer, and the numbers of the rows do not
wrap around. -/
structure Vterm.Wf (t : Vterm) : Prop where
  region : t.startScrollRegion ≤ t.endScrollRegion
  region_lt : t.endScrollRegion < t.rows
  rows_lt : t.rows < 2 ^ 16
  rows_le : t.rows ≤ t.totalBufferRows
  scroll_le : t.scroll + t.totalBufferRows ≤ 2 ^ 32

/-- The conditions under which the operations are exact. The scrolling down clears the rows up to `n` as if the region started
at the first one, and takes the rows of the screen for those of the region; the insertion and the deletion do not see whether
the cursor is above the region; and the deletion moves `n + 1` rows up. -/
def Exact (t : Vterm) (n : Nat) : LineOp → Prop
  | .scrollUp => True
  | .scrollDown => n = 0 ∨ min n t.rows ≤ t.eR ∧ (t.startScrollRegion = 0 ∨ min n t.rows = t.eR)
  | .insLines => n = 0 ∨ t.startScrollRegion ≤ t.r
  | .delLines => n = 0 ∨ t.eR ≤ t.r ∨ t.startScrollRegion ≤ t.r ∧ n < t.eR - t.r ∧ t.eR - t.r ≤ 2 * n + 1

instance (t : Vterm) (n : Nat) : ∀ op, Decidable (Exact t n op)
  | .scrollUp => inferInstanceAs (Decidable True)
  | .scrollDown => inferInstanceAs (Decidable (_ ∨ _ ∧ _))
  | .insLines => inferInstanceAs (Decidable (_ ∨ _))
  | .delLines => inferInstanceAs (Decidable (_ ∨ _ ∨ _ ∧ _ ∧ _))

/-- All rows from the cursor on are deleted, and the row that is copied to the one behind the region comes around the buffer. -/
def ComesAround (t : Vterm) (n : Nat) : LineOp → Prop
  | .delLines => t.startScrollRegion ≤ t.r ∧ t.r < t.eR ∧ t.eR - t.r ≤ n ∧ t.totalBufferRows ≤ t.eR + (t.eR - t.r)
  | _ => False

/-! ## Loops -/

namespace Vterm

variable {t : Vterm} {i j n m : Nat} {x : Row}

theorem bufRow_inj (h : t.Wf) (hi : i < t.totalBufferRows) (hj : j < t.totalBufferRows) :
    t.bufRow i = t.bufRow j ↔ i = j := by
  refine ⟨fun he => ?_, fun he => he ▸ rfl⟩
  have hs := h.scroll_le
  unfold bufRow u32 at he
  rw [Nat.mod_eq_of_lt (by omega : i + t.scroll < 2 ^ 32), Nat.mod_eq_of_lt (by omega : j + t.scroll < 2 ^ 32)] at he
  have hmod : i ≡ j [MOD t.totalBufferRows] := Nat.ModEq.add_right_cancel rfl he
  rwa [Nat.ModEq, Nat.mod_eq_of_lt hi, Nat.mod_eq_of_lt hj] at hmod

def withRows (t : Vterm) (b : Nat → Row) : Vterm := { t with buffer := b }

/-- The rows of the terminal are those of `f`, and nothing else is changed. -/
def Has (t t' : Vterm) (f : Nat → Row) : Prop := ∃ b, t' = t.withRows b ∧ ∀ i < t.totalBufferRows, t'.row i = f i

theorem Wf.withRows (h : t.Wf) (b : Nat → Row) : (t.withRows b).Wf := ⟨h.1, h.2, h.3, h.4, h.5⟩

theorem Has.trans {t₁ t₂ : Vterm} {f g : Nat → Row} (h₁ : Has t t₁ f) (h₂ : Has t₁ t₂ g) : Has t t₂ g := by
  obtain ⟨b, rfl, -⟩ := h₁
  obtain ⟨b', rfl, hg⟩ := h₂
  exact ⟨b', rfl, hg⟩

theorem Has.congr {t' : Vterm} {f g : Nat → Row} (h : Has t t' f) (hfg : ∀ i < t.totalBufferRows, f i = g i) : Has t t' g := by
  obtain ⟨b, ht, hf⟩ := h
  exact ⟨b, ht, fun i hi => (hf i hi).trans (hfg i hi)⟩

theorem Has.wf {t' : Vterm} {f : Nat → Row} (h : Has t t' f) (hw : t.Wf) : t'.Wf := by
  obtain ⟨b, rfl, -⟩ := h
  exact hw.withRows b

theorem Has.same {t' : Vterm} {f : Nat → Row} (h : Has t t' f) :
    t'.totalBufferRows = t.totalBufferRows ∧ t'.blank = t.blank := by
  obtain ⟨b, rfl, -⟩ := h
  exact ⟨rfl, rfl⟩

theorem Has.refl (t : Vterm) : Has t t t.row := ⟨t.buffer, rfl, fun _ _ => rfl⟩

theorem has_setRow (h : t.Wf) (hj : j < t.totalBufferRows) (x : Row) :
    Has t (t.setRow j x) fun i => if i = j then x else t.row i := by
  refine ⟨_, rfl, fun i hi => ?_⟩
  show Function.update t.buffer (t.bufRow j) x (t.bufRow i) = if i = j then x else t.row i
  by_cases he : i = j
  · rw [if_pos he, he, Function.update_self]
  · rw [if_neg he, Function.update_of_ne (mt (bufRow_inj h hi hj).mp he)]
    rfl

theorem has_bufCopyRow (h : t.Wf) (hj : j < t.totalBufferRows) (src : Nat) :
    Has t (t.bufCopyRow j src) fun i => if i = j then t.row src else t.row i := by
  unfold bufCopyRow
  split_ifs with he
  · exact (Has.refl t).congr fun i _ => by
      split_ifs with hi
      · rw [hi, he]
      · rfl
  · exact has_setRow h hj _

/-- A loop that copies upwards. No round reads a row that an earlier one has written. -/
theorem has_copyUp (h : t.Wf) (hle : j + m + n ≤ t.totalBufferRows) :
    Has t (copyUp n m j t) fun i => if j ≤ i ∧ i < j + m then t.row (i + n) else t.row i := by
  induction m generalizing j t with
  | zero => exact (Has.refl t).congr fun i _ => (if_neg (by omega)).symm
  | succ m ih =>
    have hcopy := has_bufCopyRow h (by omega : j < t.totalBufferRows) (j + n)
    have hrest := ih (hcopy.wf h) (j := j + 1) (by rw [hcopy.same.1]; omega)
    refine (hcopy.trans hrest).congr fun i hi => ?_
    obtain ⟨b, -, hrow⟩ := hcopy
    beta_reduce at hrow ⊢
    split_ifs with h₁ h₂ h₂
    · rw [hrow _ (by omega), if_neg (by omega)]
    · omega
    · rw [hrow _ hi, if_pos (by omega), show i = j by omega]
    · rw [hrow _ hi, if_neg (by omega)]

theorem has_copyDown (h : t.Wf) (hcount : m ≤ j) (hle : j + n ≤ t.totalBufferRows) :
    Has t (copyDown n m j t) fun i => if j - m + n ≤ i ∧ i < j + n then t.row (i - n) else t.row i := by
  induction m generalizing j t with
  | zero => exact (Has.refl t).congr fun i _ => (if_neg (by omega)).symm
  | succ m ih =>
    have hu : u32 (j - 1 + n) = j - 1 + n := Nat.mod_eq_of_lt (by have := h.scroll_le; omega)
    have hcopy := has_bufCopyRow h (by omega : j - 1 + n < t.totalBufferRows) (j - 1)
    have hrest := ih (hcopy.wf h) (j := j - 1) (by omega) (by rw [hcopy.same.1]; omega)
    rw [copyDown, hu]
    refine (hcopy.trans hrest).congr fun i hi => ?_
    obtain ⟨b, -, hrow⟩ := hcopy
    beta_reduce at hrow ⊢
    split_ifs with h₁ h₂ h₂
    · rw [hrow _ (by omega), if_neg (by omega)]
    · omega
    · rw [hrow _ hi, if_pos (by omega), show i - n = j - 1 by omega]
    · rw [hrow _ hi, if_neg (by omega)]

theorem has_clearRows (h : t.Wf) (hle : j + m ≤ t.totalBufferRows) :
    Has t (clearRows m j t) fun i => if j ≤ i ∧ i < j + m then t.blank else t.row i := by
  induction m generalizing j t with
  | zero => exact (Has.refl t).congr fun i _ => (if_neg (by omega)).symm
  | succ m ih =>
    have hclear := has_setRow h (by omega : j < t.totalBufferRows) t.blank
    have hrest := ih (hclear.wf h) (j := j + 1) (by rw [hclear.same.1]; omega)
    refine (hclear.trans hrest).congr fun i hi => ?_
    rw [hclear.same.2]
    obtain ⟨b, -, hrow⟩ := hclear
    beta_reduce at hrow ⊢
    split_ifs with h₁ h₂ h₂
    · rfl
    · omega
    · rw [hrow _ hi, if_pos (by omega)]
    · rw [hrow _ hi, if_neg (by omega)]

theorem Has.clearRows {t' : Vterm} {f : Nat → Row} (h : Has t t' f) (hw : t.Wf) (hle : j + m ≤ t.totalBufferRows) :
    Has t (clearRows m j t') fun i => if j ≤ i ∧ i < j + m then t.blank else f i := by
  have hclear := has_clearRows (h.wf hw) (m := m) (j := j) (by rw [h.same.1]; exact hle)
  refine (h.trans hclear).congr fun i hi => ?_
  rw [h.same.2]
  obtain ⟨b, -, hrow⟩ := h
  rw [hrow i hi]

/-! ## The operations -/

theorem shiftUp_zero (blank : Row) (top bot : Nat) (row : Nat → Row) : shiftUp blank top bot 0 row = row := by
  funext i
  unfold shiftUp
  split_ifs with h₁ h₂
  · rfl
  · exact absurd h₁.2 h₂
  · rfl

theorem shiftDown_zero (blank : Row) (top bot : Nat) (row : Nat → Row) : shiftDown blank top bot 0 row = row := by
  funext i
  unfold shiftDown
  split_ifs with h₁ h₂
  · rfl
  · exact absurd h₁.1 h₂
  · rfl

theorem has_shiftDown (h : t.Wf) {top bot k : Nat} (hk : k = min n (bot - top)) (htop : top ≤ bot)
    (hbot : bot ≤ t.totalBufferRows) :
    Has t (clearRows k top (copyDown k (bot - k - top) (bot - k) t)) (shiftDown t.blank top bot n t.row) := by
  have hcopy := has_copyDown h (j := bot - k) (n := k) (m := bot - k - top) (by omega) (by omega)
  refine (hcopy.clearRows h (j := top) (m := k) (by omega)).congr fun i hi => ?_
  unfold shiftDown
  split_ifs <;> first | rfl | omega | (congr 1; omega)

theorem nonBufScrollUp_exact (h : t.Wf) (n : Nat) :
    Has t (t.nonBufScrollUp n).1 (shiftUp t.blank t.startScrollRegion t.eR n t.row) ∧
      (t.nonBufScrollUp n).2 ≤ t.eR - t.startScrollRegion := by
  obtain ⟨h₁, h₂, h₃, h₄, h₅⟩ := id h
  unfold nonBufScrollUp
  split_ifs with h0
  · rw [h0, shiftUp_zero]
    exact ⟨Has.refl t, Nat.zero_le _⟩
  · obtain ⟨k, hk⟩ : ∃ k, k = min n (t.eR - t.startScrollRegion) := ⟨_, rfl⟩
    dsimp only
    rw [← hk]
    unfold eR at hk ⊢
    refine ⟨?_, by omega⟩
    have hcopy := has_copyUp h (j := t.startScrollRegion) (n := k) (m := t.endScrollRegion + 1 - k - t.startScrollRegion)
      (by omega)
    refine (hcopy.clearRows h (j := t.endScrollRegion + 1 - k) (m := k) (by omega)).congr fun i hi => ?_
    unfold shiftUp
    split_ifs <;> first | rfl | omega | (congr 1; omega)

theorem u32_sub {k : Nat} (h : t.Wf) (hk : k ≤ t.eR) : u32 (t.eR + 2 ^ 32 - k) = t.eR - k := by
  have h₁ := h.region_lt
  have h₂ := h.rows_lt
  unfold u32 eR at *
  omega

theorem nonBufScrollDown_exact (h : t.Wf) {n : Nat} (he : Exact t n .scrollDown) :
    Has t (t.nonBufScrollDown n).1 (shiftDown t.blank t.startScrollRegion t.eR n t.row) ∧
      (t.nonBufScrollDown n).2 ≤ t.eR - t.startScrollRegion := by
  obtain ⟨h₁, h₂, h₃, h₄, h₅⟩ := id h
  unfold nonBufScrollDown
  split_ifs with h0
  · rw [h0, shiftDown_zero]
    exact ⟨Has.refl t, Nat.zero_le _⟩
  · obtain ⟨hn, hcase⟩ := he.resolve_left h0
    obtain ⟨k, hk⟩ : ∃ k, k = min n t.rows := ⟨_, rfl⟩
    dsimp only
    rw [← hk] at hn hcase ⊢
    rw [u32_sub h hn]
    rcases hcase with hstart | hall
    · rw [hstart]
      unfold eR at hn ⊢
      exact ⟨has_shiftDown h (by omega) (by omega) (by omega), by omega⟩
    · -- the whole region is cleared
      rw [hall, Nat.sub_self, Nat.zero_sub]
      unfold eR at hall ⊢
      refine ⟨(has_clearRows h (by omega)).congr fun i hi => ?_, by omega⟩
      unfold shiftDown
      split_ifs <;> first | rfl | omega

theorem insBlankLines_exact (h : t.Wf) {n : Nat} (he : Exact t n .insLines) :
    (∃ c, Has { t with c := c } (t.insBlankLines n).1 (vt102 t n .insLines)) ∧
      (t.insBlankLines n).2 ≤ t.eR - t.startScrollRegion := by
  obtain ⟨h₁, h₂, h₃, h₄, h₅⟩ := id h
  unfold insBlankLines
  split_ifs with h0 hout
  · rw [show vt102 t n .insLines = t.row by simp [vt102, h0, shiftDown_zero]]
    exact ⟨⟨t.c, Has.refl t⟩, Nat.zero_le _⟩
  · rw [show vt102 t n .insLines = t.row from if_neg fun hin => absurd hin.2 (Nat.not_lt.mpr hout)]
    exact ⟨⟨t.c, Has.refl t⟩, Nat.zero_le _⟩
  · have hin : t.startScrollRegion ≤ t.r ∧ t.r < t.eR := ⟨he.resolve_left h0, Nat.lt_of_not_le hout⟩
    rw [show vt102 t n .insLines = shiftDown t.blank t.r t.eR n t.row from if_pos hin]
    obtain ⟨k, hk⟩ : ∃ k, k = min n (t.eR - t.r) := ⟨_, rfl⟩
    have hw : ({ t with c := 0 } : Vterm).Wf := ⟨h₁, h₂, h₃, h₄, h₅⟩
    dsimp only
    rw [← hk]
    unfold eR at hk hin ⊢
    exact ⟨⟨0, has_shiftDown hw hk (by omega) (by dsimp only; omega)⟩, by omega⟩

theorem copyUp_add (n a b : Nat) (j : Nat) (t : Vterm) : copyUp n (a + b) j t = copyUp n b (j + a) (copyUp n a j t) := by
  induction a generalizing j t with
  | zero => rw [Nat.zero_add]; rfl
  | succ a ih =>
    rw [Nat.succ_add, copyUp, ih, copyUp]
    congr 1
    omega

theorem has_copyUp_outside (h : t.Wf) (hle : j + m ≤ t.totalBufferRows) :
    ∃ f, Has t (copyUp n m j t) f ∧ ∀ i < t.totalBufferRows, i < j ∨ j + m ≤ i → f i = t.row i := by
  induction m generalizing j t with
  | zero => exact ⟨_, Has.refl t, fun _ _ _ => rfl⟩
  | succ m ih =>
    have hcopy := has_bufCopyRow h (by omega : j < t.totalBufferRows) (j + n)
    obtain ⟨f, hf, hout⟩ := ih (hcopy.wf h) (j := j + 1) (by rw [hcopy.same.1]; omega)
    refine ⟨f, hcopy.trans hf, fun i hi hij => ?_⟩
    rw [hout i (by rw [hcopy.same.1]; exact hi) (by omega)]
    obtain ⟨b, -, hrow⟩ := hcopy
    exact (hrow i hi).trans (if_neg (by omega))

theorem delLines_exact (h : t.Wf) {n : Nat} (he : Exact t n .delLines) :
    Has t (t.delLines n).1 (vt102 t n .delLines) ∧ (t.delLines n).2 ≤ 2 * (t.eR - t.startScrollRegion) := by
  obtain ⟨h₁, h₂, h₃, h₄, h₅⟩ := id h
  unfold delLines
  split_ifs with h0 hout
  · rw [show vt102 t n .delLines = t.row by simp [vt102, h0, shiftUp_zero]]
    exact ⟨Has.refl t, Nat.zero_le _⟩
  · rw [show vt102 t n .delLines = t.row from if_neg fun hin => absurd hin.2 (Nat.not_lt.mpr hout)]
    exact ⟨Has.refl t, Nat.zero_le _⟩
  · obtain ⟨hr, hlt, hle⟩ := (he.resolve_left h0).resolve_left hout
    have hin : t.startScrollRegion ≤ t.r ∧ t.r < t.eR := ⟨hr, Nat.lt_of_not_le hout⟩
    rw [show vt102 t n .delLines = shiftUp t.blank t.r t.eR n t.row from if_pos hin]
    dsimp only
    rw [Nat.min_eq_left hlt.le]
    unfold eR at hlt hle hin ⊢
    refine ⟨?_, by omega⟩
    -- the first rounds move the rows that stay; the others fill rows that are cleared afterwards
    obtain ⟨a, ha⟩ : ∃ a, a = t.endScrollRegion + 1 - n - t.r := ⟨_, rfl⟩
    obtain ⟨b, hb⟩ := Nat.exists_eq_add_of_le (by omega : a ≤ n + 1)
    have hcopy := has_copyUp h (j := t.r) (n := n) (m := a) (by omega)
    obtain ⟨f, hf, hframe⟩ := has_copyUp_outside (n := n) (m := b) (hcopy.wf h) (j := t.r + a) (by rw [hcopy.same.1]; omega)
    rw [hcopy.same.1] at hframe
    rw [hb, copyUp_add]
    refine ((hcopy.trans hf).clearRows h (j := t.endScrollRegion + 1 - n) (m := n) (by omega)).congr fun i hi => ?_
    obtain ⟨_, -, hrow⟩ := hcopy
    have hmoved : i < t.endScrollRegion + 1 - n ∨ t.endScrollRegion + 1 ≤ i →
        f i = if t.r ≤ i ∧ i < t.r + a then t.row (i + n) else t.row i := fun hi' => by
      rw [hframe i hi (by omega), hrow i hi]
    unfold shiftUp
    split_ifs with h₁ h₂ h₃
    · omega
    · rfl
    · omega
    · rw [hmoved (by omega), if_pos (by omega)]
    · omega
    · rw [hmoved (by omega), if_neg (by omega)]

/-! ## What goes wrong -/

theorem copyUp_same (n m j : Nat) (t : Vterm) : ∃ b, copyUp n m j t = t.withRows b := by
  induction m generalizing j t with
  | zero => exact ⟨t.buffer, rfl⟩
  | succ m ih =>
    obtain ⟨b, hb⟩ := ih (j + 1) (t.bufCopyRow j (j + n))
    rw [copyUp, hb]
    unfold bufCopyRow
    split_ifs
    · exact ⟨b, rfl⟩
    · exact ⟨b, rfl⟩

/-- A row that is not blank. -/
def mark (t : Vterm) : Row := t.blank ++ [0]

theorem mark_ne_blank (t : Vterm) : t.mark ≠ t.blank := by simp [mark]

/-- All rows are `mark`, but for the row `j`. -/
def marked (t : Vterm) (j : Nat) : Vterm := t.withRows (Function.update (fun _ => t.mark) (t.bufRow j) (t.mark ++ [0]))

theorem row_marked (h : t.Wf) (hj : j < t.totalBufferRows) (hi : i < t.totalBufferRows) :
    (t.marked j).row i = t.mark ↔ i ≠ j := by
  show Function.update (fun _ => t.mark) (t.bufRow j) (t.mark ++ [0]) (t.bufRow i) = t.mark ↔ i ≠ j
  by_cases he : i = j
  · rw [he, Function.update_self]
    simp
  · rw [Function.update_of_ne (mt (bufRow_inj h hi hj).mp he)]
    simp [he]

theorem scrollDown_wrong (h : t.Wf) (he : ¬ Exact t n .scrollDown)
    (hrow : ∀ i < t.totalBufferRows, ((t.withRows fun _ => t.mark).nonBufScrollDown n).1.row i =
      vt102 (t.withRows fun _ => t.mark) n .scrollDown i) :
    2 * (t.eR - t.startScrollRegion) < ((t.withRows fun _ => t.mark).nonBufScrollDown n).2 := by
  obtain ⟨h₁, h₂, h₃, h₄, h₅⟩ := id h
  unfold Exact at he
  rw [not_or, not_and_or, not_or] at he
  obtain ⟨h0, hcase⟩ := he
  by_cases hk : min n t.rows ≤ t.eR
  · -- the last row that should be cleared is left as it was
    exfalso
    obtain ⟨hstart, hne⟩ := hcase.resolve_left (not_not.mpr hk)
    have hn : min n t.rows = n := by unfold eR at hk hne; omega
    have hw := h.withRows fun _ => t.mark
    obtain ⟨i, hi⟩ : ∃ i, i = min (t.startScrollRegion + n) t.eR - 1 := ⟨_, rfl⟩
    have hlt : i < t.totalBufferRows := by unfold eR at hi; omega
    have hcopy := has_copyDown hw (j := t.eR - n) (n := n) (m := t.eR - n - t.startScrollRegion) (by omega)
      (by show _ ≤ t.totalBufferRows; unfold eR at hk ⊢; omega)
    obtain ⟨-, -, hgot⟩ := hcopy.clearRows hw (j := t.startScrollRegion) (m := n - t.startScrollRegion)
      (by show _ ≤ t.totalBufferRows; unfold eR at hk; omega)
    have hwant := hrow i hlt
    unfold nonBufScrollDown at hwant
    rw [if_neg h0] at hwant
    dsimp only at hwant
    rw [show min n (t.withRows fun _ => t.mark).rows = n from hn, u32_sub hw (by rw [← hn]; exact hk)] at hwant
    refine mark_ne_blank t ((?_ : _ = t.mark).symm.trans (hwant.trans ?_))
    · refine (hgot i hlt).trans ?_
      beta_reduce
      unfold eR at hi hk hne
      rw [if_neg (by show ¬(t.startScrollRegion ≤ i ∧ _); omega)]
      split_ifs <;> rfl
    · show shiftDown t.blank t.startScrollRegion t.eR n _ i = t.blank
      unfold eR at hi hk hne
      unfold shiftDown eR
      rw [if_pos (by omega), if_neg (by omega)]
  · unfold nonBufScrollDown u32
    rw [if_neg h0]
    dsimp only [withRows, eR]
    unfold eR at hk
    omega

theorem insLines_wrong (h : t.Wf) (he : ¬ Exact t n .insLines) :
    ((t.withRows fun _ => t.mark).insBlankLines n).1.row t.r ≠ vt102 (t.withRows fun _ => t.mark) n .insLines t.r := by
  obtain ⟨h₁, h₂, h₃, h₄, h₅⟩ := id h
  obtain ⟨h0, hr⟩ := not_or.mp he
  have hin : ¬ t.eR ≤ t.r := by unfold eR; omega
  intro heq
  have hw : ({ t.withRows (fun _ => t.mark) with c := 0 } : Vterm).Wf := ⟨h₁, h₂, h₃, h₄, h₅⟩
  obtain ⟨-, -, hgot⟩ := has_shiftDown hw (rfl : min n (t.eR - t.r) = min n (t.eR - t.r)) (by omega)
    (by show t.eR ≤ t.totalBufferRows; unfold eR; omega)
  have hblank := hgot t.r (by show t.r < t.totalBufferRows; unfold eR at hin; omega)
  unfold insBlankLines at heq
  rw [if_neg h0, if_neg (show ¬ (t.withRows fun _ => t.mark).eR ≤ (t.withRows fun _ => t.mark).r from hin)] at heq
  refine mark_ne_blank t ((?_ : t.mark = _).trans (heq.symm.trans (hblank.trans ?_)))
  · exact (congrFun (if_neg fun hin' => hr hin'.1 : vt102 (t.withRows fun _ => t.mark) n .insLines = _) t.r).symm
  · unfold shiftDown
    rw [if_pos ⟨le_rfl, Nat.lt_of_not_le hin⟩, if_neg (by omega)]
    rfl

theorem delLines_wrong (h : t.Wf) (he : ¬ Exact t n .delLines) (hc : ¬ ComesAround t n .delLines) :
    ∃ b, ∃ i < t.totalBufferRows, ((t.withRows b).delLines n).1.row i ≠ vt102 (t.withRows b) n .delLines i := by
  obtain ⟨h₁, h₂, h₃, h₄, h₅⟩ := id h
  unfold Exact at he
  rw [not_or, not_or, not_and_or, not_and_or] at he
  obtain ⟨h0, hin, hcase⟩ := he
  have hrun (b : Nat → Row) : ((t.withRows b).delLines n).1 = clearRows (min n (t.eR - t.r)) (t.eR - min n (t.eR - t.r))
      (copyUp (min n (t.eR - t.r)) (min n (t.eR - t.r) + 1) t.r (t.withRows b)) := by
    unfold delLines
    rw [if_neg h0, if_neg (show ¬ (t.withRows b).eR ≤ (t.withRows b).r from hin)]
    rfl
  have hend : t.eR ≤ t.totalBufferRows := by unfold eR; omega
  by_cases hr : t.startScrollRegion ≤ t.r
  · have hshift (b : Nat → Row) : vt102 (t.withRows b) n .delLines = shiftUp t.blank t.r t.eR n (t.withRows b).row :=
      if_pos ⟨hr, Nat.lt_of_not_le hin⟩
    obtain ⟨k, hk⟩ : ∃ k, k = min n (t.eR - t.r) := ⟨_, rfl⟩
    by_cases hn : n < t.eR - t.r
    · -- the row after those that are moved stays
      have hgap : ¬ t.eR - t.r ≤ 2 * n + 1 := (hcase.resolve_left (not_not.mpr hr)).resolve_left (not_not.mpr hn)
      have hw := h.withRows (t.marked (t.r + n + 1 + n)).buffer
      refine ⟨(t.marked (t.r + n + 1 + n)).buffer, t.r + n + 1, by omega, fun heq => ?_⟩
      obtain ⟨-, -, hgot⟩ := (has_copyUp hw (j := t.r) (n := k) (m := k + 1) (by show _ ≤ t.totalBufferRows; omega)).clearRows hw
        (j := t.eR - k) (m := k) (by show _ ≤ t.totalBufferRows; omega)
      have hsame := hgot (t.r + n + 1) (by show _ < t.totalBufferRows; omega)
      beta_reduce at hsame
      rw [if_neg (by omega), if_neg (by omega)] at hsame
      rw [hrun, ← hk] at heq
      have hmark := (row_marked h (j := t.r + n + 1 + n) (i := t.r + n + 1) (by omega) (by omega)).mpr (by omega)
      have hwant : (t.marked (t.r + n + 1 + n)).row (t.r + n + 1 + n) = t.mark := by
        rw [← hmark]
        refine Eq.trans ?_ (heq.symm.trans hsame)
        rw [hshift, shiftUp, if_pos (by omega), if_pos (by omega)]
        rfl
      exact (row_marked h (by omega) (by omega)).mp hwant rfl
    · -- a row is copied to the one behind the region
      have haround : t.eR + (t.eR - t.r) < t.totalBufferRows :=
        Nat.lt_of_not_le fun hle => hc ⟨hr, Nat.lt_of_not_le hin, Nat.le_of_not_lt hn, hle⟩
      have hw := h.withRows (t.marked t.eR).buffer
      refine ⟨(t.marked t.eR).buffer, t.eR, by omega, fun heq => ?_⟩
      obtain ⟨-, -, hgot⟩ := (has_copyUp hw (j := t.r) (n := k) (m := k + 1) (by show _ ≤ t.totalBufferRows; omega)).clearRows hw
        (j := t.eR - k) (m := k) (by show _ ≤ t.totalBufferRows; omega)
      have hcopied := hgot t.eR (by show _ < t.totalBufferRows; omega)
      beta_reduce at hcopied
      rw [if_neg (by omega), if_pos (by omega)] at hcopied
      rw [hrun, ← hk] at heq
      have hmark := (row_marked h (j := t.eR) (i := t.eR + k) (by omega) (by omega)).mpr (by omega)
      have hwant : (t.marked t.eR).row t.eR = t.mark := by
        rw [← hmark]
        refine Eq.trans ?_ (heq.symm.trans hcopied)
        rw [hshift, shiftUp, if_neg (by omega)]
        rfl
      exact (row_marked h (by omega) (by omega)).mp hwant rfl
  · refine ⟨fun _ => t.mark, t.eR - 1, by omega, fun heq => ?_⟩
    obtain ⟨b, hb⟩ := copyUp_same (min n (t.eR - t.r)) (min n (t.eR - t.r) + 1) t.r (t.withRows fun _ => t.mark)
    obtain ⟨-, -, hgot⟩ := has_clearRows (h.withRows b) (m := min n (t.eR - t.r)) (j := t.eR - min n (t.eR - t.r))
      (by show _ ≤ t.totalBufferRows; omega)
    rw [hrun, hb] at heq
    have hblank := hgot (t.eR - 1) (by show _ < t.totalBufferRows; omega)
    beta_reduce at hblank
    rw [if_pos (by omega)] at hblank
    refine mark_ne_blank t ((?_ : t.mark = _).trans (heq.symm.trans hblank))
    exact (congrFun (if_neg fun hin' => hr hin'.1 : vt102 (t.withRows fun _ => t.mark) n .delLines = _) _).symm

end Vterm

/-- What the operations are for: the rows of a VT102, nothing else but the column of the cursor changed, and at most two
rounds for each row of the region. -/
def Meets (t : Vterm) (n : Nat) (op : LineOp) : Prop :=
  (∀ i < t.totalBufferRows, (t.lineOp op n).1.row i = vt102 t n op i) ∧
    (∃ b c, (t.lineOp op n).1 = { t with buffer := b, c := c }) ∧
    (t.lineOp op n).2 ≤ 2 * (t.eR - t.startScrollRegion)

theorem meets_of_exact {t : Vterm} (h : t.Wf) {op : LineOp} {n : Nat} (he : Exact t n op) : Meets t n op := by
  cases op with
  | scrollUp =>
    obtain ⟨⟨b, ht, hrow⟩, hcount⟩ := Vterm.nonBufScrollUp_exact h n
    exact ⟨hrow, ⟨b, t.c, ht⟩, by show (t.nonBufScrollUp n).2 ≤ _; omega⟩
  | scrollDown =>
    obtain ⟨⟨b, ht, hrow⟩, hcount⟩ := Vterm.nonBufScrollDown_exact h he
    exact ⟨hrow, ⟨b, t.c, ht⟩, by show (t.nonBufScrollDown n).2 ≤ _; omega⟩
  | insLines =>
    obtain ⟨⟨c, b, ht, hrow⟩, hcount⟩ := Vterm.insBlankLines_exact h he
    exact ⟨hrow, ⟨b, c, ht⟩, by show (t.insBlankLines n).2 ≤ _; omega⟩
  | delLines =>
    obtain ⟨⟨b, ht, hrow⟩, hcount⟩ := Vterm.delLines_exact h he
    exact ⟨hrow, ⟨b, t.c, ht⟩, hcount⟩

/-- **The line operations do what a VT102 does** with whatever is on the screen, if and only if `Exact` holds; a deletion in
which a row comes around the buffer is set aside. -/
theorem lineOp_exact (t : Vterm) (h : t.Wf) (op : LineOp) (n : Nat) :
    ((∀ b, Meets (t.withRows b) n op) ∧ ¬ ComesAround t n op) ↔ Exact t n op := by
  refine ⟨fun ⟨hall, hc⟩ => ?_, fun he => ⟨fun b => meets_of_exact (h.withRows b) he, ?_⟩⟩
  · by_contra he
    cases op with
    | scrollUp => exact he trivial
    | scrollDown =>
      have hcount := (hall fun _ => t.mark).2.2
      exact absurd (Vterm.scrollDown_wrong h he (hall fun _ => t.mark).1) (Nat.not_lt.mpr hcount)
    | insLines =>
      have hr : t.r < t.totalBufferRows := by
        obtain ⟨h₁, h₂, h₃, h₄, h₅⟩ := h
        obtain ⟨-, hr⟩ := not_or.mp he
        omega
      exact Vterm.insLines_wrong h he ((hall fun _ => t.mark).1 t.r hr)
    | delLines =>
      obtain ⟨b, i, hi, hne⟩ := Vterm.delLines_wrong h he hc
      exact hne ((hall b).1 i hi)
  · cases op with
    | delLines =>
      rintro ⟨-, h₁, h₂, h₃⟩
      rcases he with he | he | he
      · omega
      · omega
      · omega
    | _ => exact id

def fourRows (start stop r : Nat) : Vterm := ⟨4, 1, r, 0, start, stop, 0, 4, fun i => [UInt16.ofNat i]⟩

theorem lineOp_exact_delete : Meets (fourRows 0 2 0) 1 .delLines ∧ Meets (fourRows 1 2 0) 3 .scrollDown ∧
    (List.range 4).map (vt102 (fourRows 0 2 0) 1 .delLines) = [[1], [2], [blankEntry], [3]] :=
  ⟨((lineOp_exact (fourRows 0 2 0) ⟨by decide, by decide, by decide, by decide, by decide⟩ .delLines 1).mpr (by decide)).1 _,
    ((lineOp_exact (fourRows 1 2 0) ⟨by decide, by decide, by decide, by decide, by decide⟩ .scrollDown 3).mpr (by decide)).1 _,
    by decide⟩

/-- A line deleted at the top of four; a region that does not start at the first row scrolled down by one; lines inserted above
the region; and the rounds of a region of two rows that is scrolled down by three. -/
theorem lineOps_differ :
    ((fourRows 0 3 0).lineOp .delLines 1).1.row 2 = [2] ∧ vt102 (fourRows 0 3 0) 1 .delLines 2 = [3] ∧
      ((fourRows 1 3 1).lineOp .scrollDown 1).1.row 1 = [1] ∧ vt102 (fourRows 1 3 1) 1 .scrollDown 1 = [blankEntry] ∧
      ((fourRows 1 3 0).lineOp .insLines 1).1.row 0 = [blankEntry] ∧ vt102 (fourRows 1 3 0) 1 .insLines 0 = [0] ∧
      ((fourRows 0 1 0).lineOp .scrollDown 3).2 = 2 ^ 32 + 2 := by decide

end Usax.Console
