import Usax.Lib.Ring

/-!
# The ring buffer of bytes

`ringbuf.c` for elements of one byte: the operations on one element. The positions stay below `max_elems`, so the `u32`
fields are natural numbers here.

`Ringbuf.contents` is the bytes of the buffer in order. The main results are `Ringbuf.writeElem1_spec`,
`Ringbuf.readElem1_spec` and `Ringbuf.unwriteElem_spec`.
-/

namespace Usax

open Lib

/-- `struct ringbuf` with `elem_size` 1. -/
structure Ringbuf where
  readPos : Nat
  writePos : Nat
  elems : Nat
  maxElems : Nat
  buf : Nat → UInt8

namespace Ringbuf

/-- `memcpy` of `data` to `buf + off`. -/
def memcpyTo (buf : Nat → UInt8) (off : Nat) (data : List UInt8) : Nat → UInt8 := fun i =>
  if off ≤ i then (data[i - off]?).getD (buf i) else buf i

def bytesAt (buf : Nat → UInt8) (off n : Nat) : List UInt8 := (List.range n).map fun i => buf (off + i)

variable (rb : Ringbuf)

def isEmpty : Bool := rb.elems == 0

def isFull : Bool := rb.elems == rb.maxElems

def init (maxElems : Nat) (buf : Nat → UInt8) : Ringbuf := ⟨0, 0, 0, maxElems, buf⟩

def reset : Ringbuf := { rb with readPos := 0, writePos := 0, elems := 0 }

/-- `ringbuf_write_elem1`, which fails if the buffer is full. -/
def writeElem1 (val : UInt8) : Option Ringbuf :=
  if rb.isFull then none
  else some { rb with
    buf := memcpyTo rb.buf rb.writePos [val]
    writePos := (rb.writePos + 1) % rb.maxElems
    elems := rb.elems + 1 }

/-- `ringbuf_read_elem1`, which fails if the buffer is empty. -/
def readElem1 : Option (Ringbuf × UInt8) :=
  if rb.isEmpty then none
  else some ({ rb with readPos := (rb.readPos + 1) % rb.maxElems, elems := rb.elems - 1 }, rb.buf rb.readPos)

/-- `ringbuf_unwrite_elem` with no place for the element. -/
def unwriteElem : Option Ringbuf :=
  if rb.isEmpty then none
  else some { rb with writePos := (rb.maxElems + rb.writePos - 1) % rb.maxElems, elems := rb.elems - 1 }

/-! ## The bytes of the buffer -/

structure Wf : Prop where
  readPos_lt : rb.readPos < rb.maxElems
  elems_le : rb.elems ≤ rb.maxElems
  writePos_eq : rb.writePos = (rb.readPos + rb.elems) % rb.maxElems

/-- The bytes in the buffer, from the oldest to the newest. -/
def contents : List UInt8 := (List.range rb.elems).map fun i => rb.buf ((rb.readPos + i) % rb.maxElems)

variable {rb} {data : List UInt8} {len n : Nat}

@[simp] theorem length_contents : rb.contents.length = rb.elems := by simp [contents]

theorem init_wf {maxElems : Nat} (h : 0 < maxElems) (buf : Nat → UInt8) : (init maxElems buf).Wf :=
  ⟨h, Nat.zero_le _, (Nat.zero_mod _).symm⟩

theorem isEmpty_iff : rb.isEmpty = true ↔ rb.contents = [] := by
  rw [isEmpty, beq_iff_eq, ← length_contents, List.length_eq_zero_iff]

theorem Wf.writePos_lt (h : rb.Wf) : rb.writePos < rb.maxElems := by
  rw [h.writePos_eq]
  exact Nat.mod_lt _ (by have := h.readPos_lt; omega)

theorem Wf.writePos_cases (h : rb.Wf) : rb.readPos + rb.elems < rb.maxElems ∧ rb.writePos = rb.readPos + rb.elems ∨
    rb.maxElems ≤ rb.readPos + rb.elems ∧ rb.writePos = rb.readPos + rb.elems - rb.maxElems := by
  rw [h.writePos_eq]
  exact Ring.end_cases h.readPos_lt h.elems_le

theorem Wf.write (h : rb.Wf) (data : List UInt8) (h₁ : rb.writePos + data.length ≤ rb.maxElems)
    (h₂ : rb.elems + data.length ≤ rb.maxElems) :
    Wf { rb with
      buf := memcpyTo rb.buf rb.writePos data
      writePos := (rb.writePos + data.length) % rb.maxElems
      elems := rb.elems + data.length } ∧
    contents { rb with
      buf := memcpyTo rb.buf rb.writePos data
      writePos := (rb.writePos + data.length) % rb.maxElems
      elems := rb.elems + data.length } = rb.contents ++ data := by
  refine ⟨⟨h.readPos_lt, h₂, ?_⟩, ?_⟩
  · dsimp only
    rw [h.writePos_eq, Nat.mod_add_mod, Nat.add_assoc]
  · rw [h.writePos_eq] at h₁ ⊢
    exact Ring.window_put h.readPos_lt h₂ h₁

theorem Wf.read (h : rb.Wf) (h₁ : rb.readPos + n ≤ rb.maxElems) (h₂ : n ≤ rb.elems) :
    Wf { rb with readPos := (rb.readPos + n) % rb.maxElems, elems := rb.elems - n } ∧
    rb.contents = bytesAt rb.buf rb.readPos n ++
      contents { rb with readPos := (rb.readPos + n) % rb.maxElems, elems := rb.elems - n } := by
  have hr := h.readPos_lt
  have he := h.elems_le
  refine ⟨⟨Nat.mod_lt _ (by omega), by dsimp only; omega, ?_⟩, Ring.window_eq_append h₂ h₁⟩
  dsimp only
  rw [h.writePos_eq, Nat.mod_add_mod]
  congr 1
  omega

/-! ## One element -/

theorem Wf.reset (h : rb.Wf) : rb.reset.Wf :=
  ⟨by have := h.readPos_lt; exact Nat.zero_lt_of_lt this, Nat.zero_le _, (Nat.zero_mod _).symm⟩

@[simp] theorem contents_reset : rb.reset.contents = [] := rfl

/-- **An element is added at the end, if there is space.** -/
theorem writeElem1_spec (h : rb.Wf) (val : UInt8) :
    rb.isFull = true ∧ rb.writeElem1 val = none ∨
    rb.isFull = false ∧ ∃ rb', rb.writeElem1 val = some rb' ∧ rb'.Wf ∧ rb'.contents = rb.contents ++ [val] ∧
      rb'.maxElems = rb.maxElems := by
  unfold writeElem1
  cases hf : rb.isFull with
  | true => exact .inl ⟨rfl, rfl⟩
  | false =>
    have hne : rb.elems ≠ rb.maxElems := by simpa [isFull] using hf
    have he := h.elems_le
    obtain ⟨h₁, h₂⟩ := h.write [val] h.writePos_lt (by simp; omega)
    exact .inr ⟨rfl, _, rfl, h₁, h₂, rfl⟩

/-- **An element is taken from the front, if there is one.** -/
theorem readElem1_spec (h : rb.Wf) :
    rb.contents = [] ∧ rb.readElem1 = none ∨
    ∃ rb' val, rb.readElem1 = some (rb', val) ∧ rb'.Wf ∧ rb.contents = val :: rb'.contents ∧
      rb'.maxElems = rb.maxElems := by
  unfold readElem1
  cases he : rb.isEmpty with
  | true => exact .inl ⟨isEmpty_iff.mp he, rfl⟩
  | false =>
    have hne : rb.elems ≠ 0 := by simpa [isEmpty] using he
    have hr := h.readPos_lt
    obtain ⟨h₁, h₂⟩ := h.read (n := 1) (by omega) (by omega)
    exact .inr ⟨_, _, rfl, h₁, by simpa [bytesAt] using h₂, rfl⟩

/-- **The newest element is taken back, if there is one.** -/
theorem unwriteElem_spec (h : rb.Wf) :
    rb.contents = [] ∧ rb.unwriteElem = none ∨
    ∃ rb', rb.unwriteElem = some rb' ∧ rb'.Wf ∧ rb'.contents = rb.contents.dropLast ∧ rb'.maxElems = rb.maxElems := by
  unfold unwriteElem
  cases he : rb.isEmpty with
  | true => exact .inl ⟨isEmpty_iff.mp he, rfl⟩
  | false =>
    have hne : rb.elems ≠ 0 := by simpa [isEmpty] using he
    have hr := h.readPos_lt
    have hle := h.elems_le
    refine .inr ⟨_, rfl, ⟨hr, by dsimp only; omega, ?_⟩, ?_, rfl⟩
    · dsimp only
      rcases h.writePos_cases with ⟨hlt, hw⟩ | ⟨hge, hw⟩
      · rw [hw, show rb.maxElems + (rb.readPos + rb.elems) - 1 = rb.readPos + (rb.elems - 1) + rb.maxElems by omega,
          Nat.add_mod_right]
      · rw [hw]
        congr 1
        omega
    · obtain ⟨n, hn⟩ : ∃ n, rb.elems = n + 1 := ⟨rb.elems - 1, by omega⟩
      simp [contents, hn, List.range_succ]

end Ringbuf

end Usax
