import Usax.Ringbuf.Ringbuf

/-!
# Ring buffers of elements

`ringbuf.c` for elements of any size, with the bulk calls for bytes. The fields are `u32`, and so are the sums and the products
of them; `size_t` values that are added to them stay below the capacity.

`Deque.call` is what the calls are for: a queue of at most `cap` elements that is written and taken back at one end and read at
the other. `RingbufN.call_refines` says that a call of the ring buffer does what it does to the queue of its elements
(`RingbufN.contents`); `bounded_deque` says so of sequences of calls.
-/

namespace Usax

open Lib

/-- `struct ringbuf`. -/
structure RingbufN where
  readPos : Nat
  writePos : Nat
  elems : Nat
  maxElems : Nat
  elemSize : Nat
  buf : Nat → UInt8

namespace RingbufN

open Ringbuf (memcpyTo bytesAt)

def u32 (n : Nat) : Nat := n % 2 ^ 32

/-- `ringbuf_init`. -/
def init (maxElems elemSize : Nat) (buf : Nat → UInt8) : RingbufN := ⟨0, 0, 0, u32 maxElems, u32 elemSize, buf⟩

variable (rb : RingbufN)

def isEmpty : Bool := rb.elems == 0

def isFull : Bool := rb.elems == rb.maxElems

def reset : RingbufN := { rb with readPos := 0, writePos := 0, elems := 0 }

/-- `ringbuf_write_elem`, for the bytes at `elem_ptr`. -/
def writeElem (elem : List UInt8) : Option RingbufN :=
  if rb.isFull then none
  else some { rb with
    buf := memcpyTo rb.buf (u32 (rb.writePos * rb.elemSize)) elem
    writePos := u32 (rb.writePos + 1) % rb.maxElems
    elems := u32 (rb.elems + 1) }

def readElem : Option (RingbufN × List UInt8) :=
  if rb.isEmpty then none
  else some ({ rb with readPos := u32 (rb.readPos + 1) % rb.maxElems, elems := rb.elems - 1 },
    bytesAt rb.buf (u32 (rb.readPos * rb.elemSize)) rb.elemSize)

def unwriteElem : Option (RingbufN × List UInt8) :=
  if rb.isEmpty then none
  else
    let writePos := u32 (rb.maxElems + rb.writePos + (2 ^ 32 - 1)) % rb.maxElems
    some ({ rb with writePos := writePos, elems := rb.elems - 1 },
      bytesAt rb.buf (u32 (writePos * rb.elemSize)) rb.elemSize)

/-- `ringbuf_write_bytes`, with how many bytes it writes. There is no result if an assertion fails. -/
def writeBytes (data : List UInt8) : Option (RingbufN × Nat) :=
  if rb.elemSize ≠ 1 then none
  else if rb.isFull then some (rb, 0)
  else if rb.writePos < rb.readPos then
    let n := min data.length (rb.readPos - rb.writePos)
    some ({ rb with
      buf := memcpyTo rb.buf rb.writePos (data.take n)
      writePos := u32 (rb.writePos + n)
      elems := u32 (rb.elems + n) }, n)
  else
    let n := min data.length (rb.maxElems - rb.writePos)
    let rb₁ := { rb with
      buf := memcpyTo rb.buf rb.writePos (data.take n)
      writePos := (rb.writePos + n) % rb.maxElems
      elems := u32 (rb.elems + n) }
    if n = data.length then some (rb₁, n)
    else if rb₁.writePos ≠ 0 then none
    else
      let n₂ := min (data.length - n) rb₁.readPos
      some ({ rb₁ with
        buf := memcpyTo rb₁.buf 0 ((data.drop n).take n₂)
        writePos := u32 (rb₁.writePos + n₂)
        elems := u32 (rb₁.elems + n₂) }, n + n₂)

/-- `ringbuf_read_bytes`, with the bytes that it reads. There is no result if an assertion fails. -/
def readBytes (len : Nat) : Option (RingbufN × List UInt8) :=
  if rb.elemSize ≠ 1 then none
  else if rb.isEmpty then some (rb, [])
  else if rb.readPos < rb.writePos then
    let n := min len (rb.writePos - rb.readPos)
    some ({ rb with readPos := u32 (rb.readPos + n), elems := rb.elems - n }, bytesAt rb.buf rb.readPos n)
  else
    let n := min len (rb.maxElems - rb.readPos)
    let rb₁ := { rb with readPos := (rb.readPos + n) % rb.maxElems, elems := rb.elems - n }
    if n = len then some (rb₁, bytesAt rb.buf rb.readPos n)
    else if rb₁.readPos ≠ 0 then none
    else
      let n₂ := min (len - n) rb₁.writePos
      some ({ rb₁ with readPos := u32 (rb₁.readPos + n₂), elems := rb₁.elems - n₂ },
        bytesAt rb.buf rb.readPos n ++ bytesAt rb.buf 0 n₂)

end RingbufN

/-! ## Calls -/

inductive RingCall
  | writeElem (elem : List UInt8)
  | readElem
  | unwriteElem
  | writeBytes (data : List UInt8)
  | readBytes (len : Nat)
  | reset
  | getElems

inductive RingAnswer
  | done (ok : Bool)
  | elem (e : Option (List UInt8))
  | count (n : Nat)
  | bytes (bs : List UInt8)
  | assertion
deriving DecidableEq

/-- Elements have the size of the ring, and the byte calls are for elements of one byte. -/
def RingCall.Fits (elemSize : Nat) : RingCall → Prop
  | .writeElem elem => elem.length = elemSize
  | .writeBytes _ | .readBytes _ => elemSize = 1
  | .readElem | .unwriteElem | .reset | .getElems => True

def RingbufN.call (rb : RingbufN) : RingCall → RingAnswer × RingbufN
  | .writeElem elem => (rb.writeElem elem).elim (.done false, rb) fun rb' => (.done true, rb')
  | .readElem => rb.readElem.elim (.elem none, rb) fun r => (.elem (some r.2), r.1)
  | .unwriteElem => rb.unwriteElem.elim (.elem none, rb) fun r => (.elem (some r.2), r.1)
  | .writeBytes data => (rb.writeBytes data).elim (.assertion, rb) fun r => (.count r.2, r.1)
  | .readBytes len => (rb.readBytes len).elim (.assertion, rb) fun r => (.bytes r.2, r.1)
  | .reset => (.done true, rb.reset)
  | .getElems => (.count rb.elems, rb)

/-- The same call of a queue of at most `cap` elements, the oldest one first. -/
def Deque.call (cap : Nat) (q : List (List UInt8)) : RingCall → RingAnswer × List (List UInt8)
  | .writeElem elem => if q.length < cap then (.done true, q ++ [elem]) else (.done false, q)
  | .readElem => (.elem q.head?, q.tail)
  | .unwriteElem => (.elem q.getLast?, q.dropLast)
  | .writeBytes data =>
    let n := min data.length (cap - q.length)
    (.count n, q ++ (data.take n).map ([·]))
  | .readBytes len => (.bytes (q.take (min len q.length)).flatten, q.drop (min len q.length))
  | .reset => (.done true, [])
  | .getElems => (.count q.length, q)

def answers {S : Type} (call : S → RingCall → RingAnswer × S) : S → List RingCall → List RingAnswer
  | _, [] => []
  | s, c :: cs => (call s c).1 :: answers call (call s c).2 cs

namespace RingbufN

open Ringbuf (memcpyTo bytesAt)

/-! ## The elements of the buffer -/

def slotOf (buf : Nat → UInt8) (elemSize k : Nat) : List UInt8 := bytesAt buf (k * elemSize) elemSize

/-- The elements in the buffer, from the oldest to the newest. -/
def contents (rb : RingbufN) : List (List UInt8) := Ring.window (slotOf rb.buf rb.elemSize) rb.maxElems rb.readPos rb.elems

/-- A ring of `cap` elements of `es` bytes whose sums and products are below `2 ^ 32`. -/
structure Wf (cap es : Nat) (rb : RingbufN) : Prop where
  maxElems : rb.maxElems = cap
  elemSize : rb.elemSize = es
  cap_le : cap ≤ 2 ^ 31
  bytes_le : cap * es ≤ 2 ^ 32
  readPos_lt : 0 < cap → rb.readPos < cap
  elems_le : rb.elems ≤ cap
  writePos_eq : rb.writePos = (rb.readPos + rb.elems) % cap

variable {rb : RingbufN} {cap es n : Nat} {buf : Nat → UInt8}

theorem u32_of_le (h : n ≤ 2 ^ 31 + 1) : u32 n = n := Nat.mod_eq_of_lt (by omega)

theorem length_contents : rb.contents.length = rb.elems := Ring.length_window

theorem length_slotOf {k : Nat} : (slotOf buf es k).length = es := by simp [slotOf, bytesAt]

theorem Wf.offset (h : Wf cap es rb) {k : Nat} (hk : k < cap) : u32 (k * es) = k * es := by
  rcases Nat.eq_zero_or_pos es with rfl | hes
  · rfl
  · have := Nat.mul_lt_mul_of_pos_right hk hes
    exact Nat.mod_eq_of_lt (this.trans_le h.bytes_le)

theorem slotOf_memcpyTo {w : Nat} {elem : List UInt8} (h : elem.length = es) :
    slotOf (memcpyTo buf (w * es) elem) es = Ring.put (slotOf buf es) w [elem] := by
  funext k
  have hbyte : ∀ i < es, memcpyTo buf (w * es) elem (k * es + i) = if k = w then elem.getD i 0 else buf (k * es + i) := by
    intro i hi
    split_ifs with hkw
    · rw [hkw, List.getD_eq_getElem _ _ (h ▸ hi)]
      exact Ring.put_inside (h ▸ hi)
    · refine Ring.put_outside ?_
      rcases Nat.lt_or_gt_of_ne hkw with hlt | hgt
      · have := Nat.mul_le_mul_right es hlt
        rw [Nat.succ_mul] at this
        omega
      · have := Nat.mul_le_mul_right es hgt
        rw [Nat.succ_mul] at this
        omega
  have hput : Ring.put (slotOf buf es) w [elem] k = if k = w then elem else slotOf buf es k := by
    split_ifs with hkw
    · rw [hkw]
      have hone : 0 < [elem].length := Nat.one_pos
      exact Ring.put_inside hone
    · exact Ring.put_outside (by rw [List.length_singleton]; omega)
  rw [hput]
  refine List.ext_getElem ?_ fun i hi _ => ?_
  · split_ifs <;> simp [length_slotOf, h]
  · have hi : i < es := by rwa [length_slotOf] at hi
    simp only [slotOf, bytesAt, List.getElem_map, List.getElem_range, hbyte i hi]
    split_ifs with hkw
    · exact List.getD_eq_getElem _ _ (h ▸ hi)
    · simp only [List.getElem_map, List.getElem_range]

theorem slotOf_memcpyTo_bytes (off : Nat) (data : List UInt8) :
    slotOf (memcpyTo buf off data) 1 = Ring.put (slotOf buf 1) off (data.map ([·])) := by
  funext k
  by_cases hk : off ≤ k
  · simp only [slotOf, bytesAt, memcpyTo, Ring.put, hk, List.range_one, List.map_cons, List.map_nil, Nat.mul_one, Nat.add_zero,
      if_true, List.getElem?_map]
    cases data[k - off]? <;> rfl
  · simp only [slotOf, bytesAt, memcpyTo, Ring.put, hk, List.range_one, List.map_cons, List.map_nil, Nat.mul_one, Nat.add_zero,
      if_false]

theorem flatten_bytes {off : Nat} : ((List.range n).map fun i => slotOf buf 1 (off + i)).flatten = bytesAt buf off n := by
  have hslot : ∀ k, slotOf buf 1 k = [buf k] := fun k => by simp [slotOf, bytesAt]
  simp only [hslot]
  rw [← List.flatMap_def, ← List.map_eq_flatMap, bytesAt]

theorem Wf.push (h : Wf cap es rb) {l : List (List UInt8)}
    (hbuf : slotOf buf es = Ring.put (slotOf rb.buf es) rb.writePos l) (hcap : 0 < cap)
    (hfit : rb.elems + l.length ≤ cap) (hwrap : rb.writePos + l.length ≤ cap) :
    Wf cap es { rb with
      buf := buf, writePos := (rb.writePos + l.length) % rb.maxElems, elems := rb.elems + l.length } ∧
    contents { rb with
      buf := buf, writePos := (rb.writePos + l.length) % rb.maxElems, elems := rb.elems + l.length } =
        rb.contents ++ l := by
  obtain ⟨rfl, rfl, h₁, h₂, hr, he, hw⟩ := h
  refine ⟨⟨rfl, rfl, h₁, h₂, hr, hfit, ?_⟩, ?_⟩
  · dsimp only
    rw [hw, Nat.mod_add_mod, Nat.add_assoc]
  · rw [hw] at hwrap hbuf
    unfold contents
    dsimp only
    rw [hbuf]
    exact Ring.window_put (hr hcap) hfit hwrap

theorem Wf.pop (h : Wf cap es rb) (hcap : 0 < cap) (hn : n ≤ rb.elems) (hwrap : rb.readPos + n ≤ cap) :
    Wf cap es { rb with readPos := (rb.readPos + n) % rb.maxElems, elems := rb.elems - n } ∧
    rb.contents = ((List.range n).map fun i => slotOf rb.buf es (rb.readPos + i)) ++
      contents { rb with readPos := (rb.readPos + n) % rb.maxElems, elems := rb.elems - n } := by
  obtain ⟨rfl, rfl, h₁, h₂, hr, he, hw⟩ := h
  refine ⟨⟨rfl, rfl, h₁, h₂, fun _ => Nat.mod_lt _ hcap, (Nat.sub_le _ _).trans he, ?_⟩, Ring.window_eq_append hn hwrap⟩
  dsimp only
  rw [hw, Nat.mod_add_mod]
  congr 1
  omega

theorem init_wf (hcap : cap ≤ 2 ^ 31) (hes : es < 2 ^ 32) (hbytes : cap * es ≤ 2 ^ 32) (buf : Nat → UInt8) :
    Wf cap es (init cap es buf) :=
  ⟨u32_of_le (hcap.trans (by omega)), Nat.mod_eq_of_lt hes, hcap, hbytes, fun h => h, Nat.zero_le _, (Nat.zero_mod _).symm⟩

theorem Wf.isFull_iff (h : Wf cap es rb) : rb.isFull = true ↔ rb.elems = cap := by
  rw [isFull, beq_iff_eq, h.maxElems]

theorem Wf.writePos_lt (h : Wf cap es rb) (hcap : 0 < cap) : rb.writePos < cap := by
  rw [h.writePos_eq]
  exact Nat.mod_lt _ hcap

/-! ## One call -/

/-- The answer of the queue of the elements, and the elements after it. -/
def Refines (cap es : Nat) (rb : RingbufN) (c : RingCall) : Prop :=
  (rb.call c).1 = (Deque.call cap rb.contents c).1 ∧ Wf cap es (rb.call c).2 ∧
    (rb.call c).2.contents = (Deque.call cap rb.contents c).2

theorem Wf.writeElem (h : Wf cap es rb) {elem : List UInt8} (hlen : elem.length = es) :
    Refines cap es rb (.writeElem elem) := by
  have hle := h.elems_le
  by_cases hf : rb.elems = cap
  · have hcall : rb.call (.writeElem elem) = (.done false, rb) := by
      simp only [call, RingbufN.writeElem, h.isFull_iff.mpr hf, if_true, Option.elim_none]
    simp only [Refines, hcall, Deque.call, length_contents, hf, lt_irrefl, if_false, h, and_self]
  · have hcap : 0 < cap := by omega
    have hw := h.writePos_lt hcap
    have hfull : rb.isFull = false := Bool.eq_false_iff.mpr (mt h.isFull_iff.mp hf)
    have hcall : rb.call (.writeElem elem) = (.done true, { rb with
        buf := memcpyTo rb.buf (rb.writePos * es) elem, writePos := (rb.writePos + 1) % rb.maxElems
        elems := rb.elems + 1 }) := by
      have := h.cap_le
      simp only [call, RingbufN.writeElem, hfull, Bool.false_eq_true, if_false, Option.elim_some, h.elemSize, h.offset hw,
        u32_of_le (by omega : rb.writePos + 1 ≤ 2 ^ 31 + 1), u32_of_le (by omega : rb.elems + 1 ≤ 2 ^ 31 + 1)]
    obtain ⟨hwf, hc⟩ := h.push (l := [elem]) (slotOf_memcpyTo hlen) hcap (by simp; omega) (by simp; omega)
    simp only [Refines, hcall, Deque.call, length_contents, if_pos (lt_of_le_of_ne hle hf)]
    exact ⟨trivial, hwf, hc⟩

theorem Wf.readElem (h : Wf cap es rb) : Refines cap es rb .readElem := by
  have hle := h.elems_le
  rcases Nat.eq_zero_or_pos rb.elems with he | he
  · have hnil : rb.contents = [] := List.eq_nil_of_length_eq_zero (length_contents.trans he)
    have hcall : rb.call .readElem = (.elem none, rb) := by simp [call, RingbufN.readElem, isEmpty, he]
    simp [Refines, hcall, Deque.call, hnil, h]
  · have hcap : 0 < cap := by omega
    have hr := h.readPos_lt hcap
    have hcall : rb.call .readElem = (.elem (some (slotOf rb.buf es rb.readPos)),
        { rb with readPos := (rb.readPos + 1) % rb.maxElems, elems := rb.elems - 1 }) := by
      have := h.cap_le
      simp only [call, RingbufN.readElem, isEmpty, beq_iff_eq, Nat.ne_of_gt he, if_false, Option.elim_some, h.elemSize, slotOf,
        h.offset hr, u32_of_le (by omega : rb.readPos + 1 ≤ 2 ^ 31 + 1)]
    obtain ⟨hwf, hc⟩ := h.pop (n := 1) hcap he (by omega)
    rw [List.range_one, List.map_singleton, Nat.add_zero, List.singleton_append] at hc
    simp only [Refines, hcall, Deque.call, hc, List.head?_cons, List.tail_cons]
    exact ⟨trivial, hwf, trivial⟩

theorem Wf.unwriteElem (h : Wf cap es rb) : Refines cap es rb .unwriteElem := by
  have hle := h.elems_le
  rcases Nat.eq_zero_or_pos rb.elems with he | he
  · have hnil : rb.contents = [] := List.eq_nil_of_length_eq_zero (length_contents.trans he)
    have hcall : rb.call .unwriteElem = (.elem none, rb) := by simp [call, RingbufN.unwriteElem, isEmpty, he]
    simp [Refines, hcall, Deque.call, hnil, h]
  · have hcap : 0 < cap := by omega
    have hr := h.readPos_lt hcap
    have hw := h.writePos_lt hcap
    -- the position before the end of the window
    have hpos : u32 (rb.maxElems + rb.writePos + (2 ^ 32 - 1)) % rb.maxElems = (rb.readPos + (rb.elems - 1)) % cap := by
      have hcle := h.cap_le
      have hu : u32 (rb.maxElems + rb.writePos + (2 ^ 32 - 1)) = cap + rb.writePos - 1 := by
        rw [h.maxElems, u32]
        omega
      rw [hu, h.maxElems, h.writePos_eq]
      rcases Ring.end_cases hr hle with ⟨hlt, heq⟩ | ⟨hge, heq⟩ <;> rw [heq]
      · rw [show cap + (rb.readPos + rb.elems) - 1 = rb.readPos + (rb.elems - 1) + cap by omega, Nat.add_mod_right]
      · rw [show cap + (rb.readPos + rb.elems - cap) - 1 = rb.readPos + (rb.elems - 1) by omega]
    have hlt : (rb.readPos + (rb.elems - 1)) % cap < cap := Nat.mod_lt _ hcap
    have hcall : rb.call .unwriteElem = (.elem (some (slotOf rb.buf es ((rb.readPos + (rb.elems - 1)) % cap))),
        { rb with writePos := (rb.readPos + (rb.elems - 1)) % cap, elems := rb.elems - 1 }) := by
      simp only [call, RingbufN.unwriteElem, isEmpty, beq_iff_eq, Nat.ne_of_gt he, if_false, Option.elim_some, hpos, h.elemSize,
        slotOf, h.offset hlt]
    have hc : rb.contents = contents { rb with writePos := (rb.readPos + (rb.elems - 1)) % cap, elems := rb.elems - 1 } ++
        [slotOf rb.buf es ((rb.readPos + (rb.elems - 1)) % cap)] := by
      have : Ring.window (slotOf rb.buf rb.elemSize) rb.maxElems rb.readPos (rb.elems - 1 + 1) = _ := Ring.window_succ
      rw [Nat.sub_add_cancel he, h.maxElems, h.elemSize] at this
      simpa only [contents, h.maxElems, h.elemSize] using this
    simp only [Refines, hcall, Deque.call, hc, List.getLast?_append, List.getLast?_singleton, Option.some_or,
      List.dropLast_concat]
    exact ⟨trivial, ⟨h.maxElems, h.elemSize, h.cap_le, h.bytes_le, h.readPos_lt, by dsimp only; omega, rfl⟩, trivial⟩

theorem Wf.pushBytes (h : Wf cap 1 rb) {d : List UInt8} (hcap : 0 < cap) (hfit : rb.elems + d.length ≤ cap)
    (hwrap : rb.writePos + d.length ≤ cap) :
    Wf cap 1 { rb with
      buf := memcpyTo rb.buf rb.writePos d
      writePos := (rb.writePos + d.length) % cap
      elems := rb.elems + d.length } ∧
    contents { rb with
      buf := memcpyTo rb.buf rb.writePos d
      writePos := (rb.writePos + d.length) % cap
      elems := rb.elems + d.length } = rb.contents ++ d.map ([·]) := by
  obtain rfl := h.maxElems
  have hpush := h.push (slotOf_memcpyTo_bytes rb.writePos d) hcap (by simpa using hfit) (by simpa using hwrap)
  rwa [List.length_map] at hpush

theorem Wf.writeBytes (h : Wf cap 1 rb) (data : List UInt8) : Refines cap 1 rb (.writeBytes data) := by
  have hle := h.elems_le
  by_cases hf : rb.elems = cap
  · have hcall : rb.call (.writeBytes data) = (.count 0, rb) := by
      simp [call, RingbufN.writeBytes, h.elemSize, h.isFull_iff.mpr hf]
    simp [Refines, hcall, Deque.call, length_contents, hf, h]
  have hcap : 0 < cap := by omega
  have hcle := h.cap_le
  have hr := h.readPos_lt hcap
  have hfull : rb.isFull = false := Bool.eq_false_iff.mpr (mt h.isFull_iff.mp hf)
  have hend := Ring.end_cases hr hle
  rw [← h.writePos_eq] at hend
  obtain ⟨n, hn⟩ : ∃ n, n = min data.length (cap - rb.elems) := ⟨_, rfl⟩
  -- in each case the same bytes are written, in one part or in two
  suffices hs : ∃ rb', rb.call (.writeBytes data) = (.count n, rb') ∧ Wf cap 1 rb' ∧
      rb'.contents = rb.contents ++ (data.take n).map ([·]) by
    obtain ⟨rb', hcall, hwf, hc⟩ := hs
    simp only [Refines, hcall, Deque.call, length_contents, ← hn]
    exact ⟨trivial, hwf, hc⟩
  by_cases hlt : rb.writePos < rb.readPos
  · have hn' : min data.length (rb.readPos - rb.writePos) = n := by omega
    have hlen : (data.take n).length = n := by simp; omega
    obtain ⟨hwf, hc⟩ := h.pushBytes (d := data.take n) hcap (by omega) (by omega)
    rw [hlen, Nat.mod_eq_of_lt (by omega : rb.writePos + n < cap)] at hwf hc
    refine ⟨_, ?_, hwf, hc⟩
    simp [call, RingbufN.writeBytes, h.elemSize, hfull, hlt, hn', u32_of_le (by omega : rb.writePos + n ≤ 2 ^ 31 + 1),
      u32_of_le (by omega : rb.elems + n ≤ 2 ^ 31 + 1)]
  · obtain ⟨k, hk⟩ : ∃ k, k = min data.length (cap - rb.writePos) := ⟨_, rfl⟩
    have hlen : (data.take k).length = k := by simp; omega
    obtain ⟨hwf, hc⟩ := h.pushBytes (d := data.take k) hcap (by omega) (by omega)
    rw [hlen] at hwf hc
    by_cases hall : k = data.length
    · have hkn : k = n := by omega
      refine ⟨_, ?_, hwf, by rw [hc, hkn]⟩
      simp [call, RingbufN.writeBytes, h.elemSize, h.maxElems, hfull, hlt, ← hk, ← hkn, hall,
        u32_of_le (by omega : rb.elems + data.length ≤ 2 ^ 31 + 1)]
    · obtain ⟨k₂, hk₂⟩ : ∃ k₂, k₂ = min (data.length - k) rb.readPos := ⟨_, rfl⟩
      have hzero : (rb.writePos + k) % cap = 0 := by
        rw [show rb.writePos + k = cap by omega, Nat.mod_self]
      have hlen₂ : ((data.drop k).take k₂).length = k₂ := by simp; omega
      rw [hzero] at hwf hc
      obtain ⟨hwf₂, hc₂⟩ := hwf.pushBytes (d := (data.drop k).take k₂) hcap (by dsimp only; omega) (by dsimp only; omega)
      rw [hlen₂, hc] at hc₂
      rw [hlen₂] at hwf₂
      dsimp only at hwf₂ hc₂
      rw [Nat.zero_add, Nat.mod_eq_of_lt (by omega : k₂ < cap)] at hwf₂ hc₂
      refine ⟨_, ?_, hwf₂, ?_⟩
      · have hsum : k + k₂ = n := by omega
        simp [call, RingbufN.writeBytes, h.elemSize, h.maxElems, hfull, hlt, ← hk, ← hk₂, hall, hzero, hsum,
          u32_of_le (by omega : rb.elems + k ≤ 2 ^ 31 + 1), u32_of_le (by omega : k₂ ≤ 2 ^ 31 + 1),
          u32_of_le (by omega : rb.elems + k + k₂ ≤ 2 ^ 31 + 1)]
      · rw [hc₂, show n = k + k₂ by omega, List.take_add, List.map_append, List.append_assoc]

theorem Wf.readBytes (h : Wf cap 1 rb) (len : Nat) : Refines cap 1 rb (.readBytes len) := by
  have hle := h.elems_le
  rcases Nat.eq_zero_or_pos rb.elems with he | he
  · have hnil : rb.contents = [] := List.eq_nil_of_length_eq_zero (length_contents.trans he)
    have hcall : rb.call (.readBytes len) = (.bytes [], rb) := by
      simp [call, RingbufN.readBytes, h.elemSize, isEmpty, he]
    simp [Refines, hcall, Deque.call, hnil, h]
  have hcap : 0 < cap := by omega
  have hcle := h.cap_le
  have hr := h.readPos_lt hcap
  have hempty : rb.isEmpty = false := by simp [isEmpty]; omega
  have hend := Ring.end_cases hr hle
  rw [← h.writePos_eq] at hend
  obtain ⟨n, hn⟩ : ∃ n, n = min len rb.elems := ⟨_, rfl⟩
  suffices hs : ∃ rb' bs, rb.call (.readBytes len) = (.bytes bs, rb') ∧ Wf cap 1 rb' ∧
      ∃ front : List (List UInt8), front.length = n ∧ bs = front.flatten ∧ rb.contents = front ++ rb'.contents by
    obtain ⟨rb', bs, hcall, hwf, front, hlen, hbs, hc⟩ := hs
    have htake : rb.contents.take n = front := by rw [hc, List.take_left' hlen]
    have hdrop : rb.contents.drop n = rb'.contents := by rw [hc, List.drop_left' hlen]
    simp only [Refines, hcall, Deque.call, length_contents, ← hn, htake, hdrop, hbs]
    exact ⟨trivial, hwf, trivial⟩
  by_cases hlt : rb.readPos < rb.writePos
  · have hn' : min len (rb.writePos - rb.readPos) = n := by omega
    obtain ⟨hwf, hc⟩ := h.pop (n := n) hcap (by omega) (by omega)
    rw [h.maxElems, Nat.mod_eq_of_lt (by omega : rb.readPos + n < cap)] at hwf hc
    refine ⟨_, _, ?_, hwf, _, by simp, flatten_bytes.symm, hc⟩
    simp [call, RingbufN.readBytes, h.elemSize, hempty, hlt, hn', h.maxElems, u32_of_le (by omega : rb.readPos + n ≤ 2 ^ 31 + 1)]
  · obtain ⟨k, hk⟩ : ∃ k, k = min len (cap - rb.readPos) := ⟨_, rfl⟩
    obtain ⟨hwf, hc⟩ := h.pop (n := k) hcap (by omega) (by omega)
    rw [h.maxElems] at hwf hc
    by_cases hall : k = len
    · refine ⟨_, _, ?_, hwf, _, by simp; omega, flatten_bytes.symm, hc⟩
      simp [call, RingbufN.readBytes, h.elemSize, h.maxElems, hempty, hlt, ← hk, hall]
    · obtain ⟨k₂, hk₂⟩ : ∃ k₂, k₂ = min (len - k) rb.writePos := ⟨_, rfl⟩
      have hzero : (rb.readPos + k) % cap = 0 := by
        rw [show rb.readPos + k = cap by omega, Nat.mod_self]
      rw [hzero] at hwf hc
      obtain ⟨hwf₂, hc₂⟩ := hwf.pop (n := k₂) hcap (by dsimp only; omega) (by dsimp only; omega)
      dsimp only at hwf₂ hc₂
      rw [Nat.zero_add, Nat.mod_eq_of_lt (by omega : k₂ < cap)] at hwf₂ hc₂
      rw [hc₂, ← List.append_assoc] at hc
      refine ⟨_, bytesAt rb.buf rb.readPos k ++ bytesAt rb.buf 0 k₂, ?_, hwf₂, _, by simp; omega, ?_, hc⟩
      · simp [call, RingbufN.readBytes, h.elemSize, h.maxElems, hempty, hlt, ← hk, ← hk₂, hall, hzero,
          u32_of_le (by omega : k₂ ≤ 2 ^ 31 + 1)]
      · rw [List.flatten_append, flatten_bytes, flatten_bytes]

/-- **A call does what it does to the queue of the elements.** -/
theorem Wf.call_refines (h : Wf cap es rb) {c : RingCall} (hc : c.Fits es) : Refines cap es rb c := by
  cases c with
  | writeElem elem => exact h.writeElem hc
  | readElem => exact h.readElem
  | unwriteElem => exact h.unwriteElem
  | writeBytes data =>
    obtain rfl : es = 1 := hc
    exact h.writeBytes data
  | readBytes len =>
    obtain rfl : es = 1 := hc
    exact h.readBytes len
  | reset =>
    exact ⟨rfl, ⟨h.maxElems, h.elemSize, h.cap_le, h.bytes_le, fun hcap => hcap, Nat.zero_le _, (Nat.zero_mod _).symm⟩, rfl⟩
  | getElems => exact ⟨congrArg RingAnswer.count length_contents.symm, h, rfl⟩

theorem Wf.answers_eq (h : Wf cap es rb) {cs : List RingCall} (hcs : ∀ c ∈ cs, c.Fits es) :
    answers call rb cs = answers (Deque.call cap) rb.contents cs := by
  induction cs generalizing rb with
  | nil => rfl
  | cons c cs ih =>
    obtain ⟨hc, hcs⟩ := List.forall_mem_cons.mp hcs
    obtain ⟨hanswer, hwf, hcontents⟩ := h.call_refines hc
    rw [answers, answers, hanswer, ih hwf hcs, hcontents]

end RingbufN

open RingbufN in
/-- **A ring buffer is a bounded double-ended queue**, if its capacity is at most `2 ^ 31` and its buffer is in an address space
of 32 bits. -/
theorem bounded_deque (cap es : Nat) (buf : Nat → UInt8) (cs : List RingCall) (hcap : cap ≤ 2 ^ 31) (hes : es < 2 ^ 32)
    (hbytes : cap * es ≤ 2 ^ 32) (hcs : ∀ c ∈ cs, c.Fits es) :
    answers call (init cap es buf) cs = answers (Deque.call cap) [] cs :=
  (init_wf hcap hes hbytes buf).answers_eq hcs

open RingbufN in
theorem bounded_deque_three : answers call (init 3 1 fun _ => 0)
      [.writeBytes [1, 2], .readElem, .writeBytes [3, 4, 5], .unwriteElem, .readBytes 9, .getElems] =
    [.count 2, .elem (some [1]), .count 2, .elem (some [4]), .bytes [2, 3], .count 0] := by
  rw [bounded_deque 3 1 (fun _ => 0) _ (by decide) (by decide) (by decide) (by simp [RingCall.Fits])]
  decide

open RingbufN in
/-- The position before the end of the window is computed in 32 bits: with more than `2 ^ 31` elements the sum wraps around, and
another element is taken back. -/
theorem unwriteElem_wraps : ∃ cs : List RingCall, (∀ c ∈ cs, c.Fits 1) ∧
    answers call (init (2 ^ 31 + 2) 1 fun _ => 0) cs ≠ answers (Deque.call (2 ^ 31 + 2)) [] cs := by
  obtain ⟨data, hlen, hlast, h₂⟩ : ∃ data : List UInt8, data.length = 2 ^ 31 + 1 ∧ data.getLast? = some 1 ∧
      data[2]? = some 0 := by
    refine ⟨List.replicate (2 ^ 31) 0 ++ [1], ?_, ?_, ?_⟩
    · rw [List.length_append, List.length_replicate, List.length_singleton]
    · rw [List.getLast?_append, List.getLast?_singleton, Option.some_or]
    · rw [List.getElem?_append_left (by rw [List.length_replicate]; omega), List.getElem?_replicate, if_pos (by omega)]
  have hwrite : (init (2 ^ 31 + 2) 1 fun _ => 0).writeBytes data =
      some (⟨0, 2 ^ 31 + 1, 2 ^ 31 + 1, 2 ^ 31 + 2, 1, Ringbuf.memcpyTo (fun _ => 0) 0 data⟩, 2 ^ 31 + 1) := by
    have htake : data.take 2147483649 = data := List.take_of_length_le hlen.le
    simp [RingbufN.writeBytes, init, isFull, u32, hlen, htake]
  have hunwrite : (RingbufN.unwriteElem ⟨0, 2 ^ 31 + 1, 2 ^ 31 + 1, 2 ^ 31 + 2, 1,
      Ringbuf.memcpyTo (fun _ => 0) 0 data⟩).map Prod.snd = some [0] := by
    simp [RingbufN.unwriteElem, isEmpty, u32, Ringbuf.bytesAt, Ringbuf.memcpyTo, h₂]
  have hdeque : (Deque.call (2 ^ 31 + 2) [] (.writeBytes data)).2.getLast? = some [1] := by
    have htake : data.take (2 ^ 31 + 1) = data := List.take_of_length_le hlen.le
    simp only [Deque.call, hlen, List.length_nil, List.nil_append, Nat.sub_zero,
      Nat.min_eq_left (by omega : 2 ^ 31 + 1 ≤ 2 ^ 31 + 2), htake, List.getLast?_map, hlast, Option.map_some]
  refine ⟨[.writeBytes data, .unwriteElem], by simp [RingCall.Fits], fun heq => ?_⟩
  obtain ⟨r, hr, hr₂⟩ := Option.map_eq_some_iff.mp hunwrite
  simp only [answers, call, hwrite, Option.elim_some, hr, hr₂, List.cons.injEq, and_true] at heq
  have hlasts := heq.2
  rw [show (Deque.call (2 ^ 31 + 2) (Deque.call (2 ^ 31 + 2) [] (.writeBytes data)).2 .unwriteElem).1 =
    .elem (Deque.call (2 ^ 31 + 2) [] (.writeBytes data)).2.getLast? from rfl, hdeque] at hlasts
  cases hlasts

end Usax
