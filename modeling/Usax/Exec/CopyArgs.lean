import Usax.Lib.Memory

/-!
# Copying the arguments

`internal_copy_str_array_from_user` of `user.c` and its callers up to `execve_get_args` of `execve.c`: an array of strings
of the user is copied to a buffer of the kernel, the pointers first and the strings behind them. The memory of the user is
read with `user_out_of_range` and page faults, and a write outside of the buffer ends the run as `Stop.outside`.

* `countArgs_spec`, `internalCopyUserStr_ok`, `copyStrs_ok`: the loops;
* `copyArgs_correct`: an array is copied exactly if it fits, also as the second one in the buffer, just when the address of
  its last pointer does not wrap around to before the end of the buffer and the size of its pointers is a `u32`;
* `copyStrArray_wraps`: a write outside of the buffer otherwise.
-/

namespace Usax.Exec

open Lib

/-! ## The functions -/

/-- The size of a pointer, and the end of the addresses of the user. -/
structure Arch where
  ptrSize : Nat
  baseVa : Nat
  ptrSize_pos : 0 < ptrSize
  baseVa_lt : baseVa < 256 ^ ptrSize

/-- An address, or the sum of an address and an offset, as a `ulong`. -/
def Arch.wrap (k : Arch) (a : Nat) : Nat := a % 256 ^ k.ptrSize

/-- The memory of the user; a read of an address that is not mapped is a fault. -/
structure User where
  bytes : Nat → UInt8
  mapped : Nat → Bool

/-- How a copy fails: with a write outside of the buffer, with `-1` (`-EFAULT`) or with `1` (`-E2BIG`). -/
inductive Stop
  | outside
  | fault
  | tooBig
deriving DecidableEq, Repr

def userOutOfRange (k : Arch) (ptr n : Nat) : Prop := ptr = 0 ∨ k.baseVa < k.wrap (ptr + n)

instance (k : Arch) (ptr n : Nat) : Decidable (userOutOfRange k ptr n) :=
  inferInstanceAs (Decidable (ptr = 0 ∨ k.baseVa < k.wrap (ptr + n)))

/-- A pointer in the memory of the user. -/
def loadPtr (k : Arch) (u : User) (a : Nat) : Except Stop Nat :=
  if (List.range k.ptrSize).all fun i => u.mapped (a + i) then .ok (wordAt k.ptrSize u.bytes a) else .error .fault

def store (dest size : Nat) (m : Nat → UInt8) (a : Nat) (bs : List UInt8) : Except Stop (Nat → UInt8) :=
  if dest ≤ a ∧ a + bs.length ≤ dest + size then .ok (writeAt m a bs) else .error .outside

/-- The loop of `internal_copy_user_str`: there is room for this many bytes from `d` on. The result is `d` at the end. -/
def internalCopyUserStr (k : Arch) (u : User) (dest size : Nat) :
    (room ptr d : Nat) → (Nat → UInt8) → Except Stop (Nat × (Nat → UInt8))
  | 0, _, _, _ => .error .tooBig
  | room + 1, ptr, d, m =>
    if userOutOfRange k ptr 1 then .error .fault
    else if !u.mapped ptr then .error .fault
    else do
      let m ← store dest size m d [u.bytes ptr]
      if u.bytes ptr = 0 then .ok (d + 1, m) else internalCopyUserStr k u dest size room (ptr + 1) (d + 1) m

/-- The first loop of `internal_copy_str_array_from_user`. It ends before the addresses of the user do. -/
def countArgs (k : Arch) (u : User) (userArr : Nat) : (fuel argc : Nat) → Except Stop Nat
  | 0, _ => .error .fault
  | fuel + 1, argc =>
    if userOutOfRange k (userArr + k.ptrSize * argc) k.ptrSize then .error .fault
    else do
      let p ← loadPtr k u (userArr + k.ptrSize * argc)
      if p = 0 then .ok argc else countArgs k u userArr fuel (argc + 1)

/-- The second loop of `internal_copy_str_array_from_user`. -/
def copyStrs (k : Arch) (u : User) (userArr dest size : Nat) :
    (todo i after written : Nat) → (Nat → UInt8) → Except Stop (Nat × (Nat → UInt8))
  | 0, _, _, written, m => .ok (written, m)
  | todo + 1, i, after, written, m => do
    let m ← store dest size m (k.wrap (dest + k.ptrSize * i)) (leBytes k.ptrSize after)
    let p ← loadPtr k u (userArr + k.ptrSize * i)
    let (d, m) ← internalCopyUserStr k u dest size (dest + size - after) p after m
    copyStrs k u userArr dest size todo (i + 1) d (written + (d - after)) m

/-- `internal_copy_str_array_from_user`. -/
def copyStrArray (k : Arch) (u : User) (m : Nat → UInt8) (dest userArr maxSize : Nat) :
    Except Stop (Nat × (Nat → UInt8)) := do
  let argc ← countArgs k u userArr k.baseVa 0
  let last := k.wrap (dest + k.ptrSize * argc)
  if dest + maxSize - k.ptrSize < last then .error .tooBig
  else
    let m ← store dest maxSize m last (leBytes k.ptrSize 0)
    let after := k.wrap (dest + k.ptrSize * (argc + 1))
    -- the size of the pointers is cast to a `u32`
    copyStrs k u userArr dest maxSize argc 0 after ((after - dest) % 2 ^ 32) m

def duplicateUserArgv (k : Arch) (u : User) (m : Nat → UInt8) (dest userArgv destSize written : Nat) :
    Except Stop (Nat × (Nat → UInt8)) :=
  if destSize ≤ written then .error .tooBig
  else do
    let (currWritten, m) ← copyStrArray k u m (dest + written) userArgv (destSize - written)
    .ok (written + currWritten, m)

/-- One of the two steps of `execve_get_args`: the reference, and what is written then. -/
def getArray (k : Arch) (u : User) (m : Nat → UInt8) (dest userArr destSize written : Nat) :
    Except Stop (Option Nat × Nat × (Nat → UInt8)) :=
  if userArr = 0 then .ok (none, written, m)
  else do
    let (written', m) ← duplicateUserArgv k u m dest userArr destSize written
    .ok (some (dest + written), written', m)

def execveGetArgs (k : Arch) (u : User) (m : Nat → UInt8) (dest destSize userArgv userEnv : Nat) :
    Except Stop (Option Nat × Option Nat × (Nat → UInt8)) := do
  let (argv, written, m) ← getArray k u m dest userArgv destSize 0
  let (env, _, m) ← getArray k u m dest userEnv destSize written
  .ok (argv, env, m)

/-! ## The arrays of the user -/

variable {k : Arch} {u : User} {m : Nat → UInt8} {a n dest size userArr : Nat} {ss : List (List UInt8)} {s : List UInt8}

structure Readable (k : Arch) (u : User) (a n : Nat) : Prop where
  pos : 0 < a
  below : a + n ≤ k.baseVa
  mapped : ∀ x, a ≤ x → x < a + n → u.mapped x = true

/-- The pointers to strings of the user that can be read. -/
abbrev UserStrs (k : Arch) (u : User) : List Nat → List (List UInt8) → Prop :=
  List.Forall₂ fun p s => Readable k u p (s.length + 1) ∧ IsStr u.bytes p s

structure UserArray (k : Arch) (u : User) (a : Nat) (ss : List (List UInt8)) : Prop where
  array : Readable k u a (k.ptrSize * (ss.length + 1))
  strings : ∃ ps, wordsAt k.ptrSize u.bytes a (ss.length + 1) = ps ++ [0] ∧
    UserStrs k u ps ss

def strsSize (ss : List (List UInt8)) : Nat := (ss.map (·.length + 1)).sum

theorem strsSize_cons : strsSize (s :: ss) = s.length + 1 + strsSize ss := by simp [strsSize]

def arraySize (k : Arch) (ss : List (List UInt8)) : Nat := k.ptrSize * (ss.length + 1) + strsSize ss

namespace Readable

variable {b l : Nat}

theorem sub (h : Readable k u a n) (h₁ : a ≤ b) (h₂ : b + l ≤ a + n) : Readable k u b l :=
  ⟨Nat.lt_of_lt_of_le h.pos h₁, Nat.le_trans h₂ h.below, fun x hb hx => h.mapped x (by omega) (by omega)⟩

theorem inRange (h : Readable k u a n) : ¬userOutOfRange k a n := by
  have hpos := h.pos
  have hbelow := h.below
  have hlt := k.baseVa_lt
  rintro (h | h)
  · omega
  · rw [Arch.wrap, Nat.mod_eq_of_lt (by omega)] at h
    omega

theorem loadPtr (h : Readable k u a k.ptrSize) : loadPtr k u a = .ok (wordAt k.ptrSize u.bytes a) := by
  refine if_pos (List.all_eq_true.mpr fun i hi => h.mapped _ (by omega) ?_)
  have := List.mem_range.mp hi
  omega

end Readable

namespace UserArray

theorem first (h : UserArray k u a ss) : Readable k u a k.ptrSize := by
  have harr := h.array
  rw [Nat.mul_succ] at harr
  exact harr.sub (Nat.le_refl a) (by omega)

theorem nil (h : UserArray k u a []) : wordAt k.ptrSize u.bytes a = 0 := by
  obtain ⟨ps, hw, hs⟩ := h.strings
  cases hs
  exact (List.cons.inj hw).1

theorem cons (h : UserArray k u a (s :: ss)) :
    ∃ p, wordAt k.ptrSize u.bytes a = p ∧ Readable k u p (s.length + 1) ∧ IsStr u.bytes p s ∧
      UserArray k u (a + k.ptrSize) ss := by
  obtain ⟨harr, ps, hw, hs⟩ := h
  cases hs with
  | @cons p _ ps _ hp hs =>
    rw [List.length_cons] at harr hw
    rw [Nat.mul_succ] at harr
    rw [wordsAt, List.cons_append, List.cons.injEq] at hw
    exact ⟨p, hw.1, hp.1, hp.2, harr.sub (Nat.le_add_right a _) (by omega), ps, hw.2, hs⟩

end UserArray

theorem store_ok {bs : List UInt8} (h₁ : dest ≤ a) (h₂ : a + bs.length ≤ dest + size) :
    store dest size m a bs = .ok (writeAt m a bs) := if_pos ⟨h₁, h₂⟩

/-! ## The loops -/

section Str

variable {room p d : Nat}

theorem internalCopyUserStr_step (hr : Readable k u p 1) (hd : dest ≤ d) (hend : d + (room + 1) ≤ dest + size) :
    internalCopyUserStr k u dest size (room + 1) p d m =
      if u.bytes p = 0 then .ok (d + 1, writeAt m d [u.bytes p])
      else internalCopyUserStr k u dest size room (p + 1) (d + 1) (writeAt m d [u.bytes p]) := by
  have hmapped := hr.mapped p (Nat.le_refl p) (by omega)
  rw [internalCopyUserStr, if_neg hr.inRange, if_neg (by simp [hmapped]),
    store_ok hd (by rw [List.length_singleton]; omega)]
  rfl

theorem internalCopyUserStr_ok (hr : Readable k u p (s.length + 1)) (hs : IsStr u.bytes p s) (hd : dest ≤ d)
    (hroom : s.length + 1 ≤ room) (hend : d + room ≤ dest + size) :
    internalCopyUserStr k u dest size room p d m = .ok (d + (s.length + 1), writeAt m d (s ++ [0])) := by
  induction s generalizing p d m room with
  | nil =>
    obtain ⟨room, rfl⟩ : ∃ r, room = r + 1 := ⟨room - 1, by omega⟩
    rw [internalCopyUserStr_step hr hd hend, hs.nil, if_pos rfl]
    rfl
  | cons c s ih =>
    rw [List.length_cons] at hroom hr
    obtain ⟨room, rfl⟩ : ∃ r, room = r + 1 := ⟨room - 1, by omega⟩
    obtain ⟨hc, hne, hs⟩ := hs.cons
    rw [internalCopyUserStr_step (hr.sub (Nat.le_refl p) (by omega)) hd hend, hc, if_neg hne,
      ih (hr.sub (Nat.le_succ p) (by omega)) hs (by omega) (by omega) (by omega)]
    have happ := @writeAt_append m d [c] (s ++ [0])
    rw [List.length_singleton, List.singleton_append] at happ
    rw [happ, List.length_cons, Nat.add_assoc, Nat.add_comm 1, List.cons_append]

theorem internalCopyUserStr_tooBig (hr : Readable k u p (s.length + 1)) (hs : IsStr u.bytes p s) (hd : dest ≤ d)
    (hroom : room < s.length + 1) (hend : d + room ≤ dest + size) :
    internalCopyUserStr k u dest size room p d m = .error .tooBig := by
  induction s generalizing p d m room with
  | nil =>
    obtain rfl : room = 0 := by simpa using hroom
    rfl
  | cons c s ih =>
    cases room with
    | zero => rfl
    | succ room =>
      rw [List.length_cons] at hroom hr
      obtain ⟨hc, hne, hs⟩ := hs.cons
      rw [internalCopyUserStr_step (hr.sub (Nat.le_refl p) (by omega)) hd hend, hc, if_neg hne,
        ih (hr.sub (Nat.le_succ p) (by omega)) hs (by omega) (by omega) (by omega)]

end Str

theorem countArgs_step {fuel argc : Nat} (hr : Readable k u (userArr + k.ptrSize * argc) k.ptrSize) :
    countArgs k u userArr (fuel + 1) argc =
      if wordAt k.ptrSize u.bytes (userArr + k.ptrSize * argc) = 0 then .ok argc
      else countArgs k u userArr fuel (argc + 1) := by
  rw [countArgs, if_neg hr.inRange, hr.loadPtr]
  rfl

theorem countArgs_spec {argc fuel : Nat} (h : UserArray k u (userArr + k.ptrSize * argc) ss) (hf : ss.length < fuel) :
    countArgs k u userArr fuel argc = .ok (argc + ss.length) := by
  obtain ⟨fuel, rfl⟩ : ∃ f, fuel = f + 1 := ⟨fuel - 1, by omega⟩
  rw [countArgs_step h.first]
  induction ss generalizing argc fuel with
  | nil => rw [h.nil, if_pos rfl, List.length_nil, Nat.add_zero]
  | cons s ss ih =>
    rw [List.length_cons] at hf
    obtain ⟨fuel, rfl⟩ : ∃ f, fuel = f + 1 := ⟨fuel - 1, by omega⟩
    obtain ⟨p, hw, hp, -, hrest⟩ := h.cons
    rw [Nat.add_assoc, ← Nat.mul_succ] at hrest
    rw [hw, if_neg (Nat.ne_of_gt hp.pos), countArgs_step hrest.first, ih hrest fuel (by omega), List.length_cons]
    congr 1
    omega

section Copy

variable {i after written : Nat}

theorem copyStrs_step {todo : Nat} (hr : Readable k u (userArr + k.ptrSize * i) k.ptrSize)
    (hroom : dest + k.ptrSize * (i + 1) ≤ dest + size) (hend : dest + size < 256 ^ k.ptrSize) :
    copyStrs k u userArr dest size (todo + 1) i after written m =
      (internalCopyUserStr k u dest size (dest + size - after) (wordAt k.ptrSize u.bytes (userArr + k.ptrSize * i)) after
        (writeAt m (dest + k.ptrSize * i) (leBytes k.ptrSize after))).bind fun r =>
          copyStrs k u userArr dest size todo (i + 1) r.1 (written + (r.1 - after)) r.2 := by
  rw [Nat.mul_succ] at hroom
  rw [copyStrs, Arch.wrap, Nat.mod_eq_of_lt (by omega),
    store_ok (Nat.le_add_right dest _) (by rw [length_leBytes]; omega), hr.loadPtr]
  rfl

theorem copyStrs_ok (h : UserArray k u (userArr + k.ptrSize * i) ss)
    (hafter : dest + k.ptrSize * (i + ss.length) ≤ after) (hfit : after + strsSize ss ≤ dest + size)
    (hend : dest + size < 256 ^ k.ptrSize) :
    ∃ m', copyStrs k u userArr dest size ss.length i after written m = .ok (written + strsSize ss, m') ∧
      List.Forall₂ (StrIn m' after (after + strsSize ss)) (wordsAt k.ptrSize m' (dest + k.ptrSize * i) ss.length) ss ∧
        ∀ x, x < dest + k.ptrSize * i ∨ (dest + k.ptrSize * (i + ss.length) ≤ x ∧ x < after) ∨ after + strsSize ss ≤ x →
          m' x = m x := by
  induction ss generalizing i after written m with
  | nil => exact ⟨m, rfl, .nil, fun _ _ => rfl⟩
  | cons s ss ih =>
    obtain ⟨p, hw, hp, hs, hrest⟩ := h.cons
    have hidx : i + (s :: ss).length = i + 1 + ss.length := by rw [List.length_cons]; omega
    rw [hidx] at hafter ⊢
    rw [strsSize_cons] at hfit ⊢
    rw [Nat.add_assoc, ← Nat.mul_succ] at hrest
    have hmul : k.ptrSize * (i + 1) ≤ k.ptrSize * (i + 1 + ss.length) := Nat.mul_le_mul_left _ (by omega)
    have hsucc : k.ptrSize * (i + 1) = k.ptrSize * i + k.ptrSize := Nat.mul_succ _ _
    obtain ⟨m', hcopy, hptrs, hframe⟩ := @ih (writeAt (writeAt m (dest + k.ptrSize * i) (leBytes k.ptrSize after)) after
      (s ++ [0])) (i + 1) (after + (s.length + 1)) (written + (s.length + 1)) hrest (by omega) (by omega)
    have hstr : IsStr _ after s := @isStr_writeAt (writeAt m (dest + k.ptrSize * i) (leBytes k.ptrSize after)) after [] s
      hs.noZero
    refine ⟨m', ?_, ?_, fun x hx => ?_⟩
    · rw [List.length_cons, copyStrs_step h.first (by omega) hend, hw,
        internalCopyUserStr_ok hp hs (by omega) (by omega) (by omega), Except.bind, Nat.add_sub_cancel_left, hcopy,
        Nat.add_assoc]
    · have hword : wordAt k.ptrSize m' (dest + k.ptrSize * i) = after := by
        rw [wordAt_congr fun x _ hx => (hframe x (.inl (by omega))).trans (writeAt_of_lt (by omega)),
          wordAt_writeAt (by omega)]
      rw [List.length_cons, wordsAt, hword, Nat.add_assoc dest, ← hsucc]
      refine .cons ⟨Nat.le_refl _, by omega, hstr.congr fun x h₁ h₂ => hframe x (.inr (.inl (by omega)))⟩ ?_
      exact hptrs.imp fun _ _ h => h.mono (by omega) (by omega)
    · have hlow : x < after → writeAt (writeAt m (dest + k.ptrSize * i) (leBytes k.ptrSize after)) after (s ++ [0]) x =
          writeAt m (dest + k.ptrSize * i) (leBytes k.ptrSize after) x := writeAt_of_lt
      rcases hx with hx | hx | hx
      · rw [hframe x (.inl (by omega)), hlow (by omega), writeAt_of_lt hx]
      · rw [hframe x (.inr (.inl (by omega))), hlow hx.2, writeAt_of_ge (by rw [length_leBytes]; omega)]
      · rw [hframe x (.inr (.inr (by omega))), writeAt_of_ge (by simp; omega), writeAt_of_ge (by rw [length_leBytes]; omega)]

theorem copyStrs_tooBig (h : UserArray k u (userArr + k.ptrSize * i) ss)
    (hafter : dest + k.ptrSize * (i + ss.length) ≤ after) (hle : after ≤ dest + size)
    (hfit : dest + size < after + strsSize ss) (hend : dest + size < 256 ^ k.ptrSize) :
    copyStrs k u userArr dest size ss.length i after written m = .error .tooBig := by
  induction ss generalizing i after written m with
  | nil => exact absurd hfit (by simpa [strsSize] using hle)
  | cons s ss ih =>
    obtain ⟨p, hw, hp, hs, hrest⟩ := h.cons
    have hidx : i + (s :: ss).length = i + 1 + ss.length := by rw [List.length_cons]; omega
    rw [hidx] at hafter
    rw [strsSize_cons] at hfit
    rw [Nat.add_assoc, ← Nat.mul_succ] at hrest
    have hmul : k.ptrSize * (i + 1) ≤ k.ptrSize * (i + 1 + ss.length) := Nat.mul_le_mul_left _ (by omega)
    rw [List.length_cons, copyStrs_step h.first (by omega) hend, hw]
    by_cases hroom : s.length + 1 ≤ dest + size - after
    · rw [internalCopyUserStr_ok hp hs (by omega) hroom (by omega)]
      exact ih hrest (by omega) (by omega) (by omega)
    · rw [internalCopyUserStr_tooBig hp hs (by omega) (by omega) (by omega)]
      rfl

end Copy

/-! ## One array -/

/-- An array that is too long for the buffer is seen to be: the address of its last pointer does not wrap around to before
the end. -/
def Seen (k : Arch) (dest size : Nat) (ss : List (List UInt8)) : Prop :=
  size < k.ptrSize * (ss.length + 1) → dest + size - k.ptrSize < k.wrap (dest + k.ptrSize * ss.length)

/-- And the size of the pointers of an array that fits is a `u32`. -/
structure PtrsOk (k : Arch) (dest size : Nat) (ss : List (List UInt8)) : Prop where
  seen : Seen k dest size ss
  counted : arraySize k ss ≤ size → k.ptrSize * (ss.length + 1) < 2 ^ 32

/-- The copy of an array: what it should be if the array fits, and if it does not. -/
structure Copied (k : Arch) (u : User) (m : Nat → UInt8) (dest userArr size : Nat) (ss : List (List UInt8)) : Prop where
  fits : arraySize k ss ≤ size → ∃ m', copyStrArray k u m dest userArr size = .ok (arraySize k ss, m') ∧
    StrArray k.ptrSize m' dest (dest + arraySize k ss) ss ∧ ∀ x, x < dest ∨ dest + arraySize k ss ≤ x → m' x = m x
  tooBig : size < arraySize k ss → copyStrArray k u m dest userArr size = .error .tooBig

theorem UserArray.countArgs (h : UserArray k u userArr ss) : countArgs k u userArr k.baseVa 0 = .ok ss.length := by
  have hle : ss.length + 1 ≤ k.ptrSize * (ss.length + 1) := Nat.le_mul_of_pos_left _ k.ptrSize_pos
  have hbelow := h.array.below
  have hcount := @countArgs_spec k u userArr ss 0 k.baseVa h (by omega)
  rwa [Nat.zero_add] at hcount

theorem copyStrArray_eq (hend : dest + size < 256 ^ k.ptrSize) (h : UserArray k u userArr ss) (hseen : Seen k dest size ss) :
    copyStrArray k u m dest userArr size =
      if size < k.ptrSize * (ss.length + 1) then .error .tooBig
      else copyStrs k u userArr dest size ss.length 0 (dest + k.ptrSize * (ss.length + 1))
        (k.ptrSize * (ss.length + 1) % 2 ^ 32) (writeAt m (dest + k.ptrSize * ss.length) (leBytes k.ptrSize 0)) := by
  have hsucc : k.ptrSize * (ss.length + 1) = k.ptrSize * ss.length + k.ptrSize := Nat.mul_succ _ _
  have hpos := k.ptrSize_pos
  rw [copyStrArray, h.countArgs]
  dsimp only [bind, Except.bind]
  by_cases hsize : size < k.ptrSize * (ss.length + 1)
  · rw [if_pos hsize, if_pos (hseen hsize)]
  · rw [Arch.wrap, Nat.mod_eq_of_lt (by omega), if_neg hsize, if_neg (by omega),
      store_ok (Nat.le_add_right dest _) (by rw [length_leBytes]; omega)]
    dsimp only
    rw [Arch.wrap, Nat.mod_eq_of_lt (by omega), Nat.add_sub_cancel_left]

/-- An array that fits is copied, and only the count of what is written can be wrong. -/
theorem copyStrArray_fits (hdest : 0 < dest) (hend : dest + size < 256 ^ k.ptrSize) (h : UserArray k u userArr ss)
    (hfit : arraySize k ss ≤ size) :
    ∃ m', copyStrArray k u m dest userArr size = .ok (k.ptrSize * (ss.length + 1) % 2 ^ 32 + strsSize ss, m') ∧
      StrArray k.ptrSize m' dest (dest + arraySize k ss) ss ∧
        ∀ x, x < dest ∨ dest + arraySize k ss ≤ x → m' x = m x := by
  rw [arraySize] at hfit ⊢
  have hsucc : k.ptrSize * (ss.length + 1) = k.ptrSize * ss.length + k.ptrSize := Nat.mul_succ _ _
  obtain ⟨m', hcopy, hptrs, hframe⟩ := @copyStrs_ok k u (writeAt m (dest + k.ptrSize * ss.length) (leBytes k.ptrSize 0)) dest
    size userArr ss 0 (dest + k.ptrSize * (ss.length + 1)) (k.ptrSize * (ss.length + 1) % 2 ^ 32) h
    (by rw [Nat.zero_add]; omega) (by omega) hend
  simp only [Nat.mul_zero, Nat.add_zero, Nat.zero_add] at hptrs hframe
  refine ⟨m', ?_, ⟨wordsAt k.ptrSize m' dest ss.length, ?_, ?_, by omega, ?_⟩, fun x hx => ?_⟩
  · rw [copyStrArray_eq hend h fun hlong => by omega, if_neg (by omega), hcopy]
  · -- the null pointer is written before the strings
    rw [wordsAt_concat, wordAt_congr fun x h₁ h₂ => hframe x (.inr (.inl (by omega))),
      wordAt_writeAt (Nat.pow_pos (by decide))]
  · exact StrIn.zero_notMem (by omega) hptrs
  · exact hptrs.imp fun _ _ hp => hp.mono (by omega) (by omega)
  · rcases hx with hx | hx
    · rw [hframe x (.inl hx), writeAt_of_lt (by omega)]
    · rw [hframe x (.inr (.inr (by omega))), writeAt_of_ge (by rw [length_leBytes]; omega)]

theorem copyStrArray_tooBig (hend : dest + size < 256 ^ k.ptrSize) (h : UserArray k u userArr ss)
    (hseen : Seen k dest size ss) (hfit : size < arraySize k ss) :
    copyStrArray k u m dest userArr size = .error .tooBig := by
  rw [arraySize] at hfit
  have hsucc : k.ptrSize * (ss.length + 1) = k.ptrSize * ss.length + k.ptrSize := Nat.mul_succ _ _
  rw [copyStrArray_eq hend h hseen]
  split
  · rfl
  · exact @copyStrs_tooBig k u _ dest size userArr ss 0 _ _ h (by rw [Nat.zero_add]; omega) (by omega) (by omega) hend

theorem PtrsOk.copied (hdest : 0 < dest) (hend : dest + size < 256 ^ k.ptrSize) (h : UserArray k u userArr ss)
    (hok : PtrsOk k dest size ss) : Copied k u m dest userArr size ss where
  fits hfit := by
    have hcopy := copyStrArray_fits (m := m) hdest hend h hfit
    rwa [Nat.mod_eq_of_lt (hok.counted hfit)] at hcopy
  tooBig := copyStrArray_tooBig hend h hok.seen

/-- Otherwise the null pointer is written before the buffer. -/
theorem copyStrArray_outside (hdest : 0 < dest) (hend : dest + size < 256 ^ k.ptrSize) (h : UserArray k u userArr ss)
    (hseen : ¬ Seen k dest size ss) : copyStrArray k u m dest userArr size = .error .outside := by
  obtain ⟨hlong, hlast⟩ := Classical.not_imp.mp hseen
  have hsucc : k.ptrSize * (ss.length + 1) = k.ptrSize * ss.length + k.ptrSize := Nat.mul_succ _ _
  have hbelow := h.array.below
  have hbase := k.baseVa_lt
  -- the array is shorter than the address space, so the address wraps around once
  have hwrap : 256 ^ k.ptrSize ≤ dest + k.ptrSize * ss.length := by
    by_contra hlt
    rw [Arch.wrap, Nat.mod_eq_of_lt (by omega)] at hlast
    omega
  have hbefore : k.wrap (dest + k.ptrSize * ss.length) < dest := by
    rw [Arch.wrap, Nat.mod_eq_sub_mod hwrap, Nat.mod_eq_of_lt (by omega)]
    omega
  rw [copyStrArray, h.countArgs]
  dsimp only [bind, Except.bind]
  rw [if_neg hlast, store, if_neg (by omega)]

theorem Copied.ptrsOk (hdest : 0 < dest) (hend : dest + size < 256 ^ k.ptrSize) (h : UserArray k u userArr ss)
    (hc : Copied k u m dest userArr size ss) : PtrsOk k dest size ss where
  seen := by
    by_contra hseen
    have hlong := (Classical.not_imp.mp hseen).1
    have hbig := hc.tooBig (Nat.lt_of_lt_of_le hlong (Nat.le_add_right _ _))
    rw [copyStrArray_outside hdest hend h hseen] at hbig
    cases hbig
  counted hfit := by
    obtain ⟨m₁, hcopy, -⟩ := hc.fits hfit
    obtain ⟨m₂, hcopy', -⟩ := copyStrArray_fits (m := m) hdest hend h hfit
    rw [hcopy] at hcopy'
    have hcount := congrArg Prod.fst (Except.ok.inj hcopy')
    rw [arraySize] at hcount
    have hlt := Nat.mod_lt (k.ptrSize * (ss.length + 1)) (show 0 < 2 ^ 32 by decide)
    dsimp only at hcount
    omega

/-! ## Both arrays -/

/-- An argument of the call: an array of strings, or a null pointer. -/
def UserArg (k : Arch) (u : User) (a : Nat) : Option (List (List UInt8)) → Prop
  | none => a = 0
  | some ss => UserArray k u a ss

def argSize (k : Arch) (ss : Option (List (List UInt8))) : Nat := ss.elim 0 (arraySize k)

/-- Its copy: an array between two bounds, or a null pointer. -/
def ArgAt (k : Arch) (m : Nat → UInt8) (lo hi : Nat) : Option Nat → Option (List (List UInt8)) → Prop
  | none, none => True
  | some a, some ss => a = lo ∧ StrArray k.ptrSize m a hi ss
  | _, _ => False

section Args

variable {argv env arg : Option (List (List UInt8))} {userArgv userEnv written : Nat}

theorem ArgAt.congr {m' : Nat → UInt8} {lo hi : Nat} {r : Option Nat} (h : ArgAt k m lo hi r arg)
    (hm : ∀ x, lo ≤ x → x < hi → m' x = m x) : ArgAt k m' lo hi r arg := by
  match r, arg, h with
  | none, none, _ => trivial
  | some a, some ss, ⟨ha, h⟩ => exact ⟨ha, h.congr fun x h₁ h₂ => hm x (by omega) h₂⟩

/-- The pointers of an argument are seen and counted, where there is any room for them. -/
def ArgOk (k : Arch) (dest size : Nat) (arg : Option (List (List UInt8))) : Prop :=
  ∀ ss ∈ arg, 0 < size → PtrsOk k dest size ss

theorem getArray_some (h : UserArray k u userArr ss) (hroom : written < size) :
    getArray k u m dest userArr size written =
      (copyStrArray k u m (dest + written) userArr (size - written)).bind fun r =>
        .ok (some (dest + written), written + r.1, r.2) := by
  rw [getArray, if_neg (Nat.ne_of_gt h.array.pos), duplicateUserArgv, if_neg (by omega)]
  cases copyStrArray k u m (dest + written) userArr (size - written) <;> rfl

theorem arraySize_pos : 0 < arraySize k ss :=
  Nat.lt_of_lt_of_le (Nat.mul_pos k.ptrSize_pos (Nat.succ_pos _)) (Nat.le_add_right _ _)

theorem getArray_ok (hdest : 0 < dest) (hend : dest + size < 256 ^ k.ptrSize) (h : UserArg k u userArr arg)
    (hok : ArgOk k (dest + written) (size - written) arg) (hfit : written + argSize k arg ≤ size) :
    ∃ r m', getArray k u m dest userArr size written = .ok (r, written + argSize k arg, m') ∧
      ArgAt k m' (dest + written) (dest + written + argSize k arg) r arg ∧
        ∀ x, x < dest + written ∨ dest + written + argSize k arg ≤ x → m' x = m x := by
  cases arg with
  | none =>
    obtain rfl : userArr = 0 := h
    exact ⟨none, m, rfl, trivial, fun _ _ => rfl⟩
  | some ss =>
    have harr : UserArray k u userArr ss := h
    have hsize : argSize k (some ss) = arraySize k ss := rfl
    have hpos : 0 < arraySize k ss := arraySize_pos
    rw [hsize] at hfit ⊢
    obtain ⟨m', hcopy, hat, hframe⟩ :=
      ((hok ss rfl (by omega)).copied (m := m) (by omega) (by omega) harr).fits (by omega)
    refine ⟨some (dest + written), m', ?_, ⟨rfl, hat⟩, hframe⟩
    rw [getArray_some harr (by omega), hcopy]
    rfl

theorem getArray_tooBig (hdest : 0 < dest) (hend : dest + size < 256 ^ k.ptrSize) (h : UserArg k u userArr arg)
    (hok : ArgOk k (dest + written) (size - written) arg) (hle : written ≤ size) (hfit : size < written + argSize k arg) :
    getArray k u m dest userArr size written = .error .tooBig := by
  cases arg with
  | none => exact absurd hfit (by simp [argSize]; omega)
  | some ss =>
    have harr : UserArray k u userArr ss := h
    have hsize : argSize k (some ss) = arraySize k ss := rfl
    rw [hsize] at hfit
    by_cases hfull : size ≤ written
    · rw [getArray, if_neg (Nat.ne_of_gt harr.array.pos), duplicateUserArgv, if_pos hfull]
      rfl
    · rw [getArray_some harr (by omega), ((hok ss rfl (by omega)).copied (by omega) (by omega) harr).tooBig (by omega)]
      rfl

/-- Without it, in a buffer of less than 4 GB, there is a write outside of the buffer. -/
theorem getArray_outside (hdest : 0 < dest) (hend : dest + size < 256 ^ k.ptrSize) (hsmall : size < 2 ^ 32)
    (h : UserArg k u userArr arg) (hok : ¬ ArgOk k (dest + written) (size - written) arg) :
    getArray k u m dest userArr size written = .error .outside := by
  unfold ArgOk at hok
  push Not at hok
  obtain ⟨ss, hss, hroom, hptrs⟩ := hok
  obtain rfl : arg = some ss := hss
  have harr : UserArray k u userArr ss := h
  have hseen : ¬ Seen k (dest + written) (size - written) ss := by
    refine fun hseen => hptrs ⟨hseen, fun hfit => ?_⟩
    have hle : k.ptrSize * (ss.length + 1) ≤ arraySize k ss := Nat.le_add_right _ _
    omega
  rw [getArray_some harr (by omega), copyStrArray_outside (by omega) (by omega) harr hseen]
  rfl

/-- The copy of both arrays to one buffer. -/
structure BothCopied (k : Arch) (u : User) (m : Nat → UInt8) (dest size userArgv userEnv : Nat)
    (argv env : Option (List (List UInt8))) : Prop where
  fits : argSize k argv + argSize k env ≤ size → ∃ r r' m', execveGetArgs k u m dest size userArgv userEnv = .ok (r, r', m') ∧
    ArgAt k m' dest (dest + argSize k argv) r argv ∧
    ArgAt k m' (dest + argSize k argv) (dest + argSize k argv + argSize k env) r' env ∧
    ∀ x, x < dest ∨ dest + argSize k argv + argSize k env ≤ x → m' x = m x
  tooBig : size < argSize k argv + argSize k env → execveGetArgs k u m dest size userArgv userEnv = .error .tooBig

/-- The second array comes behind the first one. -/
structure BothOk (k : Arch) (dest size : Nat) (argv env : Option (List (List UInt8))) : Prop where
  first : ArgOk k dest size argv
  second : argSize k argv ≤ size → ArgOk k (dest + argSize k argv) (size - argSize k argv) env

theorem BothOk.copied (hdest : 0 < dest) (hend : dest + size < 256 ^ k.ptrSize) (hargv : UserArg k u userArgv argv)
    (henv : UserArg k u userEnv env) (hok : BothOk k dest size argv env) :
    BothCopied k u m dest size userArgv userEnv argv env := by
  by_cases hfirst : size < argSize k argv
  · refine ⟨fun h => absurd h (by omega), fun _ => ?_⟩
    rw [execveGetArgs, @getArray_tooBig k u m dest size userArgv argv 0 hdest hend hargv hok.first (Nat.zero_le _) (by omega)]
    rfl
  have hokE := hok.second (by omega)
  obtain ⟨r, m₁, hget, hat, hframe⟩ := @getArray_ok k u m dest size userArgv argv 0 hdest hend hargv hok.first (by omega)
  rw [Nat.add_zero] at hat hframe
  rw [Nat.zero_add] at hget
  refine ⟨fun hfit => ?_, fun hfit => ?_⟩
  · obtain ⟨r', m₂, hget', hat', hframe'⟩ := @getArray_ok k u m₁ dest size userEnv env (argSize k argv) hdest hend henv
      hokE hfit
    refine ⟨r, r', m₂, ?_, hat.congr fun x _ hx => hframe' x (.inl hx), hat', fun x hx => ?_⟩
    · rw [execveGetArgs, hget]
      dsimp only [bind, Except.bind]
      rw [hget']
    · rw [hframe' x (by omega), hframe x (by omega)]
  · rw [execveGetArgs, hget]
    dsimp only [bind, Except.bind]
    rw [getArray_tooBig hdest hend henv hokE (by omega) hfit]

theorem BothCopied.not_outside (hc : BothCopied k u m dest size userArgv userEnv argv env) :
    execveGetArgs k u m dest size userArgv userEnv ≠ .error .outside := by
  intro hout
  rcases Nat.lt_or_ge size (argSize k argv + argSize k env) with hbig | hfit
  · rw [hc.tooBig hbig] at hout
    cases hout
  · obtain ⟨r, r', m', hrun, -⟩ := hc.fits hfit
    rw [hrun] at hout
    cases hout

theorem BothCopied.ok (hdest : 0 < dest) (hend : dest + size < 256 ^ k.ptrSize) (hsmall : size < 2 ^ 32)
    (hargv : UserArg k u userArgv argv) (henv : UserArg k u userEnv env)
    (hc : BothCopied k u m dest size userArgv userEnv argv env) : BothOk k dest size argv env := by
  have hfirst : ArgOk k dest size argv := by
    by_contra hok
    refine hc.not_outside ?_
    rw [execveGetArgs, @getArray_outside k u m dest size userArgv argv 0 hdest hend hsmall hargv hok]
    rfl
  refine ⟨hfirst, fun hle => ?_⟩
  by_contra hok
  refine hc.not_outside ?_
  obtain ⟨r, m₁, hget, -⟩ := @getArray_ok k u m dest size userArgv argv 0 hdest hend hargv hfirst (by omega)
  rw [Nat.zero_add] at hget
  rw [execveGetArgs, hget]
  dsimp only [bind, Except.bind]
  rw [getArray_outside hdest hend hsmall henv hok]

/-- **The arguments are copied if they fit and refused if they do not**, one array just when its pointers are seen and
counted. The same holds of both arrays in one buffer, and just then if the buffer is of less than 4 GB. -/
theorem copyArgs_correct (m : Nat → UInt8) (hdest : 0 < dest) (hend : dest + size < 256 ^ k.ptrSize) :
    (∀ userArr ss, UserArray k u userArr ss → (Copied k u m dest userArr size ss ↔ PtrsOk k dest size ss)) ∧
    ∀ userArgv userEnv argv env, UserArg k u userArgv argv → UserArg k u userEnv env →
      (BothOk k dest size argv env → BothCopied k u m dest size userArgv userEnv argv env) ∧
      (size < 2 ^ 32 → BothCopied k u m dest size userArgv userEnv argv env → BothOk k dest size argv env) :=
  ⟨fun _ _ h => ⟨fun hc => hc.ptrsOk hdest hend h, fun hok => hok.copied hdest hend h⟩,
    fun _ _ _ _ hargv henv => ⟨fun hok => hok.copied hdest hend hargv henv,
      fun hsmall hc => hc.ok hdest hend hsmall hargv henv⟩⟩

end Args

/-- Pointers of 4 bytes, and 3 GB for the user. -/
def i386 : Arch := ⟨4, 0xC0000000, by decide, by decide⟩

/-- The array `{ "a", NULL }` at 4096, and its string behind it. -/
def oneArg : User := ⟨writeAt (fun _ => 0) 4096 [8, 16, 0, 0, 0, 0, 0, 0, 97, 0], fun _ => true⟩

/-- The array, and a buffer with room for it; and the same array with a buffer that is too short. -/
theorem copyArgs_correct_one :
    Copied i386 oneArg (fun _ => 1) 0xC1000000 4096 10 [[97]] ∧ Copied i386 oneArg (fun _ => 1) 0xC1000000 4096 7 [[97]] ∧
    BothCopied i386 oneArg (fun _ => 1) 0xC1000000 32 4096 4096 (some [[97]]) (some [[97]]) := by
  have harr : UserArray i386 oneArg 4096 [[97]] := by
    have hstr : Readable i386 oneArg 4104 2 := ⟨by decide, by decide, fun _ _ _ => rfl⟩
    exact ⟨⟨by decide, by decide, fun _ _ _ => rfl⟩, [4104], by decide, .cons ⟨hstr, ⟨by decide, by decide⟩⟩ .nil⟩
  have harg : UserArg i386 oneArg 4096 (some [[97]]) := harr
  refine ⟨?_, ?_, ?_⟩
  · exact ((@copyArgs_correct i386 oneArg 0xC1000000 10 (fun _ => 1) (by decide) (by decide)).1 4096 [[97]] harr).mpr
      ⟨by unfold Seen; decide, by decide⟩
  · exact ((@copyArgs_correct i386 oneArg 0xC1000000 7 (fun _ => 1) (by decide) (by decide)).1 4096 [[97]] harr).mpr
      ⟨by unfold Seen; decide, by decide⟩
  · refine ((@copyArgs_correct i386 oneArg 0xC1000000 32 (fun _ => 1) (by decide) (by decide)).2 4096 4096 _ _ harg harg).1
      ⟨?_, fun _ => ?_⟩
    · rintro ss ⟨⟩ -
      exact ⟨by unfold Seen; decide, by decide⟩
    · rintro ss ⟨⟩ -
      exact ⟨by unfold Seen; decide, by decide⟩

/-- An array of `n` pointers to an empty string at `0x1010101`. -/
def manyArgs (n : Nat) : User :=
  ⟨fun x => if 0x10000000 ≤ x ∧ x < 0x10000000 + 4 * n then 1 else 0, fun _ => true⟩

theorem userArray_manyArgs {n : Nat} (hn : 4 * (n + 1) ≤ 0xB0000000) :
    UserArray i386 (manyArgs n) 0x10000000 (List.replicate n []) := by
  have hlen : (List.replicate n ([] : List UInt8)).length = n := List.length_replicate
  have hstr : Readable i386 (manyArgs n) 0x1010101 1 ∧ IsStr (manyArgs n).bytes 0x1010101 [] :=
    ⟨⟨by decide, by decide, fun _ _ _ => rfl⟩, by simp [readAt, manyArgs], by simp⟩
  refine ⟨⟨by decide, ?_, fun _ _ _ => rfl⟩, List.replicate n 0x1010101, ?_, ?_⟩
  · rw [hlen]
    simp only [i386]
    omega
  · have hword : ∀ i < n, wordAt 4 (manyArgs n).bytes (0x10000000 + 4 * i) = 0x1010101 := by
      intro i hi
      have hbyte : ∀ j, j < 4 → (manyArgs n).bytes (0x10000000 + 4 * i + j) = 1 := fun j hj => if_pos (by omega)
      simp only [wordAt, readAt, leValue, Nat.add_assoc, Nat.reduceAdd] at hbyte ⊢
      rw [hbyte 1 (by decide), hbyte 2 (by decide), hbyte 3 (by decide), ← Nat.add_zero (4 * i), hbyte 0 (by decide)]
      rfl
    have hlast : wordAt 4 (manyArgs n).bytes (0x10000000 + 4 * n) = 0 := by
      have hbyte : ∀ j, (manyArgs n).bytes (0x10000000 + 4 * n + j) = 0 := fun j => if_neg (by omega)
      simp only [wordAt, readAt, leValue, Nat.add_assoc, Nat.reduceAdd] at hbyte ⊢
      rw [hbyte 1, hbyte 2, hbyte 3, ← Nat.add_zero (4 * n), hbyte 0]
      rfl
    rw [hlen]
    exact wordsAt_concat.trans (by rw [show i386.ptrSize = 4 from rfl, wordsAt_replicate hword, hlast])
  · clear hn hlen
    generalize manyArgs n = u at hstr
    induction n with
    | zero => exact .nil
    | succ n ih => exact .cons hstr ih

/-- With the buffer at `0xF0000000`, the place of the last pointer of an array of `0x4000001` strings is at address 4, where
the null pointer is written. -/
theorem copyStrArray_wraps :
    UserArray i386 (manyArgs 0x4000001) 0x10000000 (List.replicate 0x4000001 []) ∧
      copyStrArray i386 (manyArgs 0x4000001) (fun _ => 0) 0xF0000000 0x10000000 4096 = .error .outside := by
  have harr := @userArray_manyArgs 0x4000001 (by decide)
  refine ⟨harr, copyStrArray_outside (by decide) (by decide) harr ?_⟩
  rw [Seen, List.length_replicate]
  decide

end Usax.Exec
