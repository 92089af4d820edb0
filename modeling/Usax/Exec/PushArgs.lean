import Usax.Common.Errno
import Usax.Exec.CopyArgs

/-!
# The arguments on the stack

`push_args_on_user_stack` of `user.c`: the strings of the arguments and of the environment are pushed on the stack of the
user, then the words that the program finds at its entry. The stack is the pointer and the memory that it points into.

* `pushString_spec`, `pushStrings_spec`, `pushWords_spec`: what the pushes write, and that they keep what was pushed before;
* `pushArgs_decodes`: read from the final stack pointer, the image is `argc`, the arguments, the environment and the
  auxiliary vector, whenever there is room for it below the initial one;
* `pushArgs_below_page`: it is not refused when it does not fit into the page that is allocated for it.
-/

namespace Usax.Exec

open Common Lib

/-! ## The functions -/

structure Stack where
  sp : Nat
  mem : Nat → UInt8

def Arch.sub (k : Arch) (a n : Nat) : Nat := k.wrap (a + (256 ^ k.ptrSize - k.wrap n))

def stackAlign : Nat := 16

/-- `round_down_at` and `round_up_at` for the alignment of the stack. -/
def roundDown (n : Nat) : Nat := n / stackAlign * stackAlign

@[inherit_doc roundDown] def roundUp (n : Nat) : Nat := (n + stackAlign - 1) / stackAlign * stackAlign

/-- `push_on_user_stack`. -/
def pushWord (k : Arch) (st : Stack) (v : Nat) : Stack :=
  let sp := k.sub st.sp k.ptrSize
  ⟨sp, writeAt st.mem sp (leBytes k.ptrSize v)⟩

/-- `push_string_on_user_stack`. -/
def pushString (k : Arch) (st : Stack) (str : List UInt8) : Stack :=
  let len := str.length + 1
  let alignedLen := roundDown len
  let rem := len - alignedLen
  let sp := k.sub st.sp (alignedLen + if 0 < rem then stackAlign else 0)
  let mem := writeAt st.mem sp ((str ++ [0]).take alignedLen)
  if 0 < rem then
    let smallbuf := (str ++ [0]).drop alignedLen ++ List.replicate (stackAlign - rem) 0
    ⟨sp, writeAt mem (sp + alignedLen) smallbuf⟩
  else ⟨sp, mem⟩

/-- The loop over the strings, with the pointers to them. -/
def pushStrings (k : Arch) : Stack → List (List UInt8) → Stack × List Nat
  | st, [] => (st, [])
  | st, s :: ss =>
    let st := pushString k st s
    let r := pushStrings k st ss
    (r.1, st.sp :: r.2)

def pushWords (k : Arch) (st : Stack) (vs : List Nat) : Stack := vs.foldl (pushWord k) st

/-- `push_args_on_user_stack`. -/
def pushArgs (k : Arch) (st : Stack) (argv env : List (List UInt8)) : Except Errno Stack :=
  if 32 < argv.length then .error .e2big
  else if 96 < env.length then .error .e2big
  else
    let (st, pointers) := pushStrings k st argv
    let (st, envPointers) := pushStrings k st env
    let len := (2 + 2 + 1 + env.length + 1 + argv.length + 1) * k.ptrSize
    let rem := roundUp len - len
    let st := pushWords k st (List.replicate (rem / k.ptrSize) 0)
    -- `AT_NULL` and `AT_PAGESZ`
    let st := pushWords k st [0, 0, 4096, 6]
    let st := pushWords k (pushWord k st 0) envPointers.reverse
    let st := pushWords k (pushWord k st 0) pointers.reverse
    .ok (pushWord k st argv.length)

/-! ## What is on the stack -/

def strSize (s : List UInt8) : Nat := roundUp (s.length + 1)

def imageSize (k : Arch) (argv env : List (List UInt8)) : Nat :=
  ((argv ++ env).map strSize).sum + roundUp ((argv.length + env.length + 7) * k.ptrSize)

/-- The image that a program finds at its entry, below a bound: `argc`, pointers to the arguments, null, pointers to the
environment, null and the auxiliary vector with the size of a page. The strings are behind these words, each with its own
bytes. -/
def Image (k : Arch) (mem : Nat → UInt8) (sp top : Nat) (argv env : List (List UInt8)) : Prop :=
  let words := argv.length + env.length + 7
  ∃ ps qs, wordsAt k.ptrSize mem sp words = argv.length :: (ps ++ 0 :: (qs ++ [0, 6, 4096, 0, 0])) ∧
    ps.length = argv.length ∧ 0 ∉ ps ++ qs ∧
      List.Forall₂ (StrIn mem (sp + k.ptrSize * words) top) (ps ++ qs) (argv ++ env) ∧
        ((ps ++ qs).zip (argv ++ env)).Pairwise fun a b => b.1 + (b.2.length + 1) ≤ a.1

/-! ## The pushes -/

variable {k : Arch} {st : Stack} {s : List UInt8} {ss : List (List UInt8)} {vs : List Nat}

theorem Arch.sub_eq {a n : Nat} (ha : a < 256 ^ k.ptrSize) (hn : n ≤ a) : k.sub a n = a - n := by
  have hadd : a + (256 ^ k.ptrSize - n) = a - n + 256 ^ k.ptrSize := by omega
  rw [sub, wrap, wrap, Nat.mod_eq_of_lt (Nat.lt_of_le_of_lt hn ha), hadd, Nat.add_mod_right, Nat.mod_eq_of_lt (by omega)]

/-- What a push does: the pointer goes down by `n`, and only the bytes that it passes change. -/
structure Pushed (st st' : Stack) (n : Nat) : Prop where
  sp : st'.sp + n = st.sp
  frame : ∀ x, x < st'.sp ∨ st.sp ≤ x → st'.mem x = st.mem x

namespace Pushed

variable {st' st'' : Stack} {n n' : Nat}

theorem refl : Pushed st st 0 := ⟨rfl, fun _ _ => rfl⟩

theorem trans (h : Pushed st st' n) (h' : Pushed st' st'' n') : Pushed st st'' (n + n') := by
  have h₁ := h.sp
  have h₂ := h'.sp
  exact ⟨by omega, fun x hx => (h'.frame x (by omega)).trans (h.frame x (by omega))⟩

end Pushed

theorem pushWord_spec {v : Nat} (hsp : st.sp < 256 ^ k.ptrSize) (hroom : k.ptrSize ≤ st.sp) (hv : v < 256 ^ k.ptrSize) :
    Pushed st (pushWord k st v) k.ptrSize ∧ wordAt k.ptrSize (pushWord k st v).mem (pushWord k st v).sp = v := by
  simp only [pushWord, Arch.sub_eq hsp hroom]
  refine ⟨⟨Nat.sub_add_cancel hroom, fun x hx => ?_⟩, wordAt_writeAt hv⟩
  rcases hx with hx | hx
  · exact writeAt_of_lt hx
  · exact writeAt_of_ge (by rw [length_leBytes]; omega)

theorem pushWords_spec (hsp : st.sp < 256 ^ k.ptrSize) (hroom : k.ptrSize * vs.length ≤ st.sp)
    (hv : ∀ v ∈ vs, v < 256 ^ k.ptrSize) :
    Pushed st (pushWords k st vs) (k.ptrSize * vs.length) ∧
      wordsAt k.ptrSize (pushWords k st vs).mem (pushWords k st vs).sp vs.length = vs.reverse := by
  induction vs generalizing st with
  | nil => exact ⟨.refl, rfl⟩
  | cons v vs ih =>
    have hsucc : k.ptrSize * (v :: vs).length = k.ptrSize + k.ptrSize * vs.length := by
      rw [List.length_cons, Nat.mul_succ, Nat.add_comm]
    rw [hsucc] at hroom ⊢
    obtain ⟨hpush, hword⟩ := @pushWord_spec k st v hsp (by omega) (hv v (by simp))
    have hspw := hpush.sp
    obtain ⟨hrest, hwords⟩ := @ih (pushWord k st v) (by omega) (by omega) fun v hv' => hv v (by simp [hv'])
    have hspr := hrest.sp
    have heq : pushWords k st (v :: vs) = pushWords k (pushWord k st v) vs := rfl
    rw [heq, List.reverse_cons, List.length_cons, wordsAt_concat, hwords]
    refine ⟨hpush.trans hrest, ?_⟩
    rw [hspr, wordAt_congr fun x hx _ => hrest.frame x (.inr hx), hword]

theorem pushString_eq (hsp : st.sp < 256 ^ k.ptrSize) (hroom : strSize s ≤ st.sp) :
    pushString k st s = ⟨st.sp - strSize s,
      writeAt st.mem (st.sp - strSize s) (s ++ 0 :: List.replicate (strSize s - (s.length + 1)) 0)⟩ := by
  have hle : roundDown (s.length + 1) ≤ s.length + 1 := Nat.div_mul_le_self _ _
  have htake : ((s ++ [0]).take (roundDown (s.length + 1))).length = roundDown (s.length + 1) :=
    List.length_take_of_le (by simpa using hle)
  have hzeros : s ++ 0 :: List.replicate (strSize s - (s.length + 1)) 0 =
      (s ++ [0]) ++ List.replicate (strSize s - (s.length + 1)) 0 := by simp
  unfold pushString
  dsimp only
  by_cases hrem : 0 < s.length + 1 - roundDown (s.length + 1)
  · have hsize : roundDown (s.length + 1) + stackAlign = strSize s := by
      simp only [strSize, roundUp, roundDown, stackAlign] at hrem ⊢
      omega
    have hpad : stackAlign - (s.length + 1 - roundDown (s.length + 1)) = strSize s - (s.length + 1) := by omega
    have happ := @writeAt_append st.mem (st.sp - strSize s) ((s ++ [0]).take (roundDown (s.length + 1)))
      ((s ++ [0]).drop (roundDown (s.length + 1)) ++ List.replicate (strSize s - (s.length + 1)) 0)
    rw [htake, ← List.append_assoc, List.take_append_drop] at happ
    rw [if_pos hrem, if_pos hrem, hsize, Arch.sub_eq hsp hroom, hpad, happ, hzeros]
  · have hsize : roundDown (s.length + 1) = strSize s := by
      simp only [strSize, roundUp, roundDown, stackAlign] at hrem ⊢
      omega
    have hlen : strSize s = (s ++ [0]).length := by
      rw [List.length_append, List.length_singleton]
      omega
    rw [if_neg hrem, if_neg hrem, Nat.add_zero, hsize, Arch.sub_eq hsp hroom, hzeros, List.take_of_length_le (by omega)]
    simp [hlen]

theorem pushString_spec (hsp : st.sp < 256 ^ k.ptrSize) (hroom : strSize s ≤ st.sp) (hz : 0 ∉ s) :
    Pushed st (pushString k st s) (strSize s) ∧ IsStr (pushString k st s).mem (pushString k st s).sp s := by
  have hge : s.length + 1 ≤ strSize s := by
    simp only [strSize, roundUp, stackAlign]
    omega
  rw [pushString_eq hsp hroom]
  refine ⟨⟨Nat.sub_add_cancel hroom, fun x hx => ?_⟩, isStr_writeAt hz⟩
  rcases hx with hx | hx
  · exact writeAt_of_lt hx
  · refine writeAt_of_ge ?_
    simp only [List.length_append, List.length_cons, List.length_replicate]
    omega

theorem pushStrings_spec (hsp : st.sp < 256 ^ k.ptrSize) (hroom : (ss.map strSize).sum ≤ st.sp) (hz : ∀ s ∈ ss, 0 ∉ s) :
    Pushed st (pushStrings k st ss).1 (ss.map strSize).sum ∧
      List.Forall₂ (StrIn (pushStrings k st ss).1.mem (pushStrings k st ss).1.sp st.sp) (pushStrings k st ss).2 ss ∧
        ((pushStrings k st ss).2.zip ss).Pairwise fun a b => b.1 + (b.2.length + 1) ≤ a.1 := by
  induction ss generalizing st with
  | nil => exact ⟨.refl, .nil, .nil⟩
  | cons s ss ih =>
    rw [List.map_cons, List.sum_cons] at hroom ⊢
    obtain ⟨hpush, hstr⟩ := @pushString_spec k st s hsp (by omega) (hz s (by simp))
    have hspw := hpush.sp
    have hge : s.length + 1 ≤ strSize s := by
      simp only [strSize, roundUp, stackAlign]
      omega
    obtain ⟨hrest, hptrs, hpair⟩ := @ih (pushString k st s) (by omega) (by omega) fun s' hs => hz s' (by simp [hs])
    have hspr := hrest.sp
    simp only [pushStrings]
    refine ⟨hpush.trans hrest, .cons ⟨by omega, by omega, hstr.congr fun x hx _ => hrest.frame x (.inr hx)⟩ ?_, ?_⟩
    · exact hptrs.imp fun _ _ h => h.mono (Nat.le_refl _) (by omega)
    · refine .cons (fun b hb => ?_) hpair
      exact ((List.forall₂_iff_zip.mp hptrs).2 hb).le

/-! ## The image -/

variable {argv env : List (List UInt8)}

theorem pushStrings_append (k : Arch) (st : Stack) (ss ss' : List (List UInt8)) :
    pushStrings k st (ss ++ ss') = ((pushStrings k (pushStrings k st ss).1 ss').1,
      (pushStrings k st ss).2 ++ (pushStrings k (pushStrings k st ss).1 ss').2) := by
  induction ss generalizing st with
  | nil => rfl
  | cons s ss ih => simp [pushStrings, ih]

theorem pushArgs_eq (hargc : argv.length ≤ 32) (henvc : env.length ≤ 96) :
    let len := (argv.length + env.length + 7) * k.ptrSize
    let r := pushStrings k st argv
    let r' := pushStrings k r.1 env
    pushArgs k st argv env = .ok (pushWords k (pushStrings k st (argv ++ env)).1
      (List.replicate ((roundUp len - len) / k.ptrSize) 0 ++
        ([0, 0, 4096, 6, 0] ++ r'.2.reverse ++ 0 :: r.2.reverse ++ [argv.length]))) := by
  have hlen : 2 + 2 + 1 + env.length + 1 + argv.length + 1 = argv.length + env.length + 7 := by omega
  rw [pushStrings_append]
  unfold pushArgs
  rw [if_neg (by omega), if_neg (by omega), hlen]
  simp [pushWords, List.foldl_append]

theorem length_pushStrings (k : Arch) (st : Stack) (ss : List (List UInt8)) :
    (pushStrings k st ss).2.length = ss.length := by
  induction ss generalizing st with
  | nil => rfl
  | cons s ss ih => simp [pushStrings, ih]

theorem sum_strSize_mod (ss : List (List UInt8)) : (ss.map strSize).sum % stackAlign = 0 := by
  induction ss with
  | nil => rfl
  | cons s ss ih =>
    simp only [List.map_cons, List.sum_cons, strSize, roundUp, stackAlign] at ih ⊢
    omega

theorem roundUp_words (hw : k.ptrSize = 4 ∨ k.ptrSize = 8) (n : Nat) :
    k.ptrSize * ((roundUp (n * k.ptrSize) - n * k.ptrSize) / k.ptrSize) + k.ptrSize * n = roundUp (n * k.ptrSize) := by
  rcases hw with h | h <;> rw [h] <;> simp only [roundUp, stackAlign] <;> omega

theorem pushWords_image {ps qs : List Nat} {top zs : Nat} (hw : k.ptrSize = 4 ∨ k.ptrSize = 8) (htop : top < 256 ^ k.ptrSize)
    (hle : st.sp ≤ top) (hargc : argv.length ≤ 32) (hps : ps.length = argv.length) (hqs : qs.length = env.length)
    (hptrs : List.Forall₂ (StrIn st.mem st.sp top) (ps ++ qs) (argv ++ env))
    (hpair : ((ps ++ qs).zip (argv ++ env)).Pairwise fun a b => b.1 + (b.2.length + 1) ≤ a.1)
    (hroom : k.ptrSize * (argv.length + env.length + 7 + zs) ≤ st.sp) :
    let st' := pushWords k st
      (List.replicate zs 0 ++ ([0, 0, 4096, 6, 0] ++ qs.reverse ++ 0 :: ps.reverse ++ [argv.length]))
    Pushed st st' (k.ptrSize * (argv.length + env.length + 7 + zs)) ∧ Image k st'.mem st'.sp top argv env := by
  intro st'
  have hbytes : 4096 < 256 ^ k.ptrSize := by rcases hw with h | h <;> rw [h] <;> decide
  have hlen : (List.replicate zs 0 ++ ([0, 0, 4096, 6, 0] ++ qs.reverse ++ 0 :: ps.reverse ++ [argv.length])).length =
      argv.length + env.length + 7 + zs := by
    simp [hps, hqs]
    omega
  have hlt : ∀ p ∈ ps ++ qs, p < 256 ^ k.ptrSize := fun p hp => Nat.lt_trans (StrIn.bounds hptrs p hp).2 htop
  have hvals : ∀ v ∈ List.replicate zs 0 ++ ([0, 0, 4096, 6, 0] ++ qs.reverse ++ 0 :: ps.reverse ++ [argv.length]),
      v < 256 ^ k.ptrSize := by
    intro v hv
    simp only [List.mem_append, List.mem_replicate, List.mem_cons, List.mem_reverse, List.not_mem_nil, or_false] at hv hlt
    rcases hv with hv | (((hv | hv) | hv) | hv)
    · omega
    · omega
    · exact hlt v (.inr hv)
    · rcases hv with rfl | hv
      · omega
      · exact hlt v (.inl hv)
    · omega
  have hspec := @pushWords_spec k st _ (by omega) (by rw [hlen]; exact hroom) hvals
  rw [hlen] at hspec
  obtain ⟨hpush, hwords⟩ : Pushed st st' _ ∧ wordsAt k.ptrSize st'.mem st'.sp _ = _ := hspec
  have hspw := hpush.sp
  rw [Nat.mul_add] at hspw
  have hpos : 0 < k.ptrSize * (argv.length + env.length + 7) := Nat.mul_pos k.ptrSize_pos (by omega)
  have hstrs : List.Forall₂ (StrIn st'.mem (st'.sp + k.ptrSize * (argv.length + env.length + 7)) top) (ps ++ qs)
      (argv ++ env) :=
    hptrs.imp fun p s h => (h.congr fun x hx _ => hpush.frame x (.inr hx)).mono (by omega) (Nat.le_refl top)
  have hrev : (List.replicate zs 0 ++ ([0, 0, 4096, 6, 0] ++ qs.reverse ++ 0 :: ps.reverse ++ [argv.length])).reverse =
      (argv.length :: (ps ++ 0 :: (qs ++ [0, 6, 4096, 0, 0]))) ++ List.replicate zs 0 := by simp
  refine ⟨hpush, ps, qs, wordsAt_of_append (hwords.trans hrev) ?_, hps, StrIn.zero_notMem (by omega) hstrs, hstrs, hpair⟩
  simp [hps, hqs]
  omega

theorem pushArgs_image (hw : k.ptrSize = 4 ∨ k.ptrSize = 8) (hsp : st.sp < 256 ^ k.ptrSize) (halign : st.sp % stackAlign = 0)
    (hargc : argv.length ≤ 32) (henvc : env.length ≤ 96) (hz : ∀ s ∈ argv ++ env, 0 ∉ s)
    (hroom : imageSize k argv env ≤ st.sp) :
    ∃ st', pushArgs k st argv env = .ok st' ∧ Pushed st st' (imageSize k argv env) ∧ st'.sp % stackAlign = 0 ∧
      Image k st'.mem st'.sp st.sp argv env := by
  rw [imageSize] at hroom ⊢
  have hpad := roundUp_words hw (argv.length + env.length + 7)
  rw [Nat.add_comm, ← Nat.mul_add] at hpad
  obtain ⟨hstrs, hptrs, hpair⟩ := @pushStrings_spec k st (argv ++ env) hsp (by omega) hz
  have hspw := hstrs.sp
  have hmod := sum_strSize_mod (argv ++ env)
  have hmod' : roundUp ((argv.length + env.length + 7) * k.ptrSize) % stackAlign = 0 := Nat.mul_mod_left _ _
  rw [pushStrings_append] at hstrs hptrs hpair hspw
  obtain ⟨hpush, himage⟩ := pushWords_image hw hsp (by omega) hargc (length_pushStrings k st argv)
    (length_pushStrings k (pushStrings k st argv).1 env) hptrs hpair (by rw [hpad]; omega)
  rw [hpad] at hpush
  have hall := hstrs.trans hpush
  have hspall := hall.sp
  refine ⟨_, (pushArgs_eq hargc henvc).trans (by rw [pushStrings_append]), hall, ?_, himage⟩
  simp only [stackAlign] at *
  omega

/-- **The image decodes**: too many strings are refused; otherwise, if there is room for the image below the stack pointer,
only this room is written, the new stack pointer is aligned, and from there the program reads what it was given. -/
theorem pushArgs_decodes (hw : k.ptrSize = 4 ∨ k.ptrSize = 8) (hsp : st.sp < 256 ^ k.ptrSize)
    (halign : st.sp % stackAlign = 0) :
    (32 < argv.length ∨ 96 < env.length → pushArgs k st argv env = .error .e2big) ∧
      (argv.length ≤ 32 → env.length ≤ 96 → (∀ s ∈ argv ++ env, 0 ∉ s) → imageSize k argv env ≤ st.sp →
        ∃ st', pushArgs k st argv env = .ok st' ∧ Pushed st st' (imageSize k argv env) ∧ st'.sp % stackAlign = 0 ∧
          Image k st'.mem st'.sp st.sp argv env) := by
  refine ⟨fun h => ?_, pushArgs_image hw hsp halign⟩
  unfold pushArgs
  rcases h with h | h
  · rw [if_pos h]
  · rw [if_pos h]
    split <;> rfl

def stackMax (k : Arch) : Nat := roundDown (k.baseVa - 1)

/-- Two arguments and a variable of the environment. -/
theorem pushArgs_decodes_env :
    ∃ st', pushArgs i386 ⟨stackMax i386, fun _ => 0⟩ [[97], [98, 99]] [[65, 61, 49]] = .ok st' ∧
      st'.sp = stackMax i386 - imageSize i386 [[97], [98, 99]] [[65, 61, 49]] ∧
      Image i386 st'.mem st'.sp (stackMax i386) [[97], [98, 99]] [[65, 61, 49]] := by
  obtain ⟨st', hpush, hpushed, -, himage⟩ := (@pushArgs_decodes i386 ⟨stackMax i386, fun _ => 0⟩ [[97], [98, 99]]
    [[65, 61, 49]] (.inl rfl) (by decide) (by decide)).2 (by decide) (by decide) (by simp) (by decide)
  exact ⟨st', hpush, (Nat.sub_eq_of_eq_add hpushed.sp.symm).symm, himage⟩

/-- One argument of 4070 characters is accepted by the copy to the buffer of a page, but it does not fit into the page that
is allocated for the arguments: the stack pointer ends below it, and there is no error. -/
theorem pushArgs_below_page :
    arraySize i386 [List.replicate 4070 97] + arraySize i386 [] ≤ 4096 ∧
      ∃ st', pushArgs i386 ⟨stackMax i386, fun _ => 0⟩ [List.replicate 4070 97] [] = .ok st' ∧
        st'.sp < i386.baseVa - 4096 := by
  have hlen : (List.replicate 4070 (97 : UInt8)).length = 4070 := List.length_replicate
  have hzero : 0 ∉ List.replicate 4070 (97 : UInt8) := fun h => absurd (List.mem_replicate.mp h).2 (by decide)
  generalize List.replicate 4070 (97 : UInt8) = s at hlen hzero
  have hsize : imageSize i386 [s] [] = 4112 := by simp [imageSize, strSize, hlen, roundUp, stackAlign, i386]
  have hmax : stackMax i386 = 0xBFFFFFF0 := by decide
  obtain ⟨st', hpush, hpushed, -⟩ := @pushArgs_image i386 ⟨stackMax i386, fun _ => 0⟩ [s] [] (.inl rfl) (by decide)
    (by decide) (by simp) (by simp) (by simpa using hzero) (by rw [hsize]; decide)
  have hsp : st'.sp + imageSize i386 [s] [] = stackMax i386 := hpushed.sp
  have hbase : i386.baseVa = 0xC0000000 := rfl
  exact ⟨by simp [arraySize, strsSize, hlen, i386], st', hpush, by omega⟩

end Usax.Exec
