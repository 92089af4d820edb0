import Mathlib

/-!
# Memory of bytes

A memory has a byte at every address. Words of `w` bytes are in little-endian order (`leBytes`, `leValue`), a string ends
with a zero byte (`IsStr`), and an array of strings is an array of pointers to strings with a null pointer behind them
(`StrArray`). All of these are kept by writes elsewhere (`readAt_congr` and what follows from it).
-/

namespace Usax.Lib

variable {m m' : Nat → UInt8} {a n w : Nat} {bs cs s : List UInt8}

/-! ## Bytes -/

/-- The memory with bytes written from an address on. -/
def writeAt (m : Nat → UInt8) (a : Nat) (bs : List UInt8) : Nat → UInt8 :=
  fun x => if x < a then m x else bs.getD (x - a) (m x)

def readAt (m : Nat → UInt8) (a : Nat) : (n : Nat) → List UInt8
  | 0 => []
  | n + 1 => m a :: readAt m (a + 1) n

theorem writeAt_of_lt {x : Nat} (h : x < a) : writeAt m a bs x = m x := if_pos h

theorem writeAt_of_ge {x : Nat} (h : a + bs.length ≤ x) : writeAt m a bs x = m x := by
  rw [writeAt, if_neg (by omega), List.getD_eq_getElem?_getD, List.getElem?_eq_none (by omega), Option.getD_none]

theorem writeAt_append : writeAt (writeAt m a bs) (a + bs.length) cs = writeAt m a (bs ++ cs) := by
  funext x
  simp only [writeAt, List.getD_eq_getElem?_getD, List.getElem?_append]
  by_cases h₁ : x < a + bs.length
  · rw [if_pos h₁]
    by_cases h₂ : x < a
    · rw [if_pos h₂, if_pos h₂]
    · rw [if_neg h₂, if_neg h₂, if_pos (by omega)]
  · rw [if_neg h₁, if_neg (by omega), if_neg (by omega), if_neg (by omega), Nat.sub_sub,
      List.getElem?_eq_none (by omega : bs.length ≤ x - a), Option.getD_none]

theorem readAt_congr (h : ∀ x, a ≤ x → x < a + n → m' x = m x) : readAt m' a n = readAt m a n := by
  induction n generalizing a with
  | zero => rfl
  | succ n ih => rw [readAt, readAt, h a (Nat.le_refl a) (by omega), ih fun x h₁ h₂ => h x (by omega) (by omega)]

theorem readAt_writeAt : readAt (writeAt m a bs) a bs.length = bs := by
  induction bs generalizing m a with
  | nil => rfl
  | cons b bs ih =>
    have happ := @writeAt_append m a [b] bs
    rw [List.singleton_append] at happ
    rw [List.length_cons, readAt, ← happ, List.length_singleton, ih, writeAt_of_lt (Nat.lt_succ_self a)]
    simp [writeAt]

/-! ## Words -/

/-- The bytes of a word. -/
def leBytes : (w v : Nat) → List UInt8
  | 0, _ => []
  | w + 1, v => UInt8.ofNat v :: leBytes w (v / 256)

def leValue : List UInt8 → Nat
  | [] => 0
  | b :: bs => b.toNat + 256 * leValue bs

@[simp] theorem length_leBytes {v : Nat} : (leBytes w v).length = w := by
  induction w generalizing v with
  | zero => rfl
  | succ w ih => rw [leBytes, List.length_cons, ih]

theorem leValue_leBytes {v : Nat} (hv : v < 256 ^ w) : leValue (leBytes w v) = v := by
  induction w generalizing v with
  | zero =>
    rw [Nat.pow_zero] at hv
    simp [leBytes, leValue]
    omega
  | succ w ih =>
    rw [leBytes, leValue, ih (Nat.div_lt_of_lt_mul (by rwa [Nat.pow_succ, Nat.mul_comm] at hv)), UInt8.toNat_ofNat']
    exact Nat.mod_add_div v 256

def wordAt (w : Nat) (m : Nat → UInt8) (a : Nat) : Nat := leValue (readAt m a w)

def wordsAt (w : Nat) (m : Nat → UInt8) (a : Nat) : (n : Nat) → List Nat
  | 0 => []
  | n + 1 => wordAt w m a :: wordsAt w m (a + w) n

theorem wordAt_congr (h : ∀ x, a ≤ x → x < a + w → m' x = m x) : wordAt w m' a = wordAt w m a := by
  rw [wordAt, readAt_congr h, wordAt]

theorem wordAt_writeAt {v : Nat} (hv : v < 256 ^ w) : wordAt w (writeAt m a (leBytes w v)) a = v := by
  have h := @readAt_writeAt m a (leBytes w v)
  rw [length_leBytes] at h
  rw [wordAt, h, leValue_leBytes hv]

theorem wordsAt_congr (h : ∀ x, a ≤ x → x < a + w * n → m' x = m x) : wordsAt w m' a n = wordsAt w m a n := by
  induction n generalizing a with
  | zero => rfl
  | succ n ih =>
    rw [Nat.mul_succ] at h
    rw [wordsAt, wordsAt, wordAt_congr fun x h₁ h₂ => h x h₁ (by omega), ih fun x h₁ h₂ => h x (by omega) (by omega)]

theorem wordsAt_concat : wordsAt w m a (n + 1) = wordsAt w m a n ++ [wordAt w m (a + w * n)] := by
  induction n generalizing a with
  | zero => rfl
  | succ n ih =>
    rw [wordsAt, ih, wordsAt, List.cons_append]
    congr 4
    rw [Nat.mul_succ]
    omega

theorem wordsAt_of_append {l l' : List Nat} {k : Nat} (h : wordsAt w m a (n + k) = l ++ l') (hl : l.length = n) :
    wordsAt w m a n = l := by
  induction n generalizing a l with
  | zero => exact (List.length_eq_zero_iff.mp hl).symm
  | succ n ih =>
    obtain ⟨v, l, rfl⟩ := List.exists_cons_of_length_eq_add_one hl
    rw [Nat.succ_add, wordsAt, List.cons_append, List.cons.injEq] at h
    rw [wordsAt, h.1, ih h.2 (by simpa using hl)]

theorem wordsAt_replicate {p : Nat} (h : ∀ i < n, wordAt w m (a + w * i) = p) : wordsAt w m a n = List.replicate n p := by
  induction n with
  | zero => rfl
  | succ n ih =>
    rw [wordsAt_concat, ih fun i hi => h i (Nat.lt_succ_of_lt hi), h n (Nat.lt_succ_self n), List.replicate_succ']

/-! ## Strings -/

structure IsStr (m : Nat → UInt8) (a : Nat) (s : List UInt8) : Prop where
  bytes : readAt m a (s.length + 1) = s ++ [0]
  noZero : 0 ∉ s

theorem IsStr.congr (hs : IsStr m a s) (h : ∀ x, a ≤ x → x < a + (s.length + 1) → m' x = m x) : IsStr m' a s :=
  ⟨by rw [readAt_congr h, hs.bytes], hs.noZero⟩

theorem IsStr.nil (h : IsStr m a []) : m a = 0 := by
  have := h.bytes
  simpa [readAt] using this

theorem IsStr.cons {c : UInt8} (h : IsStr m a (c :: s)) : m a = c ∧ c ≠ 0 ∧ IsStr m (a + 1) s := by
  obtain ⟨hb, hz⟩ := h
  rw [List.length_cons, readAt, List.cons_append, List.cons.injEq] at hb
  rw [List.mem_cons, not_or] at hz
  exact ⟨hb.1, fun h => hz.1 h.symm, hb.2, hz.2⟩

theorem isStr_writeAt (hs : 0 ∉ s) : IsStr (writeAt m a (s ++ 0 :: bs)) a s := by
  refine ⟨?_, hs⟩
  have happ := @writeAt_append m a (s ++ [0]) bs
  rw [List.append_assoc, List.singleton_append] at happ
  have hread := @readAt_writeAt m a (s ++ [0])
  rw [List.length_append, List.length_singleton] at happ hread
  rw [← happ, readAt_congr fun x _ hx => writeAt_of_lt hx, hread]

/-- A string at an address, between two bounds. -/
structure StrIn (m : Nat → UInt8) (lo hi p : Nat) (s : List UInt8) : Prop where
  ge : lo ≤ p
  le : p + (s.length + 1) ≤ hi
  str : IsStr m p s

theorem StrIn.congr {lo hi p : Nat} (h : StrIn m lo hi p s) (hm : ∀ x, lo ≤ x → x < hi → m' x = m x) :
    StrIn m' lo hi p s := by
  have hge := h.ge
  have hle := h.le
  exact ⟨hge, hle, h.str.congr fun x h₁ h₂ => hm x (by omega) (by omega)⟩

theorem StrIn.mono {lo lo' hi hi' p : Nat} (h : StrIn m lo hi p s) (hlo : lo' ≤ lo) (hhi : hi ≤ hi') :
    StrIn m lo' hi' p s := ⟨Nat.le_trans hlo h.ge, Nat.le_trans h.le hhi, h.str⟩

theorem StrIn.bounds {lo hi : Nat} {ps : List Nat} {ss : List (List UInt8)} (h : List.Forall₂ (StrIn m lo hi) ps ss) :
    ∀ p ∈ ps, lo ≤ p ∧ p < hi := by
  induction h with
  | nil => simp
  | cons hp _ ih =>
    have hge := hp.ge
    have hle := hp.le
    simp only [List.mem_cons, forall_eq_or_imp]
    exact ⟨by omega, ih⟩

theorem StrIn.zero_notMem {lo hi : Nat} {ps : List Nat} {ss : List (List UInt8)} (hlo : 0 < lo)
    (h : List.Forall₂ (StrIn m lo hi) ps ss) : 0 ∉ ps := fun hz => by
  have hge := (StrIn.bounds h 0 hz).1
  omega

/-- An array of strings at an address, with everything below a bound: pointers to the strings, and a null pointer. -/
def StrArray (w : Nat) (m : Nat → UInt8) (a hi : Nat) (ss : List (List UInt8)) : Prop :=
  ∃ ps, wordsAt w m a (ss.length + 1) = ps ++ [0] ∧ 0 ∉ ps ∧ a + w * (ss.length + 1) ≤ hi ∧
    List.Forall₂ (StrIn m a hi) ps ss

theorem StrArray.congr {hi : Nat} {ss : List (List UInt8)} (h : StrArray w m a hi ss)
    (hm : ∀ x, a ≤ x → x < hi → m' x = m x) : StrArray w m' a hi ss := by
  obtain ⟨ps, hw, hz, hle, hs⟩ := h
  exact ⟨ps, by rw [wordsAt_congr fun x h₁ h₂ => hm x h₁ (by omega), hw], hz, hle, hs.imp fun _ _ hp => hp.congr hm⟩

end Usax.Lib
