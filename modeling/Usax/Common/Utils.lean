import Mathlib

/-!
# Machine words and the bit tricks of `utils.h` and `bithacks.h`

`ulong`, `size_t` and pointers have `nbits` bits, 32 or 64 depending on the architecture. The functions here are the
source's, on naturals below `2 ^ nbits`; the lemmas say what they compute on the arguments the kernel gives them.
-/

namespace Usax

/-- The width of a machine word (`NBITS`). -/
class Machine where
  nbits : Nat
  supported : nbits = 32 ∨ nbits = 64

theorem supported32 : 32 = 32 ∨ 32 = 64 := .inl rfl

theorem supported64 : 64 = 32 ∨ 64 = 64 := .inr rfl

@[reducible] def machine32 : Machine := ⟨32, supported32⟩

@[reducible] def machine64 : Machine := ⟨64, supported64⟩

namespace Common

def pageSize : Nat := 4096

/-- `ARGS_COPYBUF_SIZE`: the buffer of a task for what a system call copies from the user. -/
def argsCopybufSize : Nat := 4096

/-! ## Smearing bits -/

/-- `v |= v >> k`. -/
def smear (k v : Nat) : Nat := v ||| v >>> k

/-- Bit `i` of `v` smeared over `k` places is set when one of the bits `i`, ..., `i + k - 1` of `v` is. -/
def Smeared (k v u : Nat) : Prop := ∀ i, u.testBit i = true ↔ ∃ j < k, v.testBit (i + j) = true

theorem Smeared.one (v : Nat) : Smeared 1 v v := fun i => ⟨fun h => ⟨0, by omega, h⟩, fun ⟨j, hj, h⟩ => by
  rwa [show i = i + j by omega]⟩

theorem Smeared.double {k v u : Nat} (h : Smeared k v u) : Smeared (2 * k) v (smear k u) := by
  intro i
  simp only [smear, Nat.testBit_or, Nat.testBit_shiftRight, Bool.or_eq_true, h i, h (k + i)]
  constructor
  · rintro (⟨j, hj, hb⟩ | ⟨j, hj, hb⟩)
    · exact ⟨j, by omega, hb⟩
    · exact ⟨k + j, by omega, by rwa [show i + (k + j) = k + i + j by omega]⟩
  · rintro ⟨j, hj, hb⟩
    by_cases hk : j < k
    · exact Or.inl ⟨j, hk, hb⟩
    · exact Or.inr ⟨j - k, by omega, by rwa [show k + i + (j - k) = i + j by omega]⟩

theorem Smeared.eq_ones {k e v u : Nat} (h : Smeared k v u) (hlo : 2 ^ e ≤ v) (hhi : v < 2 ^ (e + 1)) (he : e < k) :
    u = 2 ^ (e + 1) - 1 := by
  apply Nat.eq_of_testBit_eq
  intro i
  rw [Nat.testBit_two_pow_sub_one]
  have htop : v.testBit e = true := by
    rw [Nat.testBit_eq_decide_div_mod_eq, decide_eq_true_eq]
    have : v / 2 ^ e = 1 := by
      apply Nat.div_eq_of_lt_le <;> rw [pow_succ] at hhi <;> omega
    rw [this]
  by_cases hi : i < e + 1
  · rw [decide_eq_true hi]
    exact (h i).2 ⟨e - i, by omega, by rwa [show i + (e - i) = e by omega]⟩
  · rw [decide_eq_false hi, Bool.eq_false_iff]
    intro hb
    obtain ⟨j, _, hj⟩ := (h i).1 hb
    have : v < 2 ^ (i + j) := lt_of_lt_of_le hhi (Nat.pow_le_pow_right (by omega) (by omega))
    rw [Nat.testBit_lt_two_pow this] at hj
    cases hj

/-! ## The source's functions -/

variable [Machine]

def bits64 : Bool := decide (Machine.nbits = 64)

def addWord (a b : Nat) : Nat := (a + b) % 2 ^ Machine.nbits

def subWord (a b : Nat) : Nat := (a + (2 ^ Machine.nbits - b % 2 ^ Machine.nbits)) % 2 ^ Machine.nbits

/-- `log2_for_power_of_2`: every mask but the 64-bit one covers the low 32 bits only. -/
def log2ForPowerOf2 (v : Nat) : Nat :=
  (decide (v &&& 0xAAAAAAAA ≠ 0)).toNat
    ||| (if bits64 then (decide (v &&& 0xFFFFFFFF00000000 ≠ 0)).toNat <<< 5 else 0)
    ||| (decide (v &&& 0xFFFF0000 ≠ 0)).toNat <<< 4
    ||| (decide (v &&& 0xFF00FF00 ≠ 0)).toNat <<< 3
    ||| (decide (v &&& 0xF0F0F0F0 ≠ 0)).toNat <<< 2
    ||| (decide (v &&& 0xCCCCCCCC ≠ 0)).toNat <<< 1

def roundupNextPowerOf2 (v : Nat) : Nat :=
  let v := subWord v 1
  let v := smear 16 (smear 8 (smear 4 (smear 2 (smear 1 v))))
  let v := if bits64 then smear 32 v else v
  addWord v 1

theorem two_pow_32_le : 2 ^ 32 ≤ 2 ^ Machine.nbits :=
  Nat.pow_le_pow_right (by omega) (by rcases Machine.supported with h | h <;> omega)

theorem addWord_of_lt {a b : Nat} (h : a + b < 2 ^ Machine.nbits) : addWord a b = a + b := Nat.mod_eq_of_lt h

theorem subWord_of_le {a b : Nat} (hb : b ≤ a) (ha : a < 2 ^ Machine.nbits) : subWord a b = a - b := by
  unfold subWord
  rw [Nat.mod_eq_of_lt (show b < 2 ^ Machine.nbits by omega), show a + (2 ^ Machine.nbits - b) =
    (a - b) + 2 ^ Machine.nbits by omega, Nat.add_mod_right, Nat.mod_eq_of_lt (by omega)]

theorem addWord_mod (a b : Nat) : addWord a b % 2 ^ Machine.nbits = (a + b) % 2 ^ Machine.nbits := Nat.mod_mod _ _

theorem addWord_lt (a b : Nat) : addWord a b < 2 ^ Machine.nbits := Nat.mod_lt _ (by positivity)

theorem subWord_lt (a b : Nat) : subWord a b < 2 ^ Machine.nbits := Nat.mod_lt _ (by positivity)

theorem subWord_add_mod (a b : Nat) : (subWord a b + b) % 2 ^ Machine.nbits = a % 2 ^ Machine.nbits := by
  have hpos : 0 < 2 ^ Machine.nbits := by positivity
  have hlt := Nat.mod_lt b hpos
  have hb := Nat.div_add_mod b (2 ^ Machine.nbits)
  unfold subWord
  rw [Nat.mod_add_mod, Nat.add_assoc, show 2 ^ Machine.nbits - b % 2 ^ Machine.nbits + b =
    2 ^ Machine.nbits * (b / 2 ^ Machine.nbits + 1) by rw [Nat.mul_add]; omega, Nat.add_mul_mod_self_left]

theorem log2ForPowerOf2_two_pow {i : Nat} (hi : i < 32) : log2ForPowerOf2 (2 ^ i) = i := by
  unfold log2ForPowerOf2
  cases bits64 <;> interval_cases i <;> decide

/-! ## Rounding up to a power of 2 -/

theorem roundupNextPowerOf2_eq {v e : Nat} (hlo : 2 ^ e < v) (hhi : v ≤ 2 ^ (e + 1)) (he : e + 1 < 32) :
    roundupNextPowerOf2 v = 2 ^ (e + 1) := by
  have h32 := two_pow_32_le
  have hpow : 2 ^ (e + 1) < 2 ^ 32 := Nat.pow_lt_pow_right (by omega) he
  have hpos : 0 < 2 ^ e := by positivity
  have hs := (((((Smeared.one (v - 1)).double).double).double).double).double
  have h5 : smear 16 (smear 8 (smear 4 (smear 2 (smear 1 (v - 1))))) = 2 ^ (e + 1) - 1 :=
    hs.eq_ones (by omega) (by omega) (by omega)
  have h6 : smear 32 (2 ^ (e + 1) - 1) = 2 ^ (e + 1) - 1 := by
    unfold smear
    rw [Nat.shiftRight_eq_div_pow, Nat.div_eq_of_lt (by omega), Nat.or_zero]
  simp only [roundupNextPowerOf2]
  rw [subWord_of_le (by omega) (by omega), h5, h6, ite_self, addWord_of_lt (by omega)]
  omega

theorem roundupNextPowerOf2_two_pow {e : Nat} (he : e < 32) : roundupNextPowerOf2 (2 ^ e) = 2 ^ e := by
  cases e with
  | zero =>
    have h32 := two_pow_32_le
    simp only [roundupNextPowerOf2, pow_zero]
    rw [subWord_of_le (le_refl _) (by omega)]
    have : ∀ k, smear k 0 = 0 := fun k => by simp [smear]
    simp only [Nat.sub_self, this, ite_self]
    exact addWord_of_lt (by omega)
  | succ e => exact roundupNextPowerOf2_eq (Nat.pow_lt_pow_right (by omega) (by omega)) (le_refl _) he

theorem roundupNextPowerOf2_zero : roundupNextPowerOf2 0 = 0 := by
  rcases Machine.supported with h | h <;> simp [roundupNextPowerOf2, subWord, addWord, bits64, smear, h]

theorem exists_roundup {v S : Nat} (hv : 0 < v) (hS : v ≤ 2 ^ S) (h32 : S < 32) :
    ∃ e ≤ S, roundupNextPowerOf2 v = 2 ^ e ∧ v ≤ 2 ^ e ∧ (e = 0 ∨ 2 ^ (e - 1) < v) := by
  induction S with
  | zero =>
    have : v = 2 ^ 0 := by simp at hS ⊢; omega
    exact ⟨0, le_refl _, by rw [this]; exact roundupNextPowerOf2_two_pow h32, hS, Or.inl rfl⟩
  | succ S ih =>
    by_cases h : v ≤ 2 ^ S
    · obtain ⟨e, he, h⟩ := ih h (by omega)
      exact ⟨e, by omega, h⟩
    · exact ⟨S + 1, le_refl _, roundupNextPowerOf2_eq (by omega) hS h32, hS, Or.inr (by simpa using h)⟩

end Common
end Usax
