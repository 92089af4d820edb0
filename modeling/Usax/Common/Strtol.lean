import Mathlib.Tactic
import Usax.Common.Errno

/-!
# Parsing numbers

`__usax_strtol` of `itoa.cpp` for every type it is instantiated at.  The kernel is built with `-fwrapv`: the
partial result wraps, and an overflow is found by comparing it with the one before.
-/

namespace Usax.Common

/-! ## Integer types -/

/-- An integer type of the machine: `s32`, `u32`, `s64`, `u64`; `long` and `ulong` are one of them. -/
structure IntType where
  signed : Bool
  bits : Nat
  supported : bits = 32 ∨ bits = 64

namespace IntType

def s32 : IntType := ⟨true, 32, .inl rfl⟩
def u32 : IntType := ⟨false, 32, .inl rfl⟩
def s64 : IntType := ⟨true, 64, .inr rfl⟩
def u64 : IntType := ⟨false, 64, .inr rfl⟩

variable (T : IntType)

def minVal : Int := if T.signed then -2 ^ (T.bits - 1) else 0

def Fits (x : Int) : Prop := T.minVal ≤ x ∧ x < T.minVal + 2 ^ T.bits

instance (x : Int) : Decidable (T.Fits x) := inferInstanceAs (Decidable (_ ∧ _))

def wrap (x : Int) : Int := (x - T.minVal) % 2 ^ T.bits + T.minVal

variable {T}

theorem wrap_of_fits {x : Int} (hx : T.Fits x) : T.wrap x = x := by
  obtain ⟨hlow, hhigh⟩ := hx
  have hmod : (x - T.minVal) % 2 ^ T.bits = x - T.minVal := Int.emod_eq_of_lt (by omega) (by omega)
  unfold wrap
  omega

theorem half_bits : (2 : Int) ^ T.bits = 2 * 2 ^ (T.bits - 1) := by
  obtain h | h := T.supported <;> rw [h] <;> norm_num

theorem fits_signed (hT : T.signed = true) {x : Int} :
    T.Fits x ↔ -2 ^ (T.bits - 1) ≤ x ∧ x < 2 ^ (T.bits - 1) := by
  have hhalf := T.half_bits
  simp only [Fits, minVal, hT, if_true]
  constructor <;> rintro ⟨h, h'⟩ <;> constructor <;> omega

theorem fits_unsigned (hT : T.signed = false) {x : Int} : T.Fits x ↔ 0 ≤ x ∧ x < 2 ^ T.bits := by
  simp [Fits, minVal, hT]

theorem fits_zero : T.Fits 0 := by
  have hpos : (0 : Int) < 2 ^ T.bits := by positivity
  have hhalf := T.half_bits
  cases hT : T.signed
  · exact (fits_unsigned hT).mpr ⟨le_rfl, hpos⟩
  · exact (fits_signed hT).mpr ⟨by omega, by omega⟩

theorem wrap_modEq (x : Int) : T.wrap x ≡ x [ZMOD 2 ^ T.bits] := by
  have h := (Int.mod_modEq (x - T.minVal) (2 ^ T.bits)).add_right T.minVal
  rwa [sub_add_cancel] at h

theorem wrap_wrap_mul_add (x b y : Int) : T.wrap (T.wrap x * b + y) = T.wrap (x * b + y) := by
  have hmod := T.wrap_modEq x
  unfold wrap at *
  rw [((hmod.mul_right b).add_right y).sub_right T.minVal]

theorem wrap_unsigned (hT : T.signed = false) (x : Int) : T.wrap x = x % 2 ^ T.bits := by
  simp [wrap, minVal, hT]

theorem wrap_neg_iff (hT : T.signed = true) (x : Int) : T.wrap x < 0 ↔ 2 ^ (T.bits - 1) ≤ x % 2 ^ T.bits := by
  simp only [wrap, minVal, hT, if_true, sub_neg_eq_add]
  obtain h | h := T.supported <;> simp only [h] <;> norm_num <;> omega

end IntType

/-! ## The parser -/

def digitToVal (c : UInt8) : Int :=
  if 48 ≤ c ∧ c ≤ 57 then c.toNat - 48
  else if 65 ≤ c ∧ c ≤ 70 then c.toNat - 55
  else if 97 ≤ c ∧ c ≤ 102 then c.toNat - 87
  else -1

def isValidDigit (d : UInt8) (base : Nat) : Bool :=
  d < 128 && (0 ≤ digitToVal d && digitToVal d < base)

/-- What the function returns: the value, the rest of the string at `endptr`, and the error. -/
structure Parsed where
  value : Int
  endptr : List UInt8
  error : Option Errno
deriving DecidableEq

section
variable (T : IntType) (base : Nat) (sign : Int)

def strtolNext (res : Int) (d : Int) : Int :=
  if T.signed then T.wrap (res * base + sign * d) else T.wrap (res * base + d)

def strtolOverflow (res next : Int) : Bool :=
  if T.signed then decide (sign > 0) != decide (next ≥ 0) else next < res

/-- The loop over the digits: `none` at an overflow, otherwise the result and the rest of the string. -/
def strtolLoop : List UInt8 → Int → Option (Int × List UInt8)
  | [], res => some (res, [])
  | c :: p, res =>
    if isValidDigit c base then
      let next := strtolNext T base sign res (digitToVal c)
      if strtolOverflow T sign res next then none else strtolLoop p next
    else
      some (res, c :: p)

def hasMinus (str : List UInt8) : Bool :=
  T.signed && str.head? == some 45

def skipMinus (str : List UInt8) : List UInt8 :=
  if hasMinus T str then str.tail else str

def signOf (str : List UInt8) : Int :=
  if hasMinus T str then -1 else 1

/-- `__usax_strtol<T>` on the bytes before the terminator. -/
def usaxStrtol (str : List UInt8) : Parsed :=
  let start := skipMinus T str
  match strtolLoop T base (signOf T str) start 0 with
  | none => ⟨0, start, some .erange⟩
  | some (res, p) => ⟨res, p, if p = start then some .einval else none⟩

end

/-! ## Numerals -/

def leadingDigits (base : Nat) (str : List UInt8) : List Nat :=
  (str.takeWhile (isValidDigit · base)).map fun c => (digitToVal c).toNat

def afterDigits (base : Nat) (str : List UInt8) : List UInt8 :=
  str.dropWhile (isValidDigit · base)

/-- The number that digits stand for, after a number `v` already read. -/
def digitsValue (base v : Nat) (ds : List Nat) : Nat :=
  ds.foldl (fun v d => v * base + d) v

def numeralValue (T : IntType) (base : Nat) (str : List UInt8) : Int :=
  signOf T str * digitsValue base 0 (leadingDigits base (skipMinus T str))

theorem le_digitsValue {base : Nat} (hbase : 2 ≤ base) (v : Nat) (ds : List Nat) : v ≤ digitsValue base v ds := by
  induction ds generalizing v with
  | nil => exact le_rfl
  | cons d ds ih =>
    have hv : v ≤ v * base := Nat.le_mul_of_pos_right v (by omega)
    exact (hv.trans (Nat.le_add_right _ d)).trans (ih _)

theorem leadingDigits_cons_of_valid {base : Nat} {c : UInt8} (hc : isValidDigit c base = true) (p : List UInt8) :
    leadingDigits base (c :: p) = (digitToVal c).toNat :: leadingDigits base p := by
  simp [leadingDigits, hc]

theorem leadingDigits_cons_of_invalid {base : Nat} {c : UInt8} (hc : isValidDigit c base = false)
    (p : List UInt8) : leadingDigits base (c :: p) = [] := by
  simp [leadingDigits, hc]

/-- Modulo `2 ^ bits` the overflow test tells the prefix `V` of a numeral from the prefix `v` before it: it is below it, or it
has the other sign. -/
def Drop (T : IntType) (sign : Int) (v V : Nat) : Prop :=
  if T.signed then
    if sign > 0 then 2 ^ (T.bits - 1) ≤ V % 2 ^ T.bits else (-V : Int) % 2 ^ T.bits < 2 ^ (T.bits - 1)
  else V % 2 ^ T.bits < v % 2 ^ T.bits

instance (T : IntType) (sign : Int) (v V : Nat) : Decidable (Drop T sign v V) := by
  unfold Drop
  infer_instance

/-- A drop at one of the digits, after a number `v` already read. -/
def Drops (T : IntType) (base : Nat) (sign : Int) (v : Nat) (ds : List Nat) : Prop :=
  ∃ i < ds.length, Drop T sign (digitsValue base v (ds.take i)) (digitsValue base v (ds.take (i + 1)))

instance (T : IntType) (base : Nat) (sign : Int) (v : Nat) (ds : List Nat) : Decidable (Drops T base sign v ds) :=
  inferInstanceAs (Decidable (∃ i < _, _))

/-- A numeral that fits and is negative has no leading zero, and one that does not fit has a drop. -/
def Readable (T : IntType) (base : Nat) (str : List UInt8) : Prop :=
  if T.Fits (numeralValue T base str) then
    hasMinus T str = true → (leadingDigits base (skipMinus T str)).head? ≠ some 0
  else Drops T base (signOf T str) 0 (leadingDigits base (skipMinus T str))

instance (T : IntType) (base : Nat) (str : List UInt8) : Decidable (Readable T base str) := by
  unfold Readable
  infer_instance

/-! ## The loop computes the numeral -/

section
variable {T : IntType} {base : Nat} {sign : Int}

theorem fits_of_le (hsign : sign = 1 ∨ sign = -1) {v w : Nat} (hvw : v ≤ w) (hw : T.Fits (sign * (w : Int))) :
    T.Fits (sign * (v : Int)) := by
  have hzero := T.fits_zero
  obtain ⟨hlow, hhigh⟩ := hw
  obtain ⟨hlow₀, hhigh₀⟩ := hzero
  obtain rfl | rfl := hsign <;> constructor <;> omega

theorem strtolNext_eq (hsign : sign = 1 ∨ T.signed = true ∧ sign = -1) {c : UInt8}
    (hc : isValidDigit c base = true) (v : Nat) :
    strtolNext T base sign (T.wrap (sign * (v : Int))) (digitToVal c)
      = T.wrap (sign * ((v * base + (digitToVal c).toNat : Nat) : Int)) := by
  have hd : ((digitToVal c).toNat : Int) = digitToVal c := by
    simp only [isValidDigit, Bool.and_eq_true, decide_eq_true_eq] at hc
    exact Int.toNat_of_nonneg hc.2.1
  have harg : sign * (v : Int) * base + sign * digitToVal c
      = sign * ((v * base + (digitToVal c).toNat : Nat) : Int) := by
    push_cast [hd]
    ring
  rw [← harg, ← IntType.wrap_wrap_mul_add]
  obtain rfl | ⟨hT, rfl⟩ := hsign
  · simp [strtolNext]
  · simp [strtolNext, hT]

theorem strtolOverflow_iff (hsign : sign = 1 ∨ T.signed = true ∧ sign = -1) (v V : Nat) :
    strtolOverflow T sign (T.wrap (sign * (v : Int))) (T.wrap (sign * (V : Int))) = true ↔ Drop T sign v V := by
  obtain rfl | ⟨hT, rfl⟩ := hsign
  · cases hT : T.signed with
    | false =>
      simp only [strtolOverflow, Drop, hT, Bool.false_eq_true, if_false, decide_eq_true_eq, one_mul,
        IntType.wrap_unsigned hT]
      exact_mod_cast Iff.rfl
    | true =>
      have hneg := IntType.wrap_neg_iff hT (V : Int)
      simp only [strtolOverflow, Drop, hT, if_true, gt_iff_lt, zero_lt_one, one_mul, decide_true, bne_iff_ne, ne_eq,
        true_eq_decide_iff, not_le]
      rw [hneg]
      exact_mod_cast Iff.rfl
  · have hneg := IntType.wrap_neg_iff hT (-(V : Int))
    simp [strtolOverflow, Drop, hT]
    omega

theorem drops_cons {v d : Nat} {ds : List Nat} :
    Drops T base sign v (d :: ds) ↔ Drop T sign v (v * base + d) ∨ Drops T base sign (v * base + d) ds := by
  constructor
  · rintro ⟨i, hi, h⟩
    cases i with
    | zero => exact .inl h
    | succ i => exact .inr ⟨i, by simpa using hi, h⟩
  · rintro (h | ⟨i, hi, h⟩)
    · exact ⟨0, by simp, h⟩
    · exact ⟨i + 1, by simpa using hi, h⟩

/-- From a prefix of value `v` on, the loop ends with what the numeral wraps to, at the first character that is no digit,
unless a prefix drops. -/
theorem strtolLoop_eq (hsign : sign = 1 ∨ T.signed = true ∧ sign = -1) (p : List UInt8) (v : Nat) :
    strtolLoop T base sign p (T.wrap (sign * (v : Int))) =
      if Drops T base sign v (leadingDigits base p) then none
      else some (T.wrap (sign * (digitsValue base v (leadingDigits base p) : Int)), afterDigits base p) := by
  have hnil (v : Nat) : ¬ Drops T base sign v [] := by simp [Drops]
  induction p generalizing v with
  | nil => simp [strtolLoop, leadingDigits, digitsValue, afterDigits, hnil]
  | cons c p ih =>
    cases hc : isValidDigit c base with
    | false => simp [strtolLoop, leadingDigits_cons_of_invalid hc, digitsValue, afterDigits, hc, hnil]
    | true =>
      have hafter : afterDigits base (c :: p) = afterDigits base p := by simp [afterDigits, hc]
      simp only [strtolLoop, hc, if_true, strtolNext_eq hsign hc, strtolOverflow_iff hsign, hafter,
        leadingDigits_cons_of_valid hc, drops_cons]
      by_cases hdrop : Drop T sign v (v * base + (digitToVal c).toNat)
      · simp [hdrop]
      · simp only [hdrop, if_false, false_or]
        exact ih _

theorem drop_of_fits (hsign : sign = 1 ∨ T.signed = true ∧ sign = -1) {v V : Nat} (hvV : v ≤ V)
    (hfits : T.Fits (sign * (V : Int))) : Drop T sign v V ↔ sign = -1 ∧ V = 0 := by
  have hhalf := T.half_bits
  obtain rfl | ⟨hT, rfl⟩ := hsign
  · refine iff_of_false ?_ (by simp)
    cases hT : T.signed with
    | false =>
      have hlt : V < 2 ^ T.bits := by exact_mod_cast (one_mul (V : Int) ▸ ((IntType.fits_unsigned hT).mp hfits).2)
      simp only [Drop, hT, Bool.false_eq_true, if_false, not_lt]
      rwa [Nat.mod_eq_of_lt hlt, Nat.mod_eq_of_lt (hvV.trans_lt hlt)]
    | true =>
      have hlt : V < 2 ^ (T.bits - 1) := by exact_mod_cast (one_mul (V : Int) ▸ ((IntType.fits_signed hT).mp hfits).2)
      have hle : 2 ^ (T.bits - 1) ≤ 2 ^ T.bits := Nat.pow_le_pow_right (by decide) (Nat.sub_le _ _)
      simp only [Drop, hT, if_true, gt_iff_lt, zero_lt_one, not_le]
      rwa [Nat.mod_eq_of_lt (hlt.trans_le hle)]
  · have hlow := ((IntType.fits_signed hT).mp hfits).1
    simp only [Drop, hT, if_true, gt_iff_lt, Int.reduceNeg, Int.reduceLT, if_false, true_and]
    rcases Nat.eq_zero_or_pos V with rfl | hpos
    · simp
    · have hmod : (-(V : Int)) % 2 ^ T.bits = 2 ^ T.bits - V := by
        rw [← Int.add_emod_right, Int.emod_eq_of_lt (by omega) (by omega)]
        omega
      rw [hmod]
      omega

/-- While the prefixes fit, only a zero after the minus sign is a drop. -/
theorem drops_of_fits (hbase : 2 ≤ base) (hsign : sign = 1 ∨ T.signed = true ∧ sign = -1) (v : Nat) (ds : List Nat)
    (hfits : T.Fits (sign * (digitsValue base v ds : Int))) :
    Drops T base sign v ds ↔ sign = -1 ∧ v = 0 ∧ ds.head? = some 0 := by
  induction ds generalizing v with
  | nil => simp [Drops]
  | cons d ds ih =>
    have hvV : v ≤ v * base + d := (Nat.le_mul_of_pos_right v (by omega)).trans (Nat.le_add_right _ d)
    have hV : T.Fits (sign * ((v * base + d : Nat) : Int)) :=
      fits_of_le (hsign.imp_right And.right) (le_digitsValue hbase _ ds) hfits
    have hzero : v * base + d = 0 ↔ v = 0 ∧ d = 0 := by
      rw [Nat.add_eq_zero_iff, Nat.mul_eq_zero]
      omega
    rw [drops_cons, drop_of_fits hsign hvV hV, ih _ hfits, hzero]
    simp only [List.head?_cons, Option.some.injEq]
    tauto

end

theorem signOf_eq (T : IntType) (str : List UInt8) : signOf T str = 1 ∨ T.signed = true ∧ signOf T str = -1 := by
  cases hm : hasMinus T str with
  | false => exact .inl (by simp [signOf, hm])
  | true =>
    simp only [hasMinus, Bool.and_eq_true] at hm
    exact .inr ⟨hm.1, by simp [signOf, hasMinus, hm]⟩

theorem afterDigits_eq_self_iff (base : Nat) (str : List UInt8) :
    afterDigits base str = str ↔ leadingDigits base str = [] := by
  cases str with
  | nil => simp [afterDigits, leadingDigits]
  | cons c p =>
    cases hc : isValidDigit c base with
    | false => simp [afterDigits, leadingDigits, hc]
    | true =>
      have hlen := (List.dropWhile_sublist (l := p) (isValidDigit · base)).length_le
      simp only [afterDigits, leadingDigits, List.dropWhile_cons, List.takeWhile_cons, hc, if_true, List.map_cons,
        reduceCtorEq, iff_false]
      intro h
      have := congrArg List.length h
      simp only [List.length_cons] at this
      omega

theorem usaxStrtol_eq {T : IntType} {base : Nat} (str : List UInt8) :
    usaxStrtol T base str =
      if Drops T base (signOf T str) 0 (leadingDigits base (skipMinus T str)) then ⟨0, skipMinus T str, some .erange⟩
      else ⟨T.wrap (numeralValue T base str), afterDigits base (skipMinus T str),
        if leadingDigits base (skipMinus T str) = [] then some .einval else none⟩ := by
  have hloop := @strtolLoop_eq T base _ (signOf_eq T str) (skipMinus T str) 0
  rw [Nat.cast_zero, mul_zero, IntType.wrap_of_fits T.fits_zero] at hloop
  simp only [usaxStrtol, hloop]
  split_ifs with h₁ h₂
  · rfl
  · simp [numeralValue, afterDigits_eq_self_iff, h₂]
  · simp [numeralValue, afterDigits_eq_self_iff, h₂]

theorem drops_iff_minus_zero {T : IntType} {base : Nat} (hbase : 2 ≤ base) {str : List UInt8}
    (hfits : T.Fits (numeralValue T base str)) :
    Drops T base (signOf T str) 0 (leadingDigits base (skipMinus T str)) ↔
      hasMinus T str = true ∧ (leadingDigits base (skipMinus T str)).head? = some 0 := by
  have hminus : signOf T str = -1 ↔ hasMinus T str = true := by
    unfold signOf
    split_ifs with h <;> simp [h]
  rw [drops_of_fits hbase (signOf_eq T str) 0 _ hfits, hminus]
  simp

theorem usaxStrtol_of_fits {T : IntType} {base : Nat} (hbase : 2 ≤ base) {str : List UInt8}
    (hfits : T.Fits (numeralValue T base str))
    (hzero : hasMinus T str = true → (leadingDigits base (skipMinus T str)).head? ≠ some 0) :
    usaxStrtol T base str = ⟨numeralValue T base str, afterDigits base (skipMinus T str),
      if leadingDigits base (skipMinus T str) = [] then some .einval else none⟩ := by
  have hno := mt (drops_iff_minus_zero hbase hfits).mp fun h => hzero h.1 h.2
  rw [usaxStrtol_eq, if_neg hno, IntType.wrap_of_fits hfits]

end Usax.Common
