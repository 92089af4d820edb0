import Mathlib.Tactic
import Mathlib.Data.Nat.Digits.Lemmas
import Usax.Common.Strtol

/-!
# Printing numbers

`__itoa` of `itoa.cpp` with `str_reverse` of `string_util.c`, and its round trip through the parser.
-/

namespace Usax.Common

/-! ## Reversing a string in place -/

/-- The exchange of two characters by three exclusive ors. -/
def xorSwap (str : List UInt8) (i j : Nat) : List UInt8 :=
  let a := str.getD i 0 ^^^ str.getD j 0
  let b := str.getD j 0 ^^^ a
  (str.set j b).set i (a ^^^ b)

/-- The loop of `str_reverse`, with the positions of its two pointers. -/
def strReverseLoop : Nat → List UInt8 → Nat → Nat → List UInt8
  | 0, str, _, _ => str
  | fuel + 1, str, i, j =>
    if i < j then strReverseLoop fuel (xorSwap str i j) (i + 1) (j - 1) else str

def strReverse (str : List UInt8) : List UInt8 :=
  if str.length = 0 then str else strReverseLoop str.length str 0 (str.length - 1)

theorem getElem?_xorSwap {str : List UInt8} {i j : Nat} (hij : i < j) (hj : j < str.length) (x : Nat) :
    (xorSwap str i j)[x]? = if x = i then str[j]? else if x = j then str[i]? else str[x]? := by
  have hi : i < str.length := hij.trans hj
  have hb : ∀ a b : UInt8, b ^^^ (a ^^^ b) = a := fun a b => by
    rw [UInt8.xor_comm a, ← UInt8.xor_assoc, UInt8.xor_self, UInt8.zero_xor]
  have ha : ∀ a b : UInt8, a ^^^ b ^^^ a = b := fun a b => by
    rw [UInt8.xor_comm a, UInt8.xor_assoc, UInt8.xor_self, UInt8.xor_zero]
  simp only [xorSwap, hb, ha, List.getElem?_set, List.length_set, List.getD_eq_getElem?_getD,
    List.getElem?_eq_getElem hi, List.getElem?_eq_getElem hj, Option.getD_some]
  by_cases hxi : x = i
  · subst hxi
    simp [hi]
  · by_cases hxj : x = j
    · subst hxj
      simp [hj, Ne.symm hxi, hxi]
    · simp [hxi, hxj, Ne.symm hxi, Ne.symm hxj]

theorem length_xorSwap (str : List UInt8) (i j : Nat) : (xorSwap str i j).length = str.length := by
  simp [xorSwap]

theorem getElem?_mirror_of_le (str : List UInt8) {i j : Nat} (hij : j ≤ i) (x : Nat) :
    str[x]? = if i ≤ x ∧ x ≤ j then str[i + j - x]? else str[x]? := by
  split_ifs with hx
  · congr 1
    omega
  · rfl

theorem getElem?_strReverseLoop (fuel : Nat) (str : List UInt8) (i j : Nat) (hfuel : j - i ≤ fuel)
    (hj : j < str.length) (x : Nat) :
    (strReverseLoop fuel str i j)[x]? = if i ≤ x ∧ x ≤ j then str[i + j - x]? else str[x]? := by
  induction fuel generalizing str i j with
  | zero => exact getElem?_mirror_of_le str (by omega) x
  | succ fuel ih =>
    unfold strReverseLoop
    by_cases hij : i < j
    · rw [if_pos hij, ih _ _ _ (by omega) (by rw [length_xorSwap]; omega)]
      simp only [getElem?_xorSwap hij hj]
      split_ifs <;> first | omega | rfl | (congr 1; omega)
    · rw [if_neg hij]
      exact getElem?_mirror_of_le str (by omega) x

theorem strReverse_eq (str : List UInt8) : strReverse str = str.reverse := by
  unfold strReverse
  split_ifs with hlen
  · simp [List.length_eq_zero_iff.mp hlen]
  · have hpos : 0 < str.length := Nat.pos_of_ne_zero hlen
    refine List.ext_getElem? fun x => ?_
    rw [getElem?_strReverseLoop _ _ _ _ (by omega) (by omega)]
    by_cases hx : x < str.length
    · rw [if_pos (by omega), List.getElem?_reverse hx, Nat.zero_add]
    · rw [if_neg (by omega), List.getElem?_eq_none (by omega), List.getElem?_eq_none (by simpa using hx)]

/-! ## The printer -/

/-- `DIGITS`. -/
def digitChars : List UInt8 :=
  [48, 49, 50, 51, 52, 53, 54, 55, 56, 57, 97, 98, 99, 100, 101, 102]

def digitChar (d : Nat) : UInt8 := digitChars.getD d 0

/-- The loop over the digits, from the least significant one; a value of the type has at most one per bit. -/
def itoaLoop (base : Nat) : Nat → Nat → List UInt8
  | 0, _ => []
  | fuel + 1, value =>
    if value = 0 then [] else digitChar (value % base) :: itoaLoop base fuel (value / base)

/-- The absolute value, as the unsigned type of the same width. -/
def magnitude (T : IntType) (svalue : Int) : Nat :=
  (if svalue ≥ 0 then svalue % 2 ^ T.bits else T.wrap (-svalue) % 2 ^ T.bits).toNat

/-- `__itoa<T>`: the bytes before the terminator. -/
def itoa (T : IntType) (svalue : Int) (base : Nat) : List UInt8 :=
  if svalue = 0 then [digitChar 0]
  else strReverse (itoaLoop base T.bits (magnitude T svalue) ++ if svalue < 0 then [45] else [])

theorem itoaLoop_eq {base : Nat} (hbase : 2 ≤ base) (fuel value : Nat) (hvalue : value < 2 ^ fuel) :
    itoaLoop base fuel value = (Nat.digits base value).map digitChar := by
  induction fuel generalizing value with
  | zero =>
    obtain rfl : value = 0 := by simpa using hvalue
    simp [itoaLoop]
  | succ fuel ih =>
    unfold itoaLoop
    by_cases h0 : value = 0
    · simp [h0]
    · have hdiv : value / base < 2 ^ fuel := by
        rw [Nat.div_lt_iff_lt_mul (by omega)]
        calc value < 2 ^ fuel * 2 := by rwa [pow_succ] at hvalue
          _ ≤ 2 ^ fuel * base := Nat.mul_le_mul_left _ hbase
      have hdigits := Nat.digits_def' (show 1 < base by omega) (Nat.pos_of_ne_zero h0)
      rw [if_neg h0, ih _ hdiv, hdigits, List.map_cons]

theorem magnitude_eq {T : IntType} {svalue : Int} (h : T.Fits svalue) : magnitude T svalue = svalue.natAbs := by
  cases hT : T.signed with
  | false =>
    obtain ⟨hlow, hhigh⟩ := (IntType.fits_unsigned hT).mp h
    rw [magnitude, if_pos hlow, Int.emod_eq_of_lt hlow hhigh]
    omega
  | true =>
    obtain ⟨hlow, hhigh⟩ := (IntType.fits_signed hT).mp h
    have hhalf := T.half_bits
    simp only [magnitude, IntType.wrap, IntType.minVal, hT, if_true]
    obtain hb | hb := T.supported <;> simp only [hb] at hlow hhigh ⊢ <;> norm_num at hlow hhigh ⊢ <;>
      split_ifs <;> omega

theorem natAbs_lt_of_fits {T : IntType} {svalue : Int} (h : T.Fits svalue) : svalue.natAbs < 2 ^ T.bits := by
  have hpos : (0 : Int) < 2 ^ (T.bits - 1) := by positivity
  have hhalf := T.half_bits
  have habs : |svalue| < 2 ^ T.bits := by
    rw [abs_lt]
    cases hT : T.signed with
    | false =>
      obtain ⟨hlow, hhigh⟩ := (IntType.fits_unsigned hT).mp h
      constructor <;> omega
    | true =>
      obtain ⟨hlow, hhigh⟩ := (IntType.fits_signed hT).mp h
      constructor <;> omega
  rw [Int.abs_eq_natAbs] at habs
  exact_mod_cast habs

theorem itoa_eq {T : IntType} {base : Nat} (hbase : 2 ≤ base) {svalue : Int} (h : T.Fits svalue) (h0 : svalue ≠ 0) :
    itoa T svalue base
      = (if svalue < 0 then [45] else []) ++ (Nat.digits base svalue.natAbs).reverse.map digitChar := by
  rw [itoa, if_neg h0, strReverse_eq, magnitude_eq h, itoaLoop_eq hbase _ _ (natAbs_lt_of_fits h)]
  split_ifs <;> simp

/-! ## The round trip -/

theorem digitToVal_digitChar {d : Nat} (hd : d < 16) : digitToVal (digitChar d) = d ∧ digitChar d < 128 := by
  have hall : ∀ d : Fin 16, digitToVal (digitChar d) = (d : Nat) ∧ digitChar d < 128 := by decide
  exact hall ⟨d, hd⟩

theorem isValidDigit_digitChar {base d : Nat} (hd : d < base) (hbase : base ≤ 16) :
    isValidDigit (digitChar d) base = true := by
  obtain ⟨hval, hlt⟩ := digitToVal_digitChar (hd.trans_le hbase)
  simp [isValidDigit, hval, hlt, hd]

theorem leadingDigits_append {base : Nat} (hbase : base ≤ 16) {ds : List Nat} (hds : ∀ d ∈ ds, d < base) {t : List UInt8}
    (ht : ∀ c, t.head? = some c → isValidDigit c base = false) :
    leadingDigits base (ds.map digitChar ++ t) = ds ∧ afterDigits base (ds.map digitChar ++ t) = t := by
  induction ds with
  | nil =>
    cases t with
    | nil => exact ⟨rfl, rfl⟩
    | cons c t =>
      have hc := ht c rfl
      exact ⟨leadingDigits_cons_of_invalid hc t, by simp [afterDigits, hc]⟩
  | cons d ds ih =>
    obtain ⟨hlead, hafter⟩ := ih fun e he => hds e (List.mem_cons_of_mem d he)
    have hd : d < base := hds d List.mem_cons_self
    have hvalid := isValidDigit_digitChar hd hbase
    have hval := (digitToVal_digitChar (hd.trans_le hbase)).1
    rw [List.map_cons, List.cons_append]
    constructor
    · rw [leadingDigits_cons_of_valid hvalid, hlead, hval, Int.toNat_natCast]
    · rw [afterDigits, List.dropWhile_cons, if_pos hvalid]
      exact hafter

theorem digitsValue_reverse (base : Nat) (ds : List Nat) : digitsValue base 0 ds.reverse = Nat.ofDigits base ds := by
  induction ds with
  | nil => simp [digitsValue]
  | cons d ds ih =>
    unfold digitsValue at ih ⊢
    rw [List.reverse_cons, List.foldl_append, ih, Nat.ofDigits_cons]
    simp [Nat.mul_comm, Nat.add_comm]

theorem usaxStrtol_text {T : IntType} {base : Nat} (hbase : 2 ≤ base ∧ base ≤ 16) {str : List UInt8} {ds : List Nat}
    (hds : ∀ d ∈ ds, d < base) (hne : ds ≠ []) (hstr : skipMinus T str = ds.map digitChar)
    (hzero : hasMinus T str = true → ds.head? ≠ some 0)
    (hfits : T.Fits (signOf T str * (digitsValue base 0 ds : Int))) :
    usaxStrtol T base str = ⟨signOf T str * (digitsValue base 0 ds : Int), [], none⟩ := by
  have htail : ∀ c, ([] : List UInt8).head? = some c → isValidDigit c base = false := by simp
  obtain ⟨hlead, hafter⟩ := leadingDigits_append hbase.2 hds htail
  rw [List.append_nil] at hlead hafter
  have hvalue : numeralValue T base str = signOf T str * (digitsValue base 0 ds : Int) := by
    rw [numeralValue, hstr, hlead]
  rw [usaxStrtol_of_fits hbase.1 (hvalue ▸ hfits) (by rwa [hstr, hlead]), hvalue, hstr, hlead, hafter, if_neg hne]

theorem usaxStrtol_small {long : IntType} (hlong : long.signed = true) {s : List UInt8} (hminus : hasMinus long s = false)
    (hlt : digitsValue 10 0 (leadingDigits 10 s) < 2 ^ 31) :
    (usaxStrtol long 10 s).value = digitsValue 10 0 (leadingDigits 10 s) ∧
      (usaxStrtol long 10 s).endptr = afterDigits 10 s := by
  have hsign : signOf long s = 1 := by simp [signOf, hminus]
  have hskip : skipMinus long s = s := by simp [skipMinus, hminus]
  have hvalue : numeralValue long 10 s = digitsValue 10 0 (leadingDigits 10 s) := by
    rw [numeralValue, hsign, hskip, one_mul]
  have hfits : long.Fits (numeralValue long 10 s) := by
    rw [hvalue, IntType.fits_signed hlong]
    generalize digitsValue 10 0 (leadingDigits 10 s) = v at hlt ⊢
    obtain h | h := long.supported <;> rw [h] <;> constructor <;> omega
  rw [usaxStrtol_of_fits (by decide) hfits (by simp [hminus]), hvalue, hskip]
  exact ⟨rfl, rfl⟩

theorem hasMinus_map_digitChar (T : IntType) {base : Nat} (hbase : base ≤ 16) {ds : List Nat}
    (hds : ∀ d ∈ ds, d < base) : hasMinus T (ds.map digitChar) = false := by
  have hall : ∀ d : Fin 16, (some (digitChar d) == some (45 : UInt8)) = false := by decide
  cases ds with
  | nil => simp [hasMinus]
  | cons d ds =>
    have hd : d < 16 := (hds d List.mem_cons_self).trans_le hbase
    have hne := hall ⟨d, hd⟩
    rw [hasMinus, List.map_cons, List.head?_cons, hne, Bool.and_false]

theorem usaxStrtol_digits {T : IntType} {base : Nat} (hbase : 2 ≤ base ∧ base ≤ 16) {ds : List Nat}
    (hds : ∀ d ∈ ds, d < base) (hne : ds ≠ []) (hfits : T.Fits (digitsValue base 0 ds : Int)) :
    usaxStrtol T base (ds.map digitChar) = ⟨digitsValue base 0 ds, [], none⟩ := by
  have hminus : hasMinus T (ds.map digitChar) = false := hasMinus_map_digitChar T hbase.2 hds
  have hsign : signOf T (ds.map digitChar) = 1 := by simp [signOf, hminus]
  have hskip : skipMinus T (ds.map digitChar) = ds.map digitChar := by simp [skipMinus, hminus]
  have hparse := usaxStrtol_text hbase hds hne hskip (by simp [hminus]) (by rwa [hsign, one_mul])
  rwa [hsign, one_mul] at hparse

theorem usaxStrtol_minus_digits {T : IntType} (hsigned : T.signed = true) {base : Nat} (hbase : 2 ≤ base ∧ base ≤ 16)
    {ds : List Nat} (hds : ∀ d ∈ ds, d < base) (hne : ds ≠ []) (hhead : ds.head? ≠ some 0)
    (hfits : T.Fits (-(digitsValue base 0 ds : Int))) :
    usaxStrtol T base (45 :: ds.map digitChar) = ⟨-(digitsValue base 0 ds : Int), [], none⟩ := by
  have hminus : hasMinus T (45 :: ds.map digitChar) = true := by simp [hasMinus, hsigned]
  have hsign : signOf T (45 :: ds.map digitChar) = -1 := by simp [signOf, hminus]
  have hskip : skipMinus T (45 :: ds.map digitChar) = ds.map digitChar := by simp [skipMinus, hminus]
  have hparse := usaxStrtol_text hbase hds hne hskip (fun _ => hhead) (by rwa [hsign, neg_one_mul])
  rwa [hsign, neg_one_mul] at hparse

/-- Whatever value of the type is printed, in whatever base, the parser of the type reads it back: the same value,
no error, and the end pointer at the terminator. -/
theorem usaxStrtol_itoa (T : IntType) (base : Nat) (hbase : 2 ≤ base ∧ base ≤ 16) (value : Int)
    (hvalue : T.Fits value) : usaxStrtol T base (itoa T value base) = ⟨value, [], none⟩ := by
  by_cases h0 : value = 0
  · subst h0
    have hds : ∀ d ∈ [0], d < base := by
      intro d hd
      rw [List.mem_singleton.mp hd]
      omega
    have hparse := usaxStrtol_digits hbase hds (by simp) (by simpa [digitsValue] using T.fits_zero)
    simpa [itoa, digitsValue] using hparse
  set ds := (Nat.digits base value.natAbs).reverse with hdef
  have hds : ∀ d ∈ ds, d < base := fun d hd => Nat.digits_lt_base (by omega) (List.mem_reverse.mp hd)
  have hnil : Nat.digits base value.natAbs ≠ [] := Nat.digits_ne_nil_iff_ne_zero.mpr (by omega)
  have hne : ds ≠ [] := by simpa [hdef] using hnil
  have hnum : (digitsValue base 0 ds : Int) = value.natAbs := by
    rw [hdef, digitsValue_reverse, Nat.ofDigits_digits]
  rw [itoa_eq hbase.1 hvalue h0, ← hdef]
  by_cases hneg : value < 0
  · have hback : -(digitsValue base 0 ds : Int) = value := by
      rw [hnum]
      omega
    -- the first digit of a number other than zero is not zero
    have hhead : ds.head? ≠ some 0 := by
      rw [hdef, List.head?_reverse, List.getLast?_eq_some_getLast hnil]
      simpa using Nat.getLast_digit_ne_zero base (show value.natAbs ≠ 0 by omega)
    have hsigned : T.signed = true := by
      by_contra hT
      have := ((IntType.fits_unsigned (Bool.eq_false_iff.mpr hT)).mp hvalue).1
      omega
    rw [if_pos hneg, List.singleton_append, usaxStrtol_minus_digits hsigned hbase hds hne hhead (by rwa [hback]), hback]
  · have hback : (digitsValue base 0 ds : Int) = value := by
      rw [hnum]
      omega
    rw [if_neg hneg, List.nil_append, usaxStrtol_digits hbase hds hne (by rwa [hback]), hback]

/-- The smallest 64-bit value. -/
theorem usaxStrtol_itoa_minimum :
    usaxStrtol .s64 10 (itoa .s64 (-9223372036854775808) 10) = ⟨-9223372036854775808, [], none⟩ :=
  usaxStrtol_itoa .s64 10 (by decide) (-9223372036854775808) (by decide)

end Usax.Common
