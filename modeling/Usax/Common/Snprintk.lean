import Mathlib.Tactic
import Usax.Common.Itoa
import Usax.Lib.Writer

/-!
# Formatted output

`snprintk.c`. A format is read item by item: a character, or a `%` sequence with what its flags and modifiers have set. Every
item is written to the end of the buffer, and the first one without room behind it is the last. `formatText` is the text of a
format, as far as there is room for it.
-/

namespace Usax.Common

open Usax.Lib

inductive PrintkWidth
  | longLong | long | default | short | char
deriving DecidableEq, Repr

/-- The parameters of a sequence in `struct snprintk_ctx`. -/
structure SeqState where
  width : PrintkWidth
  lpad : Int
  rpad : Int
  precision : Int
  zeroLpad : Bool
  hashSign : Bool
deriving DecidableEq, Repr

def resetState : SeqState := ⟨.default, 0, 0, -1, false, false⟩

/-- The arguments: integers, also those for characters and pointers, and strings. -/
inductive VaArg
  | int (v : Int)
  | str (s : Option (List UInt8))

-- `va_arg`. An argument that is missing or of the other kind does not match the format.
def nextInt : List VaArg → Int × List VaArg
  | .int v :: args => (v, args)
  | _ :: args => (0, args)
  | [] => (0, [])

def nextStr : List VaArg → Option (List UInt8) × List VaArg
  | .str s :: args => (s, args)
  | _ :: args => (none, args)
  | [] => (none, [])

/-! ## Writing a string -/

def int (x : Int) : Int := IntType.s32.wrap x

/-- `write_0x_prefix`. -/
def prefixText (fmtX : UInt8) : List UInt8 :=
  if fmtX = 120 ∨ fmtX = 112 then [48, 120] else if fmtX = 111 then [48] else []

def write0xPrefix (fmtX : UInt8) : Writer UInt8 :=
  if fmtX = 120 ∨ fmtX = 112 ∨ fmtX = 111 then
    (put 48).andThen (if fmtX = 120 ∨ fmtX = 112 then put 120 else done)
  else done

def writeInBufStr (s : List UInt8) (len : Int) : Writer UInt8 := putText (if len ≥ 0 then s.take len.toNat else s)

section
variable (st : SeqState) (fmtX : UInt8) (str : List UInt8)

/-- The local variables of `write_str`. -/
def zeroPad : Bool := if st.precision ≥ 0 ∧ fmtX ≠ 115 then true else st.zeroLpad

def hashOff : Int := if st.hashSign then if fmtX = 120 then 2 else if fmtX = 111 then 1 else 0 else 0

def leftPad : Nat :=
  let lpad :=
    if st.precision ≥ 0 ∧ fmtX ≠ 115 then max 0 (int (st.precision - str.length)) else max 0 (int (st.lpad - str.length))
  (max 0 (lpad - hashOff st fmtX)).toNat

def rightPad : Nat := (max 0 (max 0 (int (st.rpad - str.length)) - hashOff st fmtX)).toNat

def padChar : UInt8 := if zeroPad st fmtX ∧ fmtX ≠ 99 then 48 else 32

def writeStr : Writer UInt8 :=
  (if zeroPad st fmtX ∧ st.hashSign then write0xPrefix fmtX else done).andThen <|
  (putMany (padChar st fmtX) (leftPad st fmtX str)).andThen <|
  (if (fmtX = 112 ∨ st.hashSign) ∧ padChar st fmtX ≠ 48 then write0xPrefix fmtX else done).andThen <|
  (writeInBufStr str st.precision).andThen <|
  putMany (padChar st fmtX) (rightPad st fmtX str)

/-- What `write_str` writes where there is room. -/
def strText : List UInt8 :=
  (if zeroPad st fmtX ∧ st.hashSign then prefixText fmtX else []) ++
    (List.replicate (leftPad st fmtX str) (padChar st fmtX) ++
      ((if (fmtX = 112 ∨ st.hashSign) ∧ padChar st fmtX ≠ 48 then prefixText fmtX else []) ++
        ((if st.precision ≥ 0 then str.take st.precision.toNat else str) ++
          List.replicate (rightPad st fmtX str) (padChar st fmtX))))

end

/-! ## The parameters -/

section
variable (long : IntType)

/-- The unsigned type of the same width. -/
def ulong : IntType := ⟨false, long.bits, long.supported⟩

/-- `width_val`, and the width of `long long`. -/
def widthBits : PrintkWidth → Nat
  | .longLong => 64
  | .long => long.bits
  | .default => 32
  | .short => 16
  | .char => 8

/-- `sign_extend` of the low `w` bits. -/
def signExtend (w : Nat) (x : Int) : Int := (x + 2 ^ (w - 1)) % 2 ^ w - 2 ^ (w - 1)

def toupper (c : UInt8) : UInt8 := if 97 ≤ c ∧ c ≤ 122 then c - 32 else c

def diuoxBase (fmtX : UInt8) : Nat := if fmtX = 111 then 8 else if fmtX = 120 ∨ fmtX = 88 then 16 else 10

/-- The text that `write_number_param` makes of the argument. -/
def numberText (width : PrintkWidth) (fmtX : UInt8) (v : Int) : List UInt8 :=
  if fmtX = 100 ∨ fmtX = 105 then
    if width = .longLong then itoa .s64 (IntType.s64.wrap v) 10
    else itoa long (signExtend (widthBits long width) (long.wrap v)) 10
  else
    let text :=
      if width = .longLong then itoa .u64 (IntType.u64.wrap v) (diuoxBase fmtX)
      else itoa (ulong long) ((ulong long).wrap v % 2 ^ widthBits long width) (diuoxBase fmtX)
    if fmtX = 88 then text.map toupper else text

def hexFixed (v : Int) : List UInt8 :=
  (List.range (long.bits / 4)).map fun i =>
    digitChar (((ulong long).wrap v).toNat / 2 ^ (long.bits - 4 - 4 * i) % 16)

/-- The string that a parameter is written as by `write_str`, with the type it is written with. -/
def paramStr (st : SeqState) (fmtX : UInt8) (args : List VaArg) : UInt8 × List UInt8 × List VaArg :=
  if fmtX = 99 then
    let c := UInt8.ofInt (nextInt args).1
    (99, if c = 0 then [] else [c], (nextInt args).2)
  else if fmtX = 115 then (115, (nextStr args).1.getD [40, 110, 117, 108, 108, 41], (nextStr args).2)
  else if fmtX = 112 then (112, hexFixed long (nextInt args).1, (nextInt args).2)
  else (if fmtX = 88 then 120 else fmtX, numberText long st.width fmtX (nextInt args).1, (nextInt args).2)

/-! ## The sequences -/

/-- What comes next in a format, with the rest of the format and of the arguments. -/
inductive Item
  | char (c : UInt8) (fmt : List UInt8) (args : List VaArg)
  | param (st : SeqState) (fmtX : UInt8) (str : List UInt8) (fmt : List UInt8) (args : List VaArg)
  /-- An unknown or an incomplete sequence, which is printed. -/
  | unknown (st : SeqState) (c : UInt8) (fmt : List UInt8) (args : List VaArg)
  /-- The same at the terminator of the format, which is then passed. -/
  | unknownEnd (st : SeqState)
  | truncated
  /-- The sequence is read again and again. -/
  | hang

/-- The characters with a function in `write_funcs`, and `X`. -/
def isParam (c : UInt8) : Bool := c ∈ [100, 105, 111, 117, 120, 99, 115, 112, 88]

/-- The modifiers `l` and `h`. -/
def doubleMod (l : Bool) : PrintkWidth → Option PrintkWidth
  | .default => some (if l then .long else .short)
  | .long => if l then some .longLong else none
  | .short => if l then none else some .char
  | _ => none

/-- `process_seq` after the `%`, up to what it writes. Each round but those for digits takes a character; `first` says that the
character before is the `%`. -/
def scanSeq : Nat → Bool → List UInt8 → List VaArg → SeqState → Item
  | 0, _, _, _, _ => .hang
  | _ + 1, _, [], _, _ => .truncated
  | fuel + 1, first, c :: fmt, args, st =>
    if isParam c then
      let p := paramStr long st c args
      .param st p.1 p.2.1 fmt p.2.2
    else if c = 48 then scanSeq fuel false fmt args { st with zeroLpad := true }
    else if 49 ≤ c ∧ c ≤ 57 then
      let r := usaxStrtol long 10 (c :: fmt)
      if r.endptr = c :: fmt then .hang else scanSeq fuel false r.endptr args { st with lpad := int r.value }
    else if c = 42 then
      let v := int (nextInt args).1
      scanSeq fuel false fmt (nextInt args).2 (if v < 0 then { st with lpad := 0, rpad := int (-v) } else { st with lpad := v })
    else if c = 45 then
      if fmt.head? = some 42 then
        let v := int (nextInt args).1
        scanSeq fuel false fmt.tail (nextInt args).2 { st with rpad := if v < 0 then int (-v) else v }
      else
        let r := usaxStrtol long 10 fmt
        scanSeq fuel false r.endptr args { st with rpad := int r.value }
    else if c = 46 then
      if fmt.head? = some 42 then
        scanSeq fuel false fmt.tail (nextInt args).2 { st with precision := max 0 (int (nextInt args).1) }
      else
        let r := usaxStrtol long 10 fmt
        scanSeq fuel false r.endptr args { st with precision := int r.value }
    else if c = 35 then
      if st.hashSign then if fmt = [] then .unknownEnd st else scanSeq fuel false fmt args st
      else if first = false ∨ fmt = [] then .unknown st c fmt args
      else scanSeq fuel false fmt args { st with hashSign := true }
    else if c = 122 ∨ c = 116 ∨ c = 106 ∨ c = 113 ∨ c = 76 then
      if st.width ≠ .default then .unknown st c fmt args
      else scanSeq fuel false fmt args { st with width := if c = 122 ∨ c = 116 then .long else .longLong }
    else if c = 108 ∨ c = 104 then
      match doubleMod (c = 108) st.width with
      | none => .unknown st c fmt args
      | some width => scanSeq fuel false fmt args { st with width := width }
    else .unknown st c fmt args

def nextItem (c : UInt8) (fmt : List UInt8) (args : List VaArg) : Item :=
  if c ≠ 37 then .char c fmt args
  else
    match fmt with
    | [] => .truncated
    | d :: rest => if d = 37 ∨ d ≥ 128 then .char d rest args else scanSeq long (fmt.length + 1) true fmt args resetState

/-! ## Writing the items -/

/-- The sequence printed back: the result of `write_str` for the width is not looked at. -/
def writeUnknown (st : SeqState) (c : UInt8) : Writer UInt8 :=
  let lpad := if st.rpad ≠ 0 then int (-st.rpad) else st.lpad
  (put 37).andThen <|
  (if st.hashSign then put 35 else done).andThen <|
  (if st.zeroLpad then put 48 else done).andThen fun o =>
    let o' := if lpad ≠ 0 then
        (writeStr { st with zeroLpad := false, lpad := 0, rpad := 0 } 100 (itoa long lpad 10) o).1
      else o
    put c o'

/-- The loop of `vsnprintk`: the buffer at its end, or `none` if it does not end or reads behind the terminator. -/
def vsnprintkLoop : Nat → List UInt8 → List VaArg → Out UInt8 → Option (Out UInt8)
  | _, [], _, o => some o
  | 0, _ :: _, _, _ => none
  | fuel + 1, c :: fmt, args, o =>
    match nextItem long c fmt args with
    | .char d fmt args =>
      let r := put d o
      if r.2 then vsnprintkLoop fuel fmt args r.1 else some r.1
    | .param st fmtX str fmt args =>
      let r := writeStr st fmtX str o
      if r.2 then vsnprintkLoop fuel fmt args r.1 else some r.1
    | .unknown st d fmt args =>
      let r := writeUnknown long st d o
      if r.2 then vsnprintkLoop fuel fmt args r.1 else some r.1
    | .unknownEnd st =>
      let r := writeUnknown long st 0 o
      if r.2 then none else some r.1
    | .truncated => some o
    | .hang => none

/-- The bytes from the start of the buffer on, whether one of them was written outside it, and the result. -/
structure Printed where
  bytes : List UInt8
  fault : Bool
  ret : Nat
deriving DecidableEq, Repr

/-- The terminator at the end of `vsnprintk`. -/
def terminate (o : Out UInt8) : Printed :=
  if o.buf.length < o.cap then ⟨o.buf ++ [0], o.fault, o.buf.length⟩
  else ⟨o.buf.set (o.buf.length - 1) 0, o.fault || decide (o.cap < o.buf.length), o.buf.length⟩

def vsnprintk (size : Nat) (fmt : List UInt8) (args : List VaArg) : Option Printed :=
  (vsnprintkLoop long fmt.length fmt args ⟨[], size, false⟩).map terminate

/-! ## The text of a format -/

/-- An unknown sequence as it is printed, up to its width, and the width. -/
def unknownPre (st : SeqState) : List UInt8 :=
  [37] ++ ((if st.hashSign then [35] else []) ++ (if st.zeroLpad then [48] else []))

def unknownWidth (st : SeqState) : List UInt8 :=
  let lpad := if st.rpad ≠ 0 then int (-st.rpad) else st.lpad
  if lpad ≠ 0 then strText { st with zeroLpad := false, lpad := 0, rpad := 0 } 100 (itoa long lpad 10) else []

/-- The end of the buffer falls within the width. -/
def EndsInWidth (st : SeqState) (room : Nat) : Prop :=
  (unknownPre st).length < room ∧ room ≤ (unknownPre st ++ unknownWidth long st).length

instance (st : SeqState) (room : Nat) : Decidable (EndsInWidth long st room) := inferInstanceAs (Decidable (_ ∧ _))

/-- Why a format cannot be printed: a sequence is read forever, the terminator is passed, or the buffer ends within the width
of an unknown sequence. -/
inductive Unprintable
  | endless | behind | overrun
deriving DecidableEq, Repr

/-- An item, and what follows it if there is room left. -/
def cut (room : Nat) (a : List UInt8) (rest : Nat → Except Unprintable (List UInt8)) : Except Unprintable (List UInt8) :=
  if room ≤ a.length then .ok a else (rest (room - a.length)).map (a ++ ·)

/-- The text of a format, item by item as far as there is room for `room` characters. -/
def textLoop : Nat → Nat → List UInt8 → List VaArg → Except Unprintable (List UInt8)
  | _, _, [], _ => .ok []
  | 0, _, _ :: _, _ => .error .endless
  | fuel + 1, room, c :: fmt, args =>
    match nextItem long c fmt args with
    | .char d fmt args => cut room [d] fun room => textLoop fuel room fmt args
    | .param st fmtX str fmt args => cut room (strText st fmtX str) fun room => textLoop fuel room fmt args
    | .unknown st d fmt args =>
      if EndsInWidth long st room then .error .overrun
      else cut room (unknownPre st ++ unknownWidth long st ++ [d]) fun room => textLoop fuel room fmt args
    | .unknownEnd st =>
      if EndsInWidth long st room then .error .overrun
      else cut room (unknownPre st ++ unknownWidth long st ++ [0]) fun _ => .error .behind
    | .truncated => .ok []
    | .hang => .error .endless

def formatText (room : Nat) (fmt : List UInt8) (args : List VaArg) : Except Unprintable (List UInt8) :=
  textLoop long fmt.length room fmt args

end

/-! ## The writers write their texts -/

theorem emits_write0xPrefix (fmtX : UInt8) : Emits (write0xPrefix fmtX) (prefixText fmtX) := by
  unfold write0xPrefix prefixText
  by_cases hx : fmtX = 120 ∨ fmtX = 112
  · have hany : fmtX = 120 ∨ fmtX = 112 ∨ fmtX = 111 := by tauto
    rw [if_pos hany, if_pos hx, if_pos hx]
    exact (emits_put 48).andThen (emits_put 120)
  · by_cases ho : fmtX = 111
    · rw [if_pos (by tauto), if_neg hx, if_neg hx, if_pos ho]
      exact (emits_put 48).andThen emits_done
    · rw [if_neg (by tauto), if_neg hx, if_neg ho]
      exact emits_done

theorem emits_writeStr (st : SeqState) (fmtX : UInt8) (str : List UInt8) :
    Emits (writeStr st fmtX str) (strText st fmtX str) :=
  (emits_ite (emits_write0xPrefix fmtX)).andThen <|
    (emits_putMany _ _).andThen <|
    (emits_ite (emits_write0xPrefix fmtX)).andThen <|
    (emits_putText _).andThen (emits_putMany _ _)

theorem emit_of_full {a b : List UInt8} {o : Out UInt8} (h : o.cap ≤ (o.buf ++ a).length) : emit (a ++ b) o = emit a o := by
  have hfull : ¬ (o.buf ++ (a ++ b)).length < o.cap := by
    rw [← List.append_assoc, List.length_append]
    omega
  simp only [emit, decide_eq_false hfull, decide_eq_false (not_lt.mpr h)]
  rw [← List.append_assoc, List.take_append_of_le_length h]

theorem emit_of_room {a : List UInt8} {o : Out UInt8} (h : (o.buf ++ a).length < o.cap) :
    emit a o = ({ o with buf := o.buf ++ a }, true) := by
  simp only [emit, decide_eq_true h, List.take_of_length_le h.le]

section
variable (long : IntType)

/-- An unknown sequence is printed as it is, unless the buffer ends within its width: then its last character is written behind
the buffer. -/
theorem writeUnknown_cases (st : SeqState) (c : UInt8) {o : Out UInt8} (ho : o.buf.length < o.cap) :
    if EndsInWidth long st (o.cap - o.buf.length) then
      (writeUnknown long st c o).2 = false ∧ (writeUnknown long st c o).1.fault = true
    else writeUnknown long st c o = emit (unknownPre st ++ unknownWidth long st ++ [c]) o := by
  have hpre : Emits ((put 37).andThen ((if st.hashSign then put 35 else done).andThen (if st.zeroLpad then put 48 else done)))
      (unknownPre st) := (emits_put 37).andThen ((emits_ite (emits_put 35)).andThen (emits_ite (emits_put 48)))
  -- what is written behind the flags
  let tail : Writer UInt8 := fun o =>
    put c (if (if st.rpad ≠ 0 then int (-st.rpad) else st.lpad) ≠ 0 then
      (writeStr { st with zeroLpad := false, lpad := 0, rpad := 0 } 100
        (itoa long (if st.rpad ≠ 0 then int (-st.rpad) else st.lpad) 10) o).1 else o)
  have hsplit : writeUnknown long st c o = if (emit (unknownPre st) o).2 then tail (emit (unknownPre st) o).1
      else emit (unknownPre st) o := by
    rw [← hpre o ho]
    simp only [writeUnknown, Writer.andThen, tail]
    split_ifs <;> simp_all
  rw [hsplit]
  by_cases hroom : (o.buf ++ unknownPre st).length < o.cap
  · have hlen : (o.buf ++ unknownPre st).length = o.buf.length + (unknownPre st).length := List.length_append
    rw [emit_of_room hroom, if_pos rfl]
    have hwidth : tail { o with buf := o.buf ++ unknownPre st } =
        put c (emit (unknownWidth long st) { o with buf := o.buf ++ unknownPre st }).1 := by
      simp only [tail, unknownWidth]
      split_ifs
      all_goals first
        | rw [emits_writeStr _ _ _ _ hroom]
        | rw [← emits_done _ hroom]; rfl
    rw [hwidth]
    by_cases hin : (o.buf ++ unknownPre st ++ unknownWidth long st).length < o.cap
    · have hno : ¬ EndsInWidth long st (o.cap - o.buf.length) := by
        simp only [EndsInWidth, List.length_append] at hin ⊢
        omega
      rw [if_neg hno, emit_of_room hin, ((emits_put c) _ hin)]
      simp [emit]
    · have hyes : EndsInWidth long st (o.cap - o.buf.length) := by
        simp only [EndsInWidth, List.length_append] at hin hroom ⊢
        omega
      rw [if_pos hyes]
      simp only [List.length_append, not_lt] at hin
      constructor
      · simp [put, emit]
        omega
      · simp [put, emit]
        omega
  · have hno : ¬ EndsInWidth long st (o.cap - o.buf.length) := by
      simp only [EndsInWidth, List.length_append] at hroom ⊢
      omega
    rw [if_neg hno, List.append_assoc, emit_of_full (not_lt.mp hroom)]
    have hfull : (emit (unknownPre st) o).2 = false := decide_eq_false hroom
    rw [hfull]
    rfl

/-! ## The whole format -/

/-- The loop has written the text, or has gone wrong. -/
def Prints (o : Out UInt8) : Except Unprintable (List UInt8) → Option (Out UInt8) → Prop
  | .ok text, r => r = some (emit text o).1
  | .error _, r => ∀ o' ∈ r, o'.fault = true

/-- One item of text `a`, and the rest if there is room for it. -/
theorem prints_cut {w : Out UInt8 × Bool} {a : List UInt8} {o : Out UInt8} (hw : w = emit a o)
    {k : Nat → Except Unprintable (List UInt8)} {rest : Out UInt8 → Option (Out UInt8)}
    (hrest : ∀ o' : Out UInt8, o'.buf.length < o'.cap → Prints o' (k (o'.cap - o'.buf.length)) (rest o')) :
    Prints o (cut (o.cap - o.buf.length) a k) (if w.2 then rest w.1 else some w.1) := by
  subst hw
  by_cases hroom : (o.buf ++ a).length < o.cap
  · have hlen : (o.buf ++ a).length = o.buf.length + a.length := List.length_append
    have hnext := hrest { o with buf := o.buf ++ a } hroom
    rw [emit_of_room hroom, if_pos rfl, cut, if_neg (by omega)]
    rw [show o.cap - (o.buf ++ a).length = o.cap - o.buf.length - a.length by omega] at hnext
    cases hk : k (o.cap - o.buf.length - a.length) with
    | error e =>
      rw [hk] at hnext
      exact hnext
    | ok text =>
      rw [hk] at hnext
      refine Eq.trans hnext ?_
      simp [emit]
  · have hfull : (emit a o).2 = false := decide_eq_false hroom
    have hlen : (o.buf ++ a).length = o.buf.length + a.length := List.length_append
    rw [hfull, cut, if_pos (by omega)]
    rfl

theorem prints_overrun {w : Out UInt8 × Bool} {o : Out UInt8} {e : Unprintable} {rest : Option (Out UInt8)}
    (hw : w.2 = false ∧ w.1.fault = true) : Prints o (.error e) (if w.2 then rest else some w.1) := by
  rw [hw.1]
  rintro o' ⟨⟩
  exact hw.2

theorem prints_vsnprintkLoop (fuel : Nat) (fmt : List UInt8) (args : List VaArg) (o : Out UInt8) (ho : o.buf.length < o.cap) :
    Prints o (textLoop long fuel (o.cap - o.buf.length) fmt args) (vsnprintkLoop long fuel fmt args o) := by
  have hstop {o : Out UInt8} (ho : o.buf.length < o.cap) : some o = some (emit [] o).1 :=
    congrArg (fun r => some (Prod.fst r)) (emits_done o ho)
  induction fuel generalizing fmt args o with
  | zero =>
    cases fmt with
    | nil => exact hstop ho
    | cons c fmt => exact fun o' h => nomatch h
  | succ fuel ih =>
    cases fmt with
    | nil => exact hstop ho
    | cons c fmt =>
      unfold textLoop vsnprintkLoop
      cases nextItem long c fmt args with
      | char d fmt args => exact prints_cut (emits_put d o ho) fun o' ho' => ih fmt args o' ho'
      | param st fmtX str fmt args => exact prints_cut (emits_writeStr st fmtX str o ho) fun o' ho' => ih fmt args o' ho'
      | unknown st d fmt args =>
        have hcases := writeUnknown_cases long st d ho
        dsimp only
        by_cases hend : EndsInWidth long st (o.cap - o.buf.length)
        · rw [if_pos hend] at hcases ⊢
          exact prints_overrun hcases
        · rw [if_neg hend] at hcases ⊢
          exact prints_cut hcases fun o' ho' => ih fmt args o' ho'
      | unknownEnd st =>
        have hcases := writeUnknown_cases long st 0 ho
        dsimp only
        by_cases hend : EndsInWidth long st (o.cap - o.buf.length)
        · rw [if_pos hend] at hcases ⊢
          exact prints_overrun hcases
        · rw [if_neg hend] at hcases ⊢
          have hnone : ∀ o' : Out UInt8, o'.buf.length < o'.cap → Prints o' (.error .behind) none :=
            fun o' _ o'' h => nomatch h
          exact @prints_cut _ _ _ hcases (fun _ => .error .behind) (fun _ => none) hnone
      | truncated => exact hstop ho
      | hang => exact fun o' h => nomatch h

end

theorem terminate_emit {size : Nat} (hsize : 0 < size) (text : List UInt8) :
    terminate (emit text ⟨[], size, false⟩).1 = ⟨text.take (size - 1) ++ [0], false, min size text.length⟩ := by
  by_cases hroom : text.length < size
  · have htake : text.take size = text := List.take_of_length_le hroom.le
    have htake' : text.take (size - 1) = text := List.take_of_length_le (by omega)
    simp only [terminate, emit, List.nil_append, htake, if_pos hroom, htake']
    rw [min_eq_right hroom.le]
  · have hlen : (text.take size).length = size := by
      rw [List.length_take]
      omega
    have hset : (text.take size).set (size - 1) 0 = text.take (size - 1) ++ [0] := by
      have hlast : size - 1 < (text.take size).length := by omega
      rw [List.set_eq_take_append_cons_drop, if_pos hlast, List.take_take, List.drop_of_length_le (by omega),
        min_eq_left (by omega)]
    simp only [terminate, emit, List.nil_append, hlen, lt_irrefl, if_false, hset, decide_false, Bool.or_false]
    rw [min_eq_left (by omega)]

theorem prints_formatText (long : IntType) {size : Nat} (hsize : 0 < size) (fmt : List UInt8) (args : List VaArg) :
    Prints ⟨[], size, false⟩ (formatText long size fmt args) (vsnprintkLoop long fmt.length fmt args ⟨[], size, false⟩) :=
  prints_vsnprintkLoop long fmt.length fmt args ⟨[], size, false⟩ hsize

theorem vsnprintk_eq (long : IntType) {size : Nat} (hsize : 0 < size) {fmt : List UInt8} {args : List VaArg}
    {text : List UInt8} (h : formatText long size fmt args = .ok text) :
    vsnprintk long size fmt args = some ⟨text.take (size - 1) ++ [0], false, min size text.length⟩ := by
  have hprints := prints_formatText long hsize fmt args
  rw [h] at hprints
  have hloop : vsnprintkLoop long fmt.length fmt args ⟨[], size, false⟩ = _ := hprints
  rw [vsnprintk, hloop, Option.map_some, terminate_emit hsize]

theorem isOk_formatText {long : IntType} {size : Nat} (hsize : 0 < size) {fmt : List UInt8} {args : List VaArg}
    {bytes : List UInt8} {ret : Nat} (h : vsnprintk long size fmt args = some ⟨bytes, false, ret⟩) :
    (formatText long size fmt args).isOk = true := by
  have hprints := prints_formatText long hsize fmt args
  cases htext : formatText long size fmt args with
  | ok text => rfl
  | error e =>
    rw [htext] at hprints
    obtain ⟨o, ho, hterm⟩ := Option.map_eq_some_iff.mp h
    have hfault : (terminate o).fault = true := by
      unfold terminate
      split_ifs <;> simp [hprints o ho]
    rw [hterm] at hfault
    cases hfault

theorem cut_prefix {room room' : Nat} (hle : room ≤ room') {a t t' : List UInt8}
    {k k' : Nat → Except Unprintable (List UInt8)} (h : cut room a k = .ok t) (h' : cut room' a k' = .ok t')
    (hk : ∀ s s', k (room - a.length) = .ok s → k' (room' - a.length) = .ok s' → s <+: s') : t <+: t' := by
  unfold cut at h h'
  by_cases hroom : room ≤ a.length
  · rw [if_pos hroom] at h
    cases h
    by_cases hroom' : room' ≤ a.length
    · rw [if_pos hroom'] at h'
      cases h'
      exact List.prefix_rfl
    · rw [if_neg hroom'] at h'
      cases hs : k' (room' - a.length) with
      | error e => simp [hs, Except.map] at h'
      | ok s' =>
        rw [hs] at h'
        cases h'
        exact List.prefix_append _ _
  · rw [if_neg hroom] at h
    rw [if_neg (by omega)] at h'
    cases hs : k (room - a.length) with
    | error e => simp [hs, Except.map] at h
    | ok s =>
      cases hs' : k' (room' - a.length) with
      | error e => simp [hs', Except.map] at h'
      | ok s' =>
        rw [hs] at h
        rw [hs'] at h'
        cases h
        cases h'
        exact (List.prefix_append_right_inj a).mpr (hk s s' hs hs')

theorem textLoop_extends (long : IntType) {room room' : Nat} (hle : room ≤ room') (fuel : Nat) (fmt : List UInt8)
    (args : List VaArg) {t t' : List UInt8} (h : textLoop long fuel room fmt args = .ok t)
    (h' : textLoop long fuel room' fmt args = .ok t') : t <+: t' := by
  induction fuel generalizing room room' fmt args t t' with
  | zero =>
    cases fmt with
    | nil => cases h; exact List.nil_prefix
    | cons c fmt => cases h
  | succ fuel ih =>
    cases fmt with
    | nil => cases h; exact List.nil_prefix
    | cons c fmt =>
      unfold textLoop at h h'
      cases hitem : nextItem long c fmt args <;> simp only [hitem] at h h'
      case char => exact cut_prefix hle h h' fun s s' hs hs' => ih (by omega) _ _ hs hs'
      case param => exact cut_prefix hle h h' fun s s' hs hs' => ih (by omega) _ _ hs hs'
      case unknown =>
        split_ifs at h h'
        exact cut_prefix hle h h' fun s s' hs hs' => ih (by omega) _ _ hs hs'
      case unknownEnd =>
        split_ifs at h h'
        exact cut_prefix hle h h' fun s s' hs _ => nomatch hs
      case truncated => cases h; exact List.nil_prefix
      case hang => cases h

end Usax.Common
