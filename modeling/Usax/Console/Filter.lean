import Mathlib.Tactic
import Usax.Common.Itoa

/-!
# The escape sequences of the console

The filter of `console.c`: a state machine over the bytes that are written to the terminal. In the state `tty_state_esc2_csi`
it collects the bytes of a sequence in two arrays, and the final byte calls the handler of the sequence with its parameters.
A write outside an array is `none` here.
-/

namespace Usax.Console

open Usax.Common

inductive FilterState
  | default | esc1 | par0 | par1 | csi | unknown
deriving DecidableEq, Repr

/-- `struct twfilter_ctx`: the first `pbc` bytes of `param_bytes` and the first `ibc` bytes of `interm_bytes`. -/
structure FilterCtx where
  state : FilterState
  paramBytes : List UInt8
  intermBytes : List UInt8
deriving DecidableEq, Repr

/-- What the tables of the default state make of a byte: the start of a sequence (`tty_def_state_esc`, `tty_def_state_csi`), or
something that leaves the state. The tables change with the character set and the settings of the terminal. -/
inductive DefFunc
  | other | esc | csi
deriving DecidableEq, Repr

structure Input where
  c : UInt8
  func : DefFunc

/-- The call of a handler: whether it is the one for the private sequences, the final byte and the parameters. -/
structure HandlerCall where
  pvtExt : Bool
  final : UInt8
  params : List Nat
deriving DecidableEq, Repr

def npar : Nat := 16

def bytesSize : Nat := 64

/-- The final bytes with a handler in `csi_handlers`. -/
def csiHandlers : List UInt8 :=
  [64, 65, 66, 67, 68, 69, 70, 71, 72, 74, 75, 76, 77, 80, 83, 84, 88, 96, 97, 99, 100, 101, 102, 109, 110, 114, 115, 117]

def resetFilterCtx : FilterCtx := ⟨.default, [], []⟩

def putByte (bytes : List UInt8) (c : UInt8) : Option (List UInt8) :=
  if bytes.length < bytesSize then some (bytes ++ [c]) else none

section
variable (long : IntType)

/-- The loop of `tty_filter_end_csi_seq`: a number, then the byte after it is skipped. -/
def parseParams : Nat → List UInt8 → List Nat → Option (List Nat)
  | 0, _, _ => none
  | fuel + 1, str, params =>
    let r := usaxStrtol long 10 str
    if params.length < npar then
      let params := params ++ [(r.value % 2 ^ 32).toNat]
      match r.endptr with
      | [] => some params
      | _ :: rest => parseParams fuel rest params
    else none

def isPvtExt (bytes : List UInt8) : Bool := bytes.head? == some 63

def paramText (bytes : List UInt8) : List UInt8 := if isPvtExt bytes then bytes.tail else bytes

/-- `tty_filter_end_csi_seq`: the handler that is called, if there is one. -/
def filterEndCsiSeq (ctx : FilterCtx) (c : UInt8) : Option (List HandlerCall) := do
  let _ ← putByte ctx.paramBytes 0
  let _ ← putByte ctx.intermBytes 0
  let params ← if ctx.paramBytes = [] then some [] else
    parseParams long (bytesSize + 1) (paramText ctx.paramBytes) []
  return if isPvtExt ctx.paramBytes ∨ c ∈ csiHandlers then [⟨isPvtExt ctx.paramBytes, c, params⟩] else []

/-- `tty_state_esc2_csi`. -/
def stateCsi (ctx : FilterCtx) (c : UInt8) : Option (FilterCtx × List HandlerCall) :=
  if c = 27 then some (⟨.esc1, [], []⟩, [])
  else if 0x30 ≤ c ∧ c ≤ 0x3F then
    if ctx.paramBytes.length ≥ bytesSize then some (resetFilterCtx, [])
    else (putByte ctx.paramBytes c).map fun bytes => ({ ctx with paramBytes := bytes }, [])
  else if 0x20 ≤ c ∧ c ≤ 0x2F then
    if ctx.intermBytes.length ≥ bytesSize then some (resetFilterCtx, [])
    else (putByte ctx.intermBytes c).map fun bytes => ({ ctx with intermBytes := bytes }, [])
  else if 0x40 ≤ c ∧ c ≤ 0x7E then (filterEndCsiSeq long ctx c).map fun calls => (resetFilterCtx, calls)
  else some (resetFilterCtx, [])

/-- `tty_state_esc2_unknown`. -/
def stateUnknown (ctx : FilterCtx) (c : UInt8) : FilterCtx :=
  if 0x40 ≤ c ∧ c ≤ 0x5f then { ctx with state := .default } else { ctx with state := .unknown }

def stateEsc1 (ctx : FilterCtx) (c : UInt8) : FilterCtx :=
  if c = 91 then ⟨.csi, [], []⟩
  else if c = 99 then resetFilterCtx
  else if c = 40 then { ctx with state := .par0 }
  else if c = 41 then { ctx with state := .par1 }
  else if c = 68 ∨ c = 77 then { ctx with state := .default }
  else stateUnknown ctx c

/-- The states but the one of a CSI sequence. `tty_pre_filter` lets an escape start a new sequence in all but the default one. -/
def statePlain (ctx : FilterCtx) (x : Input) : FilterCtx :=
  if ctx.state = .default then
    match x.func with
    | .other => ctx
    | .esc => { ctx with state := .esc1 }
    | .csi => ⟨.csi, [], []⟩
  else if x.c = 27 then ⟨.esc1, [], []⟩
  else
    match ctx.state with
    | .esc1 => stateEsc1 ctx x.c
    | .unknown => stateUnknown ctx x.c
    | _ => { ctx with state := .default }

def filterStep (ctx : FilterCtx) (x : Input) : Option (FilterCtx × List HandlerCall) :=
  if ctx.state = .csi then stateCsi long ctx x.c else some (statePlain ctx x, [])

def filterRun : FilterCtx → List Input → Option (FilterCtx × List HandlerCall)
  | ctx, [] => some (ctx, [])
  | ctx, x :: xs => do
    let (ctx, calls) ← filterStep long ctx x
    let (ctx, rest) ← filterRun ctx xs
    return (ctx, calls ++ rest)

end

/-! ## What the sequences say -/

def fields (s : List UInt8) : List (List UInt8) := s.splitOnP (· == 59)

def fieldValue (f : List UInt8) : Nat := digitsValue 10 0 (f.map fun c => c.toNat - 48)

def endsCsi (ctx : FilterCtx) (c : UInt8) : Prop := ctx.state = .csi ∧ 0x40 ≤ c ∧ c ≤ 0x7E

instance (ctx : FilterCtx) (c : UInt8) : Decidable (endsCsi ctx c) := inferInstanceAs (Decidable (_ ∧ _))

def sequenceCalls (ctx : FilterCtx) (c : UInt8) : List HandlerCall :=
  if isPvtExt ctx.paramBytes ∨ c ∈ csiHandlers then
    [⟨isPvtExt ctx.paramBytes, c,
      if ctx.paramBytes = [] then [] else (fields (paramText ctx.paramBytes)).map fieldValue⟩]
  else []

def nextCtx (ctx : FilterCtx) (x : Input) : FilterCtx :=
  if ctx.state = .csi then
    if x.c = 27 then ⟨.esc1, [], []⟩
    else if 0x30 ≤ x.c ∧ x.c ≤ 0x3F ∧ ctx.paramBytes.length < bytesSize then
      { ctx with paramBytes := ctx.paramBytes ++ [x.c] }
    else if 0x20 ≤ x.c ∧ x.c ≤ 0x2F ∧ ctx.intermBytes.length < bytesSize then
      { ctx with intermBytes := ctx.intermBytes ++ [x.c] }
    else resetFilterCtx
  else statePlain ctx x

def streamCalls : FilterCtx → List Input → List HandlerCall
  | _, [] => []
  | ctx, x :: xs => (if endsCsi ctx x.c then sequenceCalls ctx x.c else []) ++ streamCalls (nextCtx ctx x) xs

/-- The sequence fits the arrays with their terminators, and its parameters are decimal numbers below `2 ^ 31`. -/
structure Small (ctx : FilterCtx) : Prop where
  params_lt : ctx.paramBytes.length < bytesSize
  interm_lt : ctx.intermBytes.length < bytesSize
  bytes : ∀ c ∈ paramText ctx.paramBytes, (48 ≤ c ∧ c ≤ 57) ∨ c = 59
  fields_le : (fields (paramText ctx.paramBytes)).length ≤ npar
  values_lt : ∀ f ∈ fields (paramText ctx.paramBytes), fieldValue f < 2 ^ 31

def SmallAlong : FilterCtx → List Input → Prop
  | _, [] => True
  | ctx, x :: xs => (endsCsi ctx x.c → Small ctx) ∧ SmallAlong (nextCtx ctx x) xs

/-! ## Fields and numbers -/

theorem fields_eq (s : List UInt8) :
    fields s = s.takeWhile (· ≠ 59) ::
      match s.dropWhile (· ≠ 59) with
      | [] => []
      | _ :: rest => fields rest := by
  have hs : s = s.takeWhile (· ≠ 59) ++ s.dropWhile (· ≠ 59) := List.takeWhile_append_dropWhile.symm
  have hfield : ∀ c ∈ s.takeWhile (· ≠ 59), (c == 59) = false := by
    intro c hc
    simpa using List.all_eq_true.mp List.all_takeWhile c hc
  have hstop := List.head?_dropWhile_not (fun c : UInt8 => decide (c ≠ 59)) s
  generalize s.takeWhile (· ≠ 59) = f at hs hfield ⊢
  generalize s.dropWhile (· ≠ 59) = d at hs hstop ⊢
  subst hs
  cases d with
  | nil =>
    rw [List.append_nil]
    exact List.splitOnP_eq_singleton hfield
  | cons c rest => exact List.splitOnP_append_cons_of_forall_mem hfield c (by simpa using hstop) rest

theorem isValidDigit_eq {c : UInt8} (hc : (48 ≤ c ∧ c ≤ 57) ∨ c = 59) :
    isValidDigit c 10 = decide (c ≠ 59) ∧ (c ≠ 59 → (digitToVal c).toNat = c.toNat - 48) := by
  obtain ⟨hlow, hhigh⟩ | rfl := hc
  · have hval : digitToVal c = c.toNat - 48 := by rw [digitToVal, if_pos ⟨hlow, hhigh⟩]
    have hne : c ≠ 59 := by
      rintro rfl
      exact absurd hhigh (by decide)
    have h48 : 48 ≤ c.toNat := UInt8.le_iff_toNat_le.mp hlow
    have h57 : c.toNat ≤ 57 := UInt8.le_iff_toNat_le.mp hhigh
    have h128 : c < 128 := UInt8.lt_iff_toNat_lt.mpr (by simp; omega)
    have hdigit : 0 ≤ digitToVal c ∧ digitToVal c < 10 := by omega
    constructor
    · simp [isValidDigit, h128, hne, hdigit]
    · intro _
      omega
  · exact ⟨by decide, fun h => absurd rfl h⟩

theorem leading_eq_field {s : List UInt8} (hs : ∀ c ∈ s, (48 ≤ c ∧ c ≤ 57) ∨ c = 59) :
    leadingDigits 10 s = (s.takeWhile (· ≠ 59)).map (fun c => c.toNat - 48) ∧
      afterDigits 10 s = s.dropWhile (· ≠ 59) := by
  induction s with
  | nil => exact ⟨rfl, rfl⟩
  | cons c s ih =>
    obtain ⟨hlead, hafter⟩ := ih fun d hd => hs d (List.mem_cons_of_mem c hd)
    obtain ⟨hvalid, hval⟩ := isValidDigit_eq (hs c List.mem_cons_self)
    by_cases hc : c = 59
    · have hinvalid : isValidDigit c 10 = false := by simpa [hc] using hvalid
      rw [leadingDigits_cons_of_invalid hinvalid, afterDigits, List.dropWhile_cons, hinvalid]
      simp [hc]
    · have htrue : isValidDigit c 10 = true := by simpa [hc] using hvalid
      constructor
      · rw [leadingDigits_cons_of_valid htrue, hlead, hval hc]
        simp [hc]
      · rw [afterDigits, List.dropWhile_cons, if_pos htrue, ← afterDigits, hafter]
        simp [hc]

section
variable {long : IntType}

theorem hasMinus_false {s : List UInt8} (hs : ∀ c ∈ s, (48 ≤ c ∧ c ≤ 57) ∨ c = 59) : hasMinus long s = false := by
  cases s with
  | nil => simp [hasMinus]
  | cons c s =>
    have hc : c ≠ 45 := by
      rintro rfl
      exact absurd (hs 45 List.mem_cons_self) (by decide)
    simp [hasMinus, hc]

theorem usaxStrtol_field (hlong : long.signed = true) {s : List UInt8}
    (hs : ∀ c ∈ s, (48 ≤ c ∧ c ≤ 57) ∨ c = 59) (hlt : fieldValue (s.takeWhile (· ≠ 59)) < 2 ^ 31) :
    (usaxStrtol long 10 s).value = fieldValue (s.takeWhile (· ≠ 59)) ∧
      (usaxStrtol long 10 s).endptr = s.dropWhile (· ≠ 59) := by
  obtain ⟨hlead, hafter⟩ := leading_eq_field hs
  have hsmall := usaxStrtol_small hlong (hasMinus_false hs) (by rwa [hlead])
  rwa [hlead, hafter] at hsmall

theorem parseParams_eq (hlong : long.signed = true) (fuel : Nat) (s : List UInt8) (params : List Nat)
    (hfuel : s.length < fuel) (hs : ∀ c ∈ s, (48 ≤ c ∧ c ≤ 57) ∨ c = 59)
    (hlen : params.length + (fields s).length ≤ npar) (hlt : ∀ f ∈ fields s, fieldValue f < 2 ^ 31) :
    parseParams long fuel s params = some (params ++ (fields s).map fieldValue) := by
  induction fuel generalizing s params with
  | zero => exact absurd hfuel (Nat.not_lt_zero _)
  | succ fuel ih =>
    have hfields := fields_eq s
    have hfirst : fieldValue (s.takeWhile (· ≠ 59)) < 2 ^ 31 := hlt _ (by rw [hfields]; exact List.mem_cons_self)
    obtain ⟨hvalue, hend⟩ := usaxStrtol_field hlong hs hfirst
    have hcast : ((fieldValue (s.takeWhile (· ≠ 59)) : Int) % 2 ^ 32).toNat = fieldValue (s.takeWhile (· ≠ 59)) := by
      omega
    have hroom : params.length < npar := by
      have : 0 < (fields s).length := List.length_pos_of_ne_nil (List.splitOnP_ne_nil _ s)
      omega
    rw [parseParams, if_pos hroom, hvalue, hcast, hend]
    cases hdrop : s.dropWhile (· ≠ 59) with
    | nil =>
      rw [hdrop] at hfields
      rw [hfields]
      rfl
    | cons c rest =>
      rw [hdrop] at hfields
      replace hfields : fields s = s.takeWhile (· ≠ 59) :: fields rest := hfields
      have hsuffix : (c :: rest) <:+ s := hdrop ▸ List.dropWhile_suffix _
      have hrest : rest.length < fuel := by
        have := hsuffix.length_le
        rw [List.length_cons] at this
        omega
      rw [hfields, List.length_cons] at hlen
      rw [hfields] at hlt
      refine (ih rest _ hrest (fun d hd => hs d (hsuffix.subset (List.mem_cons_of_mem c hd))) ?_
        fun f hf => hlt f (List.mem_cons_of_mem _ hf)).trans ?_
      · rw [List.length_append, List.length_singleton]
        omega
      · rw [hfields, List.map_cons, List.append_assoc]
        rfl

/-! ## The filter -/

theorem putByte_of_lt {bytes : List UInt8} (h : bytes.length < bytesSize) (c : UInt8) :
    putByte bytes c = some (bytes ++ [c]) := if_pos h

theorem filterEndCsiSeq_small (hlong : long.signed = true) {ctx : FilterCtx} (h : Small ctx) (c : UInt8) :
    filterEndCsiSeq long ctx c = some (sequenceCalls ctx c) := by
  obtain ⟨hparams, hinterm, hbytes, hfields, hvalues⟩ := h
  rw [filterEndCsiSeq, putByte_of_lt hparams, putByte_of_lt hinterm]
  simp only [Option.bind_eq_bind, Option.bind_some, sequenceCalls]
  by_cases hnil : ctx.paramBytes = []
  · simp [hnil]
  · have htext : (paramText ctx.paramBytes).length < bytesSize + 1 := by
      unfold paramText
      split_ifs
      · rw [List.length_tail]
        omega
      · omega
    rw [if_neg hnil, parseParams_eq hlong _ _ [] htext hbytes (by simpa using hfields) hvalues]
    simp [hnil]

theorem final_ne {c : UInt8} (h : 0x40 ≤ c) :
    c ≠ 27 ∧ ¬ (0x30 ≤ c ∧ c ≤ 0x3F) ∧ ¬ (0x20 ≤ c ∧ c ≤ 0x2F) := by
  refine ⟨?_, fun hparam => ?_, fun hinterm => ?_⟩
  · rintro rfl
    exact absurd h (by decide)
  · exact absurd (UInt8.le_trans h hparam.2) (by decide)
  · exact absurd (UInt8.le_trans h hinterm.2) (by decide)

theorem nextCtx_end {ctx : FilterCtx} {x : Input} (hend : endsCsi ctx x.c) : nextCtx ctx x = resetFilterCtx := by
  obtain ⟨hcsi, hlow, -⟩ := hend
  obtain ⟨hesc, hparam, hinterm⟩ := final_ne hlow
  rw [nextCtx, if_pos hcsi, if_neg hesc, if_neg fun h => hparam ⟨h.1, h.2.1⟩, if_neg fun h => hinterm ⟨h.1, h.2.1⟩]

theorem stateCsi_end (hlong : long.signed = true) {ctx : FilterCtx} (h : Small ctx) {c : UInt8} (hend : endsCsi ctx c) :
    stateCsi long ctx c = some (resetFilterCtx, sequenceCalls ctx c) := by
  obtain ⟨-, hrange⟩ := hend
  obtain ⟨hesc, hparam, hinterm⟩ := final_ne hrange.1
  rw [stateCsi, if_neg hesc, if_neg hparam, if_neg hinterm, if_pos hrange, filterEndCsiSeq_small hlong h]
  rfl

theorem stateCsi_next {ctx : FilterCtx} (hcsi : ctx.state = .csi) {x : Input} (hno : ¬ endsCsi ctx x.c) :
    stateCsi long ctx x.c = some (nextCtx ctx x, []) := by
  have hfinal : ¬ (0x40 ≤ x.c ∧ x.c ≤ 0x7E) := fun h => hno ⟨hcsi, h⟩
  rw [stateCsi, nextCtx, if_pos hcsi]
  by_cases hesc : x.c = 27
  · rw [if_pos hesc, if_pos hesc]
  rw [if_neg hesc, if_neg hesc]
  by_cases hparam : 0x30 ≤ x.c ∧ x.c ≤ 0x3F
  · -- a parameter byte, which is no intermediate one
    have hnot : ¬ (0x20 ≤ x.c ∧ x.c ≤ 0x2F ∧ ctx.intermBytes.length < bytesSize) := by
      rintro ⟨-, hle, -⟩
      exact absurd (UInt8.le_trans hparam.1 hle) (by decide)
    rw [if_pos hparam]
    by_cases hroom : ctx.paramBytes.length < bytesSize
    · rw [if_neg (not_le.mpr hroom), putByte_of_lt hroom, if_pos ⟨hparam.1, hparam.2, hroom⟩]
      rfl
    · rw [if_pos (not_lt.mp hroom), if_neg fun h => hroom h.2.2, if_neg hnot]
  have hparam' : ¬ (0x30 ≤ x.c ∧ x.c ≤ 0x3F ∧ ctx.paramBytes.length < bytesSize) := fun h => hparam ⟨h.1, h.2.1⟩
  rw [if_neg hparam, if_neg hparam']
  by_cases hinterm : 0x20 ≤ x.c ∧ x.c ≤ 0x2F
  · rw [if_pos hinterm]
    by_cases hroom : ctx.intermBytes.length < bytesSize
    · rw [if_neg (not_le.mpr hroom), putByte_of_lt hroom, if_pos ⟨hinterm.1, hinterm.2, hroom⟩]
      rfl
    · rw [if_pos (not_lt.mp hroom), if_neg fun h => hroom h.2.2]
  rw [if_neg hinterm, if_neg hfinal, if_neg fun h => hinterm ⟨h.1, h.2.1⟩]

theorem filterStep_small (hlong : long.signed = true) (ctx : FilterCtx) (x : Input) (h : endsCsi ctx x.c → Small ctx) :
    filterStep long ctx x = some (nextCtx ctx x, if endsCsi ctx x.c then sequenceCalls ctx x.c else []) := by
  by_cases hend : endsCsi ctx x.c
  · rw [filterStep, if_pos hend.1, stateCsi_end hlong (h hend) hend, nextCtx_end hend, if_pos hend]
  rw [filterStep, if_neg hend]
  by_cases hcsi : ctx.state = .csi
  · rw [if_pos hcsi, stateCsi_next hcsi hend]
  · rw [if_neg hcsi, nextCtx, if_neg hcsi]

def streamEnd (ctx : FilterCtx) (xs : List Input) : FilterCtx := xs.foldl nextCtx ctx

/-- On a stream of small sequences, the filter writes only inside its arrays, and calls exactly the handlers that the complete
sequences stand for, with the values of their fields. -/
theorem filterRun_small (long : IntType) (hlong : long.signed = true) (ctx : FilterCtx) (xs : List Input)
    (h : SmallAlong ctx xs) : filterRun long ctx xs = some (streamEnd ctx xs, streamCalls ctx xs) := by
  induction xs generalizing ctx with
  | nil => rfl
  | cons x xs ih =>
    obtain ⟨hx, hxs⟩ := h
    rw [filterRun, filterStep_small hlong ctx x hx]
    simp only [Option.bind_eq_bind, Option.bind_some, ih _ hxs]
    rfl

end

def escape (bytes : List UInt8) : List Input := ⟨27, .esc⟩ :: bytes.map fun c => ⟨c, .other⟩

/-- `ESC [ 5 ; ; 1 2 H`. -/
theorem filterRun_small_cup :
    filterRun .s32 resetFilterCtx (escape [91, 53, 59, 59, 49, 50, 72])
      = some (resetFilterCtx, [⟨false, 72, [5, 0, 12]⟩]) := by
  have hsmall : SmallAlong resetFilterCtx (escape [91, 53, 59, 59, 49, 50, 72]) := by
    refine ⟨?_, ?_, ?_, ?_, ?_, ?_, ?_, ?_, trivial⟩ <;> intro hend
    case refine_8 => exact ⟨by decide, by decide, by decide +kernel, by decide, by decide +kernel⟩
    all_goals exact absurd hend (by decide)
  have hrun := filterRun_small .s32 rfl resetFilterCtx (escape [91, 53, 59, 59, 49, 50, 72]) hsmall
  rw [hrun]
  decide +kernel

/-- 64 parameter bytes are accepted, but their terminator is written behind the array.  16 semicolons make a 17th parameter. And
a number that does not fit is read again from its second digit on, as further parameters. -/
theorem filterRun_overruns :
    filterRun .s32 resetFilterCtx (escape (91 :: List.replicate 64 48 ++ [72])) = none ∧
    filterRun .s32 resetFilterCtx (escape (91 :: List.replicate 16 59 ++ [72])) = none ∧
    filterRun .s32 resetFilterCtx (escape ([91, 50, 49, 52, 55, 52, 56, 51, 54, 52, 56, 72]))
      = some (resetFilterCtx, [⟨false, 72, [0, 147483648]⟩]) := by
  refine ⟨?_, ?_, ?_⟩ <;> decide +kernel

end Usax.Console
