import Mathlib.Tactic
import Usax.Common.Strtol
import Usax.Common.Utils

/-!
# The kernel's command line

`cmdline.c`: the split of the line into arguments, what each of them does, and the name of the self-test at the end. A write
outside an array is a fault here.
-/

namespace Usax.Common.Cmdline

abbrev Arg := List UInt8

/-- The options of `cmdline_opts.h`. -/
inductive Kopt
  | ttys | selftest | schedAliveThread | sercon | noacpi | fbNoOpt | fbNoWc | noFpuMemcpy | panicKb | panicNobt | panicRegs
  | panicMmap | bigScrollBuf | ps2Log | ps2Selftest
deriving DecidableEq, Repr

inductive KoptType
  | bool | long | wordstr
deriving DecidableEq, Repr

def Kopt.type : Kopt → KoptType
  | .ttys => .long
  | .selftest => .wordstr
  | _ => .bool

def Kopt.name : Kopt → Arg
  | .ttys => [116, 116, 121, 115]
  | .selftest => [115, 101, 108, 102, 116, 101, 115, 116]
  | .schedAliveThread => [115, 99, 104, 101, 100, 95, 97, 108, 105, 118, 101, 95, 116, 104, 114, 101, 97, 100]
  | .sercon => [115, 101, 114, 99, 111, 110]
  | .noacpi => [110, 111, 97, 99, 112, 105]
  | .fbNoOpt => [102, 98, 95, 110, 111, 95, 111, 112, 116]
  | .fbNoWc => [102, 98, 95, 110, 111, 95, 119, 99]
  | .noFpuMemcpy => [110, 111, 95, 102, 112, 117, 95, 109, 101, 109, 99, 112, 121]
  | .panicKb => [112, 97, 110, 105, 99, 95, 107, 98]
  | .panicNobt => [112, 97, 110, 105, 99, 95, 110, 111, 98, 116]
  | .panicRegs => [112, 97, 110, 105, 99, 95, 114, 101, 103, 115]
  | .panicMmap => [112, 97, 110, 105, 99, 95, 109, 109, 97, 112]
  | .bigScrollBuf => [98, 105, 103, 95, 115, 99, 114, 111, 108, 108, 95, 98, 117, 102]
  | .ps2Log => [112, 115, 50, 95, 108, 111, 103]
  | .ps2Selftest => [112, 115, 50, 95, 115, 101, 108, 102, 116, 101, 115, 116]

/-- The alias, empty if there is none. -/
def Kopt.alias : Kopt → Arg
  | .schedAliveThread => [115, 97, 116]
  | .panicKb => [112, 107]
  | .panicNobt => [110, 111, 98, 116]
  | .panicRegs => [112, 114]
  | .panicMmap => [112, 109]
  | .bigScrollBuf => [98, 98]
  | .ps2Log => [112, 108, 103]
  | .ps2Selftest => [112, 115, 101]
  | _ => []

def allKopts : List Kopt :=
  [.ttys, .selftest, .schedAliveThread, .sercon, .noacpi, .fbNoOpt, .fbNoWc, .noFpuMemcpy, .panicKb, .panicNobt, .panicRegs,
    .panicMmap, .bigScrollBuf, .ps2Log, .ps2Selftest]

def maxCmdArgs : Nat := 16
def maxCmdArgLen : Nat := 255
def maxTtys : Int := 9

def selftestPrefix : Arg := [115, 101, 108, 102, 116, 101, 115, 116, 95]

inductive ArgState
  | initial | waitingForValue | finalCmdline
deriving DecidableEq, Repr

/-- `struct arg_parse_ctx` with the variables that the arguments change, and the arguments that `use_kernel_arg` was called
with so far. -/
structure ArgParse where
  state : ArgState
  lastOpt : Option Kopt
  bools : Kopt → Bool
  ttys : Int
  selftest : Option Arg
  argsBufUsed : Nat
  cmdArgs : List Arg
  calls : List Arg

/-- How parsing ends early: `panic`, with the calls up to it, or a write outside an array. -/
inductive Stop
  | panic (calls : List Arg)
  | fault

abbrev Result := Except Stop ArgParse

def isFalse (arg : Arg) : Bool := arg = [48] || arg = [102, 97, 108, 115, 101]

def isTrue (arg : Arg) : Bool := arg = [49] || arg = [116, 114, 117, 101]

def koptIsBoolValue (arg : Arg) : Bool := isFalse arg || isTrue arg

section
variable (long : IntType)

def koptHandleBool (s : ArgParse) (opt : Kopt) (arg : Arg) : ArgParse :=
  if arg.head? = some 45 then { s with bools := Function.update s.bools opt true }
  else if isFalse arg then { s with bools := Function.update s.bools opt false }
  else if isTrue arg then { s with bools := Function.update s.bools opt true }
  else s

def koptHandleLong (s : ArgParse) (arg : Arg) : ArgParse :=
  let r := usaxStrtol long 10 arg
  if r.error.isSome then s else { s with ttys := r.value }

/-- `memcpy(args_buf + args_buf_used, arg, len + 1)` and the new `args_buf_used`. -/
def copyToArgsBuf (s : ArgParse) (arg : Arg) : Result :=
  if s.argsBufUsed + arg.length + 1 ≤ pageSize then .ok { s with argsBufUsed := s.argsBufUsed + arg.length + 1 }
  else .error .fault

def koptHandleWordstr (s : ArgParse) (arg : Arg) : Result :=
  if s.argsBufUsed + arg.length + 1 ≥ pageSize then .ok s
  else (copyToArgsBuf s arg).map fun s => { s with selftest := some arg }

def handleCmdlineArg (s : ArgParse) (arg : Arg) : Result :=
  if s.cmdArgs.length = maxCmdArgs - 1 then .error (.panic s.calls)
  else if s.argsBufUsed + arg.length + 1 ≥ pageSize then .error (.panic s.calls)
  else do
    let s ← copyToArgsBuf s arg
    if s.cmdArgs.length < maxCmdArgs then .ok { s with cmdArgs := s.cmdArgs ++ [arg] } else .error .fault

def handleArgGeneric (s : ArgParse) (opt : Kopt) (arg : Arg) : Result :=
  match opt.type with
  | .bool => .ok (koptHandleBool s opt arg)
  | .long => .ok (koptHandleLong long s arg)
  | .wordstr => koptHandleWordstr s arg

/-- The option that an argument names. -/
def findKopt (arg : Arg) : Option Kopt :=
  allKopts.find? fun opt =>
    arg.head? = some 45 && (arg.tail = opt.name || (opt.alias ≠ [] && arg.tail = opt.alias))

/-- `INITIAL_STATE` of `use_kernel_arg`. -/
def useInitial (s : ArgParse) (arg : Arg) : Result :=
  if koptIsBoolValue arg then
    match s.lastOpt with
    | none => .ok s
    | some opt =>
      if opt.type = .bool then (handleArgGeneric long s opt arg).map fun s => { s with lastOpt := none } else .ok s
  else if arg = [45, 99, 109, 100] ∨ arg = [45, 45] then .ok { s with state := .finalCmdline }
  else
    match findKopt arg with
    | none => .ok s
    | some opt =>
      let s := { s with lastOpt := some opt }
      if opt.type = .bool then handleArgGeneric long s opt arg else .ok { s with state := .waitingForValue }

def useKernelArg (s : ArgParse) (arg : Arg) : Result :=
  let s := { s with calls := s.calls ++ [arg] }
  match s.state with
  | .finalCmdline => handleCmdlineArg s arg
  | .waitingForValue =>
    match s.lastOpt with
    | none => .ok { s with state := .initial }
    | some opt => (handleArgGeneric long s opt arg).map fun s => { s with state := .initial }
  | .initial => useInitial long s arg

/-! ## The line -/

/-- A write to the buffer of the argument, behind the characters in it. -/
def putChar (buf : Arg) (c : UInt8) : Except Stop Arg :=
  if buf.length < maxCmdArgLen + 1 then .ok (buf ++ [c]) else .error .fault

def endArg (s : ArgParse) (buf : Arg) : Result := do
  let _ ← putChar buf 0
  useKernelArg long s buf

/-- The loop over the line, and the argument that is left at its end. Every round takes at least one character. -/
def parseLoop : Nat → List UInt8 → Arg → ArgParse → Result
  | 0, _, buf, s => if buf ≠ [] then endArg long s buf else .ok s
  | _ + 1, [], buf, s => if buf ≠ [] then endArg long s buf else .ok s
  | fuel + 1, c :: p, buf, s =>
    if c = 32 then
      if buf ≠ [] then do
        let s ← endArg long s buf
        parseLoop fuel p [] s
      else parseLoop fuel p [] s
    else if buf.length ≥ maxCmdArgLen then do
      let s ← endArg long s buf
      parseLoop fuel ((c :: p).dropWhile (· ≠ 32)) [] s
    else do
      let buf ← putChar buf c
      parseLoop fuel p buf s

def parseArgs (cmdline : List UInt8) (s : ArgParse) : Result := parseLoop long cmdline.length cmdline [] s

/-- `handle_selftest_kopt`, up to the name in its buffer. -/
def handleSelftestKopt (s : ArgParse) : Result :=
  match s.selftest with
  | none => .ok s
  | some arg =>
    if selftestPrefix.length + arg.length + 1 ≤ maxCmdArgLen + 1 then .ok s else .error .fault

def doArgsValidation (ttyCount : Int) (s : ArgParse) : Result :=
  let s := if s.bools .sercon then { s with ttys := 1 } else s
  let s := if s.ttys ≤ 0 ∨ s.ttys > maxTtys then { s with ttys := ttyCount } else s
  handleSelftestKopt s

def parseKernelCmdline (ttyCount : Int) (cmdline : List UInt8) (s : ArgParse) : Result := do
  let s ← parseArgs long cmdline s
  doArgsValidation ttyCount s

end

/-- Before the line is parsed: the defaults of the options, and the buffer for arguments is empty. -/
def start (bools : Kopt → Bool) (ttyCount : Int) : ArgParse := ⟨.initial, none, bools, ttyCount, none, 0, [], []⟩

/-! ## The runs of characters -/

/-- The maximal runs of characters other than spaces. -/
def runs (s : List UInt8) : List Arg := (s.splitOnP (· == 32)).filter (· ≠ [])

/-- What `use_kernel_arg` should be called with. -/
def arguments (s : List UInt8) : List Arg := (runs s).map (·.take maxCmdArgLen)

def NoSpace (buf : Arg) : Prop := ∀ c ∈ buf, c ≠ 32

theorem splitOnP_run {buf : Arg} (hbuf : NoSpace buf) (p : List UInt8) :
    (buf ++ 32 :: p).splitOnP (· == 32) = buf :: p.splitOnP (· == 32) := by
  refine List.splitOnP_append_cons_of_forall_mem ?_ 32 (by simp) p
  intro c hc
  simpa using hbuf c hc

theorem runs_append_space {buf : Arg} (hbuf : NoSpace buf) (p : List UInt8) :
    runs (buf ++ 32 :: p) = (if buf = [] then [] else [buf]) ++ runs p := by
  unfold runs
  rw [splitOnP_run hbuf, List.filter_cons]
  by_cases h : buf = [] <;> simp [h]

theorem runs_of_noSpace {buf : Arg} (hbuf : NoSpace buf) : runs buf = if buf = [] then [] else [buf] := by
  have hsplit : buf.splitOnP (· == 32) = [buf] := List.splitOnP_eq_singleton fun c hc => by simpa using hbuf c hc
  unfold runs
  rw [hsplit, List.filter_cons]
  by_cases h : buf = [] <;> simp [h]

theorem arguments_space {buf : Arg} (hbuf : NoSpace buf) (hlen : buf.length ≤ maxCmdArgLen) (p : List UInt8) :
    arguments (buf ++ 32 :: p) = (if buf = [] then [] else [buf]) ++ arguments p := by
  unfold arguments
  rw [runs_append_space hbuf, List.map_append]
  by_cases h : buf = [] <;> simp [h, List.take_of_length_le hlen]

theorem arguments_end {buf : Arg} (hbuf : NoSpace buf) (hlen : buf.length ≤ maxCmdArgLen) :
    arguments buf = if buf = [] then [] else [buf] := by
  unfold arguments
  rw [runs_of_noSpace hbuf]
  by_cases h : buf = [] <;> simp [h, List.take_of_length_le hlen]

theorem arguments_truncated {buf : Arg} (hbuf : NoSpace buf) (hlen : buf.length = maxCmdArgLen) (p : List UInt8) :
    arguments (buf ++ p) = [buf] ++ arguments (p.dropWhile (· ≠ 32)) := by
  set w := p.takeWhile (· ≠ 32) with hw
  have hp : p = w ++ p.dropWhile (· ≠ 32) := List.takeWhile_append_dropWhile.symm
  have hne : buf ≠ [] := by
    rintro rfl
    simp [maxCmdArgLen] at hlen
  have hword : NoSpace (buf ++ w) := by
    intro c hc
    obtain hc | hc := List.mem_append.mp hc
    · exact hbuf c hc
    · simpa using List.all_eq_true.mp List.all_takeWhile c hc
  have htake : (buf ++ w).take maxCmdArgLen = buf := by rw [← hlen, List.take_left]
  cases hd : p.dropWhile (· ≠ 32) with
  | nil =>
    rw [hd, List.append_nil] at hp
    rw [hp, arguments, runs_of_noSpace hword, if_neg (by simp [hne])]
    simp [htake, arguments, runs]
  | cons c d =>
    have hc : c = 32 := by
      have hstop := List.head?_dropWhile_not (fun c : UInt8 => decide (c ≠ 32)) p
      rw [hd] at hstop
      simpa using hstop
    subst hc
    have hnil : NoSpace [] := fun c hc => absurd hc (by simp)
    have hempty : runs (32 :: d) = runs d := runs_append_space hnil d
    rw [hp, hd, ← List.append_assoc]
    unfold arguments
    rw [runs_append_space hword, hempty, if_neg (by simp [hne]), List.map_append, List.map_singleton, htake]

/-! ## The calls -/

/-- `use_kernel_arg` was called with `calls`, or with a part of them before a panic, and nothing was written outside an array. -/
def Called (calls : List Arg) : Result → Prop
  | .ok s => s.calls = calls ∧ s.cmdArgs.length < maxCmdArgs
  | .error (.panic cs) => cs <+: calls
  | .error .fault => False

theorem Called.bind {calls more : List Arg} {r : Result} {f : ArgParse → Result} (h : Called calls r)
    (hf : ∀ s, s.calls = calls → s.cmdArgs.length < maxCmdArgs → Called (calls ++ more) (f s)) :
    Called (calls ++ more) (r >>= f) := by
  match r, h with
  | .ok s, h => exact hf s h.1 h.2
  | .error (.panic cs), h => exact List.IsPrefix.trans h (List.prefix_append _ _)

theorem Called.map {calls : List Arg} {r : Result} {f : ArgParse → ArgParse} (h : Called calls r)
    (hcalls : ∀ s, (f s).calls = s.calls) (hargs : ∀ s, (f s).cmdArgs = s.cmdArgs) : Called calls (r.map f) := by
  match r, h with
  | .ok s, h => exact ⟨(hcalls s).trans h.1, by rw [hargs s]; exact h.2⟩
  | .error (.panic cs), h => exact h

section
variable {long : IntType} {s : ArgParse}

theorem called_copyToArgsBuf {arg : Arg} (hs : s.cmdArgs.length < maxCmdArgs)
    (hroom : s.argsBufUsed + arg.length + 1 ≤ pageSize) : Called s.calls (copyToArgsBuf s arg) := by
  rw [copyToArgsBuf, if_pos hroom]
  exact ⟨rfl, hs⟩

theorem called_koptHandleWordstr (hs : s.cmdArgs.length < maxCmdArgs) (arg : Arg) :
    Called s.calls (koptHandleWordstr s arg) := by
  unfold koptHandleWordstr
  split_ifs with hfull
  · exact ⟨rfl, hs⟩
  · exact (called_copyToArgsBuf hs (by omega)).map (fun _ => rfl) fun _ => rfl

theorem called_handleCmdlineArg (hs : s.cmdArgs.length < maxCmdArgs) (arg : Arg) :
    Called s.calls (handleCmdlineArg s arg) := by
  unfold handleCmdlineArg
  split_ifs with hmany hfull
  · exact List.prefix_rfl
  · exact List.prefix_rfl
  · have hcopy : copyToArgsBuf s arg = .ok { s with argsBufUsed := s.argsBufUsed + arg.length + 1 } := by
      rw [copyToArgsBuf, if_pos (by omega)]
    rw [hcopy]
    have hroom : s.cmdArgs.length + 1 < maxCmdArgs := by
      unfold maxCmdArgs at hs hmany ⊢
      omega
    change Called s.calls (if s.cmdArgs.length < maxCmdArgs then _ else _)
    rw [if_pos hs]
    exact ⟨rfl, by simpa using hroom⟩

theorem called_handleArgGeneric (hs : s.cmdArgs.length < maxCmdArgs) (opt : Kopt) (arg : Arg) :
    Called s.calls (handleArgGeneric long s opt arg) := by
  unfold handleArgGeneric
  split
  · unfold koptHandleBool
    split_ifs <;> exact ⟨rfl, hs⟩
  · unfold koptHandleLong
    dsimp only
    split_ifs <;> exact ⟨rfl, hs⟩
  · exact called_koptHandleWordstr hs arg

theorem called_useInitial (hs : s.cmdArgs.length < maxCmdArgs) (arg : Arg) : Called s.calls (useInitial long s arg) := by
  unfold useInitial
  split_ifs
  · split
    · exact ⟨rfl, hs⟩
    · split_ifs
      · exact (called_handleArgGeneric hs _ arg).map (fun _ => rfl) fun _ => rfl
      · exact ⟨rfl, hs⟩
  · exact ⟨rfl, hs⟩
  · split
    · exact ⟨rfl, hs⟩
    · dsimp only
      split_ifs
      · exact called_handleArgGeneric (s := { s with lastOpt := some _ }) hs _ arg
      · exact ⟨rfl, hs⟩

theorem called_useKernelArg (hs : s.cmdArgs.length < maxCmdArgs) (arg : Arg) :
    Called (s.calls ++ [arg]) (useKernelArg long s arg) := by
  unfold useKernelArg
  dsimp only
  split
  · exact called_handleCmdlineArg (s := { s with calls := s.calls ++ [arg] }) hs arg
  · split
    · exact ⟨rfl, hs⟩
    · exact (called_handleArgGeneric (s := { s with calls := s.calls ++ [arg] }) hs _ arg).map (fun _ => rfl) fun _ => rfl
  · exact called_useInitial (s := { s with calls := s.calls ++ [arg] }) hs arg

theorem endArg_eq {buf : Arg} (hlen : buf.length ≤ maxCmdArgLen) : endArg long s buf = useKernelArg long s buf := by
  have hput : putChar buf 0 = .ok (buf ++ [0]) := if_pos (by omega)
  rw [endArg, hput]
  rfl

theorem parseLoop_end {buf : Arg} (hbuf : NoSpace buf) (hlen : buf.length ≤ maxCmdArgLen) :
    (if buf ≠ [] then endArg long s buf else .ok s) = (arguments buf).foldlM (useKernelArg long) s := by
  rw [arguments_end hbuf hlen]
  by_cases h : buf = []
  · rw [if_pos h, if_neg (not_not.mpr h)]
    rfl
  · rw [if_neg h, if_pos h, endArg_eq hlen, List.foldlM_cons]
    exact (bind_pure _).symm

/-- The loop calls `use_kernel_arg` for the arguments of what is in the buffer and the rest of the line. -/
theorem parseLoop_eq (fuel : Nat) (p : List UInt8) (buf : Arg) (s : ArgParse) (hfuel : p.length ≤ fuel)
    (hbuf : NoSpace buf) (hlen : buf.length ≤ maxCmdArgLen) :
    parseLoop long fuel p buf s = (arguments (buf ++ p)).foldlM (useKernelArg long) s := by
  have hnone : NoSpace [] := fun c hc => absurd hc (by simp)
  induction fuel generalizing p buf s with
  | zero =>
    obtain rfl : p = [] := List.length_eq_zero_iff.mp (by omega)
    rw [List.append_nil]
    exact parseLoop_end hbuf hlen
  | succ fuel ih =>
    cases p with
    | nil =>
      rw [List.append_nil]
      exact parseLoop_end hbuf hlen
    | cons c p =>
      have hp : p.length ≤ fuel := by simpa using hfuel
      unfold parseLoop
      split_ifs with hc hpending hfull
      · -- a space after a run
        subst hc
        rw [arguments_space hbuf hlen, if_neg hpending, List.singleton_append, List.foldlM_cons, endArg_eq hlen]
        exact bind_congr fun s' => ih p [] s' hp hnone (by simp)
      · -- a space after a space
        subst hc
        obtain rfl : buf = [] := not_not.mp hpending
        have hskip : arguments ([] ++ 32 :: p) = arguments p := arguments_space hnone (by simp) p
        rw [hskip]
        exact ih p [] s hp hnone (by simp)
      · -- a run that is too long
        rw [arguments_truncated hbuf (le_antisymm hlen hfull), List.singleton_append, List.foldlM_cons, endArg_eq hlen]
        have hdrop : ((c :: p).dropWhile (· ≠ 32)).length ≤ fuel := by
          rw [List.dropWhile_cons, if_pos (by simpa using hc)]
          exact ((List.dropWhile_sublist _).length_le).trans hp
        exact bind_congr fun s' => ih _ [] s' hdrop hnone (by simp)
      · have hput : putChar buf c = .ok (buf ++ [c]) := if_pos (by omega)
        rw [hput]
        have hrest := ih p (buf ++ [c]) s hp (by
          intro d hd
          obtain hd | hd := List.mem_append.mp hd
          · exact hbuf d hd
          · rwa [List.mem_singleton.mp hd]) (by simp; omega)
        rwa [List.append_assoc, List.singleton_append] at hrest

theorem parseArgs_eq (cmdline : List UInt8) :
    parseArgs long cmdline s = (arguments cmdline).foldlM (useKernelArg long) s :=
  parseLoop_eq cmdline.length cmdline [] s le_rfl (fun c hc => absurd hc (by simp)) (by simp)

theorem called_foldlM (args : List Arg) (s : ArgParse) (hs : s.cmdArgs.length < maxCmdArgs) :
    Called (s.calls ++ args) (args.foldlM (useKernelArg long) s) := by
  induction args generalizing s with
  | nil => exact ⟨(List.append_nil _).symm, hs⟩
  | cons arg args ih =>
    rw [List.foldlM_cons, List.append_cons]
    refine (called_useKernelArg hs arg).bind fun s' hcalls hs' => ?_
    rw [← hcalls]
    exact ih s' hs'

end

/-! ## The name of the self-test -/

def isCmd (arg : Arg) : Prop := arg = [45, 99, 109, 100] ∨ arg = [45, 45]

instance (arg : Arg) : Decidable (isCmd arg) := inferInstanceAs (Decidable (_ ∨ _))

/-- The command arguments that are accepted: at most 15, and with room for them behind the `used` bytes. -/
def CommandsFit (used : Nat) (args : List Arg) : Prop :=
  args.length < maxCmdArgs ∧ used + (args.map fun arg => arg.length + 1).sum < pageSize

instance (used : Nat) (args : List Arg) : Decidable (CommandsFit used args) := inferInstanceAs (Decidable (_ ∧ _))

/-- The name that the arguments give to the self-test: the last value of `-selftest` for which there is room behind the `used`
bytes. There is none if the command arguments are not accepted, because of the panic. -/
def selftestOf : (used : Nat) → (name : Option Arg) → List Arg → Option Arg
  | _, name, [] => name
  | _, name, [_] => name
  | used, name, arg :: value :: args =>
    if isCmd arg then if CommandsFit used (value :: args) then name else none
    else if findKopt arg = some .selftest then
      if used + value.length + 1 < pageSize then selftestOf (used + value.length + 1) (some value) args
      else selftestOf used name args
    else if findKopt arg = some .ttys then selftestOf used name args
    else selftestOf used name (value :: args)

/-- There is no name, or it fits the buffer behind the prefix. -/
def SelftestFits (name : Option Arg) : Prop := ∀ arg ∈ name, arg.length ≤ maxCmdArgLen - selftestPrefix.length

section
variable {long : IntType} {s : ArgParse}

/-- What of the state decides about the self-test. -/
structure At (st : ArgState) (used : Nat) (name : Option Arg) (s : ArgParse) : Prop where
  state : s.state = st
  used : s.argsBufUsed = used
  name : s.selftest = name
  cmdArgs : s.cmdArgs = []

/-- A run that has ended with the name, or, if there is none, with a panic. -/
def Named (name : Option Arg) : Result → Prop
  | .ok s => s.selftest = name
  | .error _ => name = none

theorem named_commands (args : List Arg) (s : ArgParse) (hst : s.state = .finalCmdline) (hlen : s.cmdArgs.length < maxCmdArgs)
    (hused : s.argsBufUsed < pageSize) :
    Named (if s.cmdArgs.length + args.length < maxCmdArgs ∧
      s.argsBufUsed + (args.map fun arg => arg.length + 1).sum < pageSize then s.selftest else none)
      (args.foldlM (useKernelArg long) s) := by
  induction args generalizing s with
  | nil =>
    rw [if_pos ⟨hlen, hused⟩]
    rfl
  | cons arg args ih =>
    have hstep : useKernelArg long s arg = handleCmdlineArg { s with calls := s.calls ++ [arg] } arg := by
      simp only [useKernelArg, hst]
    rw [List.foldlM_cons, hstep]
    unfold handleCmdlineArg copyToArgsBuf
    simp only [List.map_cons, List.sum_cons, List.length_cons]
    by_cases hmany : s.cmdArgs.length = maxCmdArgs - 1
    · rw [if_pos hmany, if_neg (by unfold maxCmdArgs at *; omega)]
      rfl
    by_cases hfull : s.argsBufUsed + arg.length + 1 ≥ pageSize
    · rw [if_neg hmany, if_pos hfull, if_neg (by omega)]
      rfl
    rw [if_neg hmany, if_neg hfull, if_pos (by omega : s.argsBufUsed + arg.length + 1 ≤ pageSize)]
    have hroom : s.cmdArgs.length + 1 < maxCmdArgs := by
      unfold maxCmdArgs at *
      omega
    simp only [bind, Except.bind, if_pos hlen]
    have hrest := ih ⟨s.state, s.lastOpt, s.bools, s.ttys, s.selftest, s.argsBufUsed + arg.length + 1, s.cmdArgs ++ [arg],
      s.calls ++ [arg]⟩ hst (by simpa using hroom) (by simpa using hfull)
    simp only [List.length_append, List.length_singleton] at hrest
    convert hrest using 2
    omega

theorem findKopt_of_bool {arg : Arg} (h : koptIsBoolValue arg = true) : findKopt arg = none ∧ ¬ isCmd arg := by
  simp only [koptIsBoolValue, isFalse, isTrue, Bool.or_eq_true, decide_eq_true_eq] at h
  obtain (rfl | rfl) | rfl | rfl := h <;> decide

theorem At.koptHandleBool {st : ArgState} {used : Nat} {name : Option Arg} (h : At st used name s) (opt : Kopt) (arg : Arg) :
    At st used name (koptHandleBool s opt arg) := by
  obtain ⟨hst, hused, hname, hargs⟩ := h
  unfold Cmdline.koptHandleBool
  split_ifs <;> exact ⟨hst, hused, hname, hargs⟩

/-- An argument in the initial state. -/
theorem useInitial_cases {used : Nat} {name : Option Arg} (h : At .initial used name s) (arg : Arg) :
    ∃ s', useKernelArg long s arg = .ok s' ∧
      if isCmd arg then At .finalCmdline used name s'
      else if findKopt arg = some .selftest ∨ findKopt arg = some .ttys then
        At .waitingForValue used name s' ∧ s'.lastOpt = findKopt arg
      else At .initial used name s' := by
  obtain ⟨hst, hused, hname, hargs⟩ := h
  simp only [useKernelArg, hst, useInitial]
  by_cases hbool : koptIsBoolValue arg = true
  · obtain ⟨hnone, hcmd⟩ := findKopt_of_bool hbool
    simp only [if_pos hbool, if_neg hcmd, hnone, reduceCtorEq, or_self, if_false]
    cases hlast : s.lastOpt with
    | none => exact ⟨_, rfl, rfl, hused, hname, hargs⟩
    | some opt =>
      dsimp only
      split_ifs with htype
      · simp only [handleArgGeneric, htype]
        have hbools := At.koptHandleBool (s := { s with state := .initial, lastOpt := some opt, calls := s.calls ++ [arg] })
          ⟨rfl, hused, hname, hargs⟩ opt arg
        exact ⟨_, rfl, hbools.state, hbools.used, hbools.name, hbools.cmdArgs⟩
      · exact ⟨_, rfl, rfl, hused, hname, hargs⟩
  by_cases hcmd : isCmd arg
  · have hcmd' : arg = [45, 99, 109, 100] ∨ arg = [45, 45] := hcmd
    simp only [if_neg hbool, if_pos hcmd, if_pos hcmd']
    exact ⟨_, rfl, rfl, hused, hname, hargs⟩
  · have hcmd' : ¬ (arg = [45, 99, 109, 100] ∨ arg = [45, 45]) := hcmd
    simp only [if_neg hbool, if_neg hcmd, if_neg hcmd']
    cases hopt : findKopt arg with
    | none => exact ⟨_, rfl, rfl, hused, hname, hargs⟩
    | some opt =>
      cases opt
      case ttys => exact ⟨_, rfl, ⟨rfl, hused, hname, hargs⟩, rfl⟩
      case selftest => exact ⟨_, rfl, ⟨rfl, hused, hname, hargs⟩, rfl⟩
      all_goals
        refine ⟨_, rfl, ?_⟩
        rw [if_neg (by decide)]
        refine At.koptHandleBool ?_ _ _
        exact ⟨rfl, hused, hname, hargs⟩

/-- The value of `-selftest` is kept if there is room for it; the value of `-ttys` is not kept. -/
theorem useValue_cases {used : Nat} {name : Option Arg} (h : At .waitingForValue used name s) (arg : Arg) :
    (s.lastOpt = some .selftest → ∃ s', useKernelArg long s arg = .ok s' ∧
      if used + arg.length + 1 < pageSize then At .initial (used + arg.length + 1) (some arg) s' else At .initial used name s') ∧
    (s.lastOpt = some .ttys → ∃ s', useKernelArg long s arg = .ok s' ∧ At .initial used name s') := by
  obtain ⟨hst, rfl, hname, hargs⟩ := h
  simp only [useKernelArg, hst]
  constructor
  · intro hlast
    simp only [hlast, handleArgGeneric, Kopt.type, koptHandleWordstr, copyToArgsBuf]
    by_cases hroom : s.argsBufUsed + arg.length + 1 < pageSize
    · simp only [if_pos hroom, ge_iff_le, if_neg (not_le.mpr hroom), if_pos hroom.le]
      exact ⟨_, rfl, rfl, rfl, rfl, hargs⟩
    · simp only [if_neg hroom, ge_iff_le, if_pos (not_lt.mp hroom)]
      exact ⟨_, rfl, rfl, rfl, hname, hargs⟩
  · intro hlast
    simp only [hlast, handleArgGeneric, Kopt.type, koptHandleLong]
    split_ifs <;> exact ⟨_, rfl, rfl, rfl, hname, hargs⟩

theorem At.named_commands {used : Nat} {name : Option Arg} (h : At .finalCmdline used name s) (hused : used < pageSize)
    (args : List Arg) : Named (if CommandsFit used args then name else none) (args.foldlM (useKernelArg long) s) := by
  obtain ⟨hst, rfl, rfl, hargs⟩ := h
  have hrest := @Cmdline.named_commands long args s hst (by rw [hargs]; decide) hused
  simp only [hargs, List.length_nil, Nat.zero_add] at hrest
  exact hrest

theorem foldlM_two {s' s'' : ArgParse} {arg value : Arg} {args : List Arg} (hs' : useKernelArg long s arg = .ok s')
    (hs'' : useKernelArg long s' value = .ok s'') :
    (arg :: value :: args).foldlM (useKernelArg long) s = args.foldlM (useKernelArg long) s'' := by
  have hrest : (value :: args).foldlM (useKernelArg long) s' = args.foldlM (useKernelArg long) s'' := by
    rw [List.foldlM_cons, hs'']
    rfl
  rw [List.foldlM_cons, hs']
  exact hrest

theorem named_foldlM (used : Nat) (name : Option Arg) (args : List Arg) (s : ArgParse) (h : At .initial used name s)
    (hused : used < pageSize) : Named (selftestOf used name args) (args.foldlM (useKernelArg long) s) := by
  fun_induction selftestOf used name args generalizing s with
  | case1 used name => exact h.name
  | case2 used name arg =>
    obtain ⟨s', hs', hcases⟩ := @useInitial_cases long s _ _ h arg
    rw [List.foldlM_cons, hs']
    split_ifs at hcases
    · exact hcases.name
    · exact hcases.1.name
    · exact hcases.name
  | case3 used name arg value args hcmd hfit =>
    obtain ⟨s', hs', hcases⟩ := @useInitial_cases long s _ _ h arg
    rw [if_pos hcmd] at hcases
    have hrest := @At.named_commands long s' _ _ hcases hused (value :: args)
    rw [if_pos hfit] at hrest
    rw [List.foldlM_cons, hs']
    exact hrest
  | case4 used name arg value args hcmd hfit =>
    obtain ⟨s', hs', hcases⟩ := @useInitial_cases long s _ _ h arg
    rw [if_pos hcmd] at hcases
    have hrest := @At.named_commands long s' _ _ hcases hused (value :: args)
    rw [if_neg hfit] at hrest
    rw [List.foldlM_cons, hs']
    exact hrest
  | case5 used name arg value args hcmd hopt hroom ih =>
    obtain ⟨s', hs', hcases⟩ := @useInitial_cases long s _ _ h arg
    rw [if_neg hcmd, if_pos (Or.inl hopt)] at hcases
    obtain ⟨s'', hs'', hcases'⟩ := (@useValue_cases long s' _ _ hcases.1 value).1 (hcases.2.trans hopt)
    rw [if_pos hroom] at hcases'
    rw [foldlM_two hs' hs'']
    exact ih s'' hcases' hroom
  | case6 used name arg value args hcmd hopt hroom ih =>
    obtain ⟨s', hs', hcases⟩ := @useInitial_cases long s _ _ h arg
    rw [if_neg hcmd, if_pos (Or.inl hopt)] at hcases
    obtain ⟨s'', hs'', hcases'⟩ := (@useValue_cases long s' _ _ hcases.1 value).1 (hcases.2.trans hopt)
    rw [if_neg hroom] at hcases'
    rw [foldlM_two hs' hs'']
    exact ih s'' hcases' hused
  | case7 used name arg value args hcmd hopt hopt' ih =>
    obtain ⟨s', hs', hcases⟩ := @useInitial_cases long s _ _ h arg
    rw [if_neg hcmd, if_pos (Or.inr hopt')] at hcases
    obtain ⟨s'', hs'', hcases'⟩ := (@useValue_cases long s' _ _ hcases.1 value).2 (hcases.2.trans hopt')
    rw [foldlM_two hs' hs'']
    exact ih s'' hcases' hused
  | case8 used name arg value args hcmd hopt hopt' ih =>
    obtain ⟨s', hs', hcases⟩ := @useInitial_cases long s _ _ h arg
    rw [if_neg hcmd, if_neg (not_or.mpr ⟨hopt, hopt'⟩)] at hcases
    rw [List.foldlM_cons, hs']
    exact ih s' hcases hused

theorem called_handleSelftestKopt {calls : List Arg} (hcalls : s.calls = calls) (hs : s.cmdArgs.length < maxCmdArgs) :
    Called calls (handleSelftestKopt s) ↔ SelftestFits s.selftest := by
  unfold handleSelftestKopt
  cases hname : s.selftest with
  | none => exact iff_of_true ⟨hcalls, hs⟩ (by simp [SelftestFits])
  | some name =>
    have hlen : SelftestFits (some name) ↔ selftestPrefix.length + name.length + 1 ≤ maxCmdArgLen + 1 := by
      simp only [SelftestFits, Option.mem_def, Option.some.injEq, forall_eq', maxCmdArgLen, selftestPrefix, List.length_cons,
        List.length_nil]
      omega
    rw [hlen]
    dsimp only
    split_ifs with h
    · exact iff_of_true ⟨hcalls, hs⟩ h
    · exact iff_of_false id h

theorem called_doArgsValidation (ttyCount : Int) (hs : s.cmdArgs.length < maxCmdArgs) :
    Called s.calls (doArgsValidation ttyCount s) ↔ SelftestFits s.selftest := by
  unfold doArgsValidation
  dsimp only
  split_ifs <;> exact called_handleSelftestKopt rfl hs

end

/-- `a  -selftest` and a name of `n` characters. -/
def selftestLine (n : Nat) : List UInt8 :=
  [97, 32, 32, 45, 115, 101, 108, 102, 116, 101, 115, 116, 32] ++ List.replicate n 120

def isFault : Result → Bool
  | .error .fault => true
  | _ => false

end Usax.Common.Cmdline
