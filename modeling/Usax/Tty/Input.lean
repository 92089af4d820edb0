import Usax.Ringbuf.Ringbuf
import Usax.Common.Errno

/-!
# The input of a terminal

`tty_input.c`, `tty_ctrl_handlers.c.h` and the changes of the settings in `tty_ioctl.c`. Keys write bytes to the input ring
buffer of the terminal, from the interrupt of the keyboard (where nothing may block) or from a worker thread of the serial
port (where a full buffer makes the writer wait, `Writer`). Reads take them out, in passes of the loop of `tty_read_int`
(`Tty.readPass`) between which the reader may sleep. In canonical mode the terminal counts the line delimiters of the
buffer in `end_line_delim_count`.

The echo of the keys and the signals that they send are left out.
-/

namespace Usax.Term

open Common (Errno)

/-- The indices of `c_cc`. -/
inductive Cc
  | vintr | vquit | verase | vkill | veof | vtime | vmin | vswtc | vstart | vstop | vsusp | veol | vreprint | vdiscard
  | vwerase | vlnext | veol2
deriving DecidableEq, Repr

/-- `struct termios`, with the bits of `c_iflag` and `c_lflag` that the input reads. -/
structure Termios where
  igncr : Bool
  icrnl : Bool
  inlcr : Bool
  ixon : Bool
  isig : Bool
  icanon : Bool
  iexten : Bool
  cc : Cc → UInt8

def defaultTermios : Termios where
  igncr := false
  icrnl := true
  inlcr := false
  ixon := true
  isig := true
  icanon := true
  iexten := true
  cc
    | .vintr => 0x03
    | .vquit => 0x1c
    | .verase => 0x7f
    | .vkill => 0x15
    | .veof => 0x04
    | .vtime => 0
    | .vmin => 0x01
    | .vswtc => 0
    | .vstart => 0x11
    | .vstop => 0x13
    | .vsusp => 0x1a
    | .veol => 0
    | .vreprint => 0x12
    | .vdiscard => 0x0f
    | .vwerase => 0x17
    | .vlnext => 0x16
    | .veol2 => 0

def Termios.isLineDelimChar (tm : Termios) (c : UInt8) : Bool :=
  c == 10 || c == tm.cc .veof || c == tm.cc .veol || c == tm.cc .veol2

/-- The functions of `ctrl_handlers`. -/
inductive Ctrl
  | stop | start | intr | susp | quit | eof | eol | eol2 | reprint | discard | lnext
deriving DecidableEq, Repr

def ttyReadBs : Nat := 4096

def ttyInputBs : Nat := 1024

/-- `struct tty`, as far as the input uses it. -/
structure Tty where
  inputRingbuf : Ringbuf
  endLineDelimCount : Int
  mediumrawMode : Bool
  ctrlHandlers : UInt8 → Option Ctrl
  cTerm : Termios

/-- What a writer does when `tty_inbuf_write_elem` returns: nothing for the input, or the count of
`tty_keypress_handle_canon_mode`. -/
inductive After
  | signal
  | count
deriving DecidableEq, Repr

/-- A call of `tty_inbuf_write_elem`, with what follows it. -/
structure Writer where
  c : UInt8
  after : After
deriving DecidableEq, Repr

/-- A key, with what the keyboard driver tells about it. -/
structure KeyEvent where
  pressed : Bool
  printChar : UInt8
  /-- `kb_is_alt_pressed` -/
  alt : Bool
  /-- `kb_is_ctrl_pressed` -/
  ctrl : Bool
  /-- page up or page down with shift, which scrolls -/
  scrolls : Bool
  /-- a function key in text mode, which with alt changes the current terminal -/
  fn : Bool
  /-- what `scancode_to_ansi_seq` finds -/
  seq : Option (List UInt8)
  /-- `translate_to_mediumraw` -/
  mr : UInt8

inductive KbHandlerAction
  | nak | okAndContinue | okAndStop
deriving DecidableEq, Repr

structure HandleExtra where
  readPos : Nat
  readBufUsed : Nat
  readBuf : Nat → UInt8
  readAllowedToReturn : Bool

/-- `tty_flush_read_buf`, with the bytes for the caller. -/
def HandleExtra.flushReadBuf (eh : HandleExtra) (size : Nat) : HandleExtra × List UInt8 :=
  let m := min (eh.readBufUsed - eh.readPos) size
  let bytes := Ringbuf.bytesAt eh.readBuf eh.readPos m
  if eh.readPos + m = eh.readBufUsed then ({ eh with readBufUsed := 0, readPos := 0 }, bytes)
  else ({ eh with readPos := eh.readPos + m }, bytes)

namespace Tty

variable (t : Tty)

/-! ## Keys -/

def inbufReset : Tty := { t with inputRingbuf := t.inputRingbuf.reset, endLineDelimCount := 0 }

def inbufDropLastWrittenElem : Tty :=
  match t.inputRingbuf.unwriteElem with
  | some rb => { t with inputRingbuf := rb }
  | none => t

/-- What the writer does when `tty_inbuf_write_elem` has returned. -/
def resume (w : Writer) : Tty :=
  match w.after with
  | .signal => t
  | .count =>
    if t.cTerm.isLineDelimChar w.c then { t with endLineDelimCount := t.endLineDelimCount + 1 } else t

/-- `tty_inbuf_write_elem` and what follows it, up to the wait for space. Without `block` a byte that finds no space is
lost, and the writer goes on as if it had been written. -/
def inbufWriteElem (w : Writer) (block : Bool) : Tty × Option Writer :=
  match t.inputRingbuf.writeElem1 w.c with
  | some rb => ({ t with inputRingbuf := rb }.resume w, none)
  | none => if block then (t, some w) else (t.resume w, none)

/-- `tty_ctrl_eof`, `tty_ctrl_eol` and `tty_ctrl_eol2`: the delimiter is counted before it is written. -/
def ctrlDelim (i : Cc) (block : Bool) : Option (Tty × Option Writer) :=
  if t.cTerm.icanon then
    some ({ t with endLineDelimCount := t.endLineDelimCount + 1 }.inbufWriteElem ⟨t.cTerm.cc i, .signal⟩ block)
  else none

/-- The handlers of `tty_ctrl_handlers.c.h`; `none` if the key is not for them. -/
def ctrl (h : Ctrl) (block : Bool) : Option (Tty × Option Writer) :=
  match h with
  | .stop | .start => if t.cTerm.ixon then some (t, none) else none
  | .intr | .quit => if t.cTerm.isig then some (t.inbufReset, none) else none
  | .susp => if t.cTerm.isig then some (t, none) else none
  | .eof => t.ctrlDelim .veof block
  | .eol => t.ctrlDelim .veol block
  | .eol2 => t.ctrlDelim .veol2 block
  | .reprint => if t.cTerm.icanon || t.cTerm.iexten then some (t, none) else none
  | .discard => none
  | .lnext => if t.cTerm.iexten then some (t, none) else none

def handleSpecialControls (c : UInt8) (block : Bool) : Option (Tty × Option Writer) :=
  (t.ctrlHandlers c).bind fun h => t.ctrl h block

def keypressHandleCanonMode (c : UInt8) (block : Bool) : Tty × Option Writer :=
  if c = t.cTerm.cc .verase then (t.inbufDropLastWrittenElem, none)
  else t.inbufWriteElem ⟨c, .count⟩ block

/-- The byte that the flags of `c_iflag` make of the byte of a key. -/
def inputChar (c : UInt8) : Option UInt8 :=
  if c = 13 then if t.cTerm.igncr then none else if t.cTerm.icrnl then some 10 else some c
  else if c = 10 then if t.cTerm.inlcr then some 13 else some c
  else some c

/-- `tty_send_keyevent`, with the writer if it waits for space. -/
def sendKeyevent (c : UInt8) (block : Bool) : Tty × Option Writer :=
  match t.inputChar c with
  | none => (t, none)
  | some c =>
    match t.handleSpecialControls c block with
    | some r => r
    | none =>
      if t.cTerm.icanon then t.keypressHandleCanonMode c block
      else t.inbufWriteElem ⟨c, .signal⟩ block

/-- A byte that is written and not counted, from the keyboard. -/
def inbufPut (c : UInt8) : Tty := (t.inbufWriteElem ⟨c, .signal⟩ false).1

def isalpha (c : UInt8) : Bool := (65 ≤ c && c ≤ 90) || (97 ≤ c && c ≤ 122)

def toupper (c : UInt8) : UInt8 := if 97 ≤ c && c ≤ 122 then c - 32 else c

def ctrlChar (ke : KeyEvent) : UInt8 :=
  if ke.ctrl && (isalpha ke.printChar || ke.printChar == 92 || ke.printChar == 91) then toupper ke.printChar - 65 + 1
  else ke.printChar

/-- The bytes of the sequence that `tty_handle_non_printable_key` writes. -/
def seqBytes (seq : List UInt8) : List UInt8 := seq.takeWhile fun c => c != 0

def handleNonPrintableKey (ke : KeyEvent) : Tty × KbHandlerAction :=
  match ke.seq with
  | none => (t, .nak)
  | some seq => ((seqBytes seq).foldl inbufPut t, .okAndContinue)

def putAlt (ke : KeyEvent) : Tty := if ke.alt then t.inbufPut 27 else t

def keypressHandlerInt (ke : KeyEvent) : Tty × KbHandlerAction :=
  if ke.printChar = 0 then t.handleNonPrintableKey ke
  else (((t.putAlt ke).sendKeyevent (ctrlChar ke) false).1, .okAndContinue)

/-- `tty_keypress_handler` for the current terminal. -/
def keypressHandler (ke : KeyEvent) : Tty × KbHandlerAction :=
  if t.mediumrawMode then if ke.mr = 0 then (t, .okAndStop) else (t.inbufPut ke.mr, .okAndStop)
  else if !ke.pressed then (t, .nak)
  else if ke.scrolls then (t, .okAndStop)
  else if ke.alt && ke.fn then (t, .okAndStop)
  else t.keypressHandlerInt ke

/-! ## Reads -/

/-- The end of `tty_internal_read_single_char_from_kb`, for the byte `c`: whether it was a delimiter, and whether the loop
goes on. -/
def takeChar (eh : HandleExtra) (c : UInt8) : Tty × HandleExtra × Bool × Bool :=
  let eh := { eh with
    readBuf := fun i => if i = eh.readBufUsed then c else eh.readBuf i
    readBufUsed := eh.readBufUsed + 1 }
  if t.cTerm.icanon then
    if t.cTerm.isLineDelimChar c then
      ({ t with endLineDelimCount := t.endLineDelimCount - 1 },
        if c = t.cTerm.cc .veof then { eh with readBufUsed := eh.readBufUsed - 1 } else eh, true, false)
    else (t, eh, false, true)
  else (t, eh, false, !decide ((t.cTerm.cc .vmin).toNat ≤ eh.readBufUsed))

/-- The loop of `tty_read_int` that takes bytes out of the input buffer, with whether it met a delimiter. It takes a byte
each time, so that the number of bytes in the buffer bounds it (`readChars_fuel`). -/
def readChars : Nat → Tty → HandleExtra → Tty × HandleExtra × Bool
  | 0, t, eh => (t, eh, false)
  | n + 1, t, eh =>
    match t.inputRingbuf.readElem1 with
    | none => (t, eh, false)
    | some (rb, c) =>
      if eh.readBufUsed < ttyReadBs then
        match takeChar { t with inputRingbuf := rb } eh c with
        | (t, eh, delimBreak, goOn) => if goOn then readChars n t eh else (t, eh, delimBreak)
      else (t, eh, false)

def shouldReadReturn (eh : HandleExtra) (readCnt : Nat) (delimBreak : Bool) : Bool :=
  if t.cTerm.icanon then
    delimBreak ||
      (decide (0 < t.endLineDelimCount) && (decide (eh.readBufUsed = ttyReadBs) || decide (readCnt = ttyInputBs)))
  else decide ((t.cTerm.cc .vmin).toNat ≤ readCnt)

/-- `tty_read_ready_int`. -/
def readReady (eh : HandleExtra) : Bool :=
  if t.cTerm.icanon then eh.readAllowedToReturn || decide (0 < t.endLineDelimCount)
  else decide ((t.cTerm.cc .vmin).toNat ≤ t.inputRingbuf.elems)

end Tty

/-- A handle: `tty_handle_extra` and `O_NONBLOCK` in `fl_flags`. -/
structure TtyHandle where
  extra : HandleExtra
  nonblock : Bool

/-- A call of `tty_read_int` in its loop: the handle, the size, the bytes that the caller has, and whether it sleeps. -/
structure Reader where
  handle : Nat
  size : Nat
  out : List UInt8
  sleeps : Bool

/-- What a pass of a read comes to: an answer, or another pass. -/
inductive ReadStep
  | answer (r : Except Errno (List UInt8))
  | again (r : Reader)

namespace Tty

variable (t : Tty)

/-- `tty_read_int` up to its loop. `fg` tells whether the process may read from the terminal. -/
def readBegin (fg : Bool) (h : TtyHandle) (handle size : Nat) : TtyHandle × ReadStep :=
  if !fg then (h, .answer (.error .eio))
  else if size = 0 then (h, .answer (.ok []))
  else if h.extra.readBufUsed ≠ 0 ∧ !h.nonblock then
    match h.extra.flushReadBuf size with
    | (eh, bytes) => ({ h with extra := eh }, .answer (.ok bytes))
  else if h.extra.readBufUsed ≠ 0 ∧ h.extra.readAllowedToReturn then
    match h.extra.flushReadBuf size with
    | (eh, bytes) =>
      ({ h with extra := if eh.readBufUsed = 0 then { eh with readAllowedToReturn := false } else eh },
        .answer (.ok bytes))
  else ({ h with extra := { h.extra with readAllowedToReturn := false } }, .again ⟨handle, size, [], false⟩)

/-- The end of a pass, after the bytes were taken out of the input buffer. -/
def readEnd (h : TtyHandle) (r : Reader) (delimBreak : Bool) : TtyHandle × ReadStep :=
  let (eh, bytes) :=
    if !h.nonblock || !t.cTerm.icanon then h.extra.flushReadBuf (r.size - r.out.length) else (h.extra, [])
  let out := r.out ++ bytes
  if t.shouldReadReturn eh out.length delimBreak then
    if h.nonblock then
      match eh.flushReadBuf (r.size - out.length) with
      | (eh, bytes) =>
        ({ h with extra := if eh.readBufUsed ≠ 0 then { eh with readAllowedToReturn := true } else eh },
          .answer (.ok (out ++ bytes)))
    else ({ h with extra := eh }, .answer (.ok out))
  else ({ h with extra := eh }, .again { r with out := out, sleeps := false })

/-- A pass of the loop of `tty_read_int`, up to its end or to the wait for input. `sig` tells whether signals are pending,
which a reader that wakes up looks at. -/
def readPass (h : TtyHandle) (r : Reader) (sig : Bool) : Tty × TtyHandle × ReadStep :=
  if r.sleeps && sig then (t, h, .answer (.error .eintr))
  else if t.inputRingbuf.isEmpty then
    if h.nonblock && !r.sleeps then (t, h, .answer (.error .eagain))
    else (t, h, .again { r with sleeps := true })
  else
    match readChars t.inputRingbuf.elems t h.extra with
    | (t, eh, delimBreak) => (t, t.readEnd { h with extra := eh } r delimBreak)

/-! ## The settings -/

def setCtrlHandler (i : Cc) (h : Ctrl) : Tty :=
  let c := t.cTerm.cc i
  if c = 0 then t else { t with ctrlHandlers := fun x => if x = c then some h else t.ctrlHandlers x }

def updateCtrlHandlers : Tty :=
  { t with ctrlHandlers := fun _ => none }
    |>.setCtrlHandler .vstop .stop
    |>.setCtrlHandler .vstart .start
    |>.setCtrlHandler .vintr .intr
    |>.setCtrlHandler .vsusp .susp
    |>.setCtrlHandler .vquit .quit
    |>.setCtrlHandler .veof .eof
    |>.setCtrlHandler .veol .eol
    |>.setCtrlHandler .veol2 .eol2
    |>.setCtrlHandler .vreprint .reprint
    |>.setCtrlHandler .vdiscard .discard
    |>.setCtrlHandler .vlnext .lnext

def resetTermios : Tty := { t with cTerm := defaultTermios, mediumrawMode := false }

/-- The settings of `tty_set_raw_mode`. -/
def rawTermios : Termios :=
  { defaultTermios with
    igncr := false, icrnl := false, inlcr := false, ixon := false, isig := false, icanon := false, iexten := false }

def setRawMode : Tty := { t.resetTermios with cTerm := rawTermios }

/-- `tty_ioctl_tcsets`; there is no argument if it cannot be copied from the user. -/
def ioctlTcsets : Option Termios → Tty × Except Errno Unit
  | none => (t, .error .efault)
  | some tm =>
    ({ t with
      cTerm := tm
      endLineDelimCount := if tm.icanon ≠ t.cTerm.icanon then 0 else t.endLineDelimCount }.updateCtrlHandlers, .ok ())

/-- A terminal after `init_tty_struct` and `tty_input_init`. -/
def init (buf : Nat → UInt8) : Tty :=
  updateCtrlHandlers
    { inputRingbuf := Ringbuf.init ttyInputBs buf
      endLineDelimCount := 0
      mediumrawMode := false
      ctrlHandlers := fun _ => none
      cTerm := defaultTermios }

end Tty

end Usax.Term
