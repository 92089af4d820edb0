import Mathlib
import Usax.Tty.Input
import Usax.Lib.Runs

/-!
# Blocking reads

A process reads from a terminal with one blocking handle while bytes are typed. The bytes go from the input buffer of the
terminal to the read buffer of the handle, and from there to the buffer of the caller; what does not fit there stays in the
read buffer for the next read. A pass of a read that does not return has to leave the read buffer empty: `tty_read_int` asserts
it at the start of the next one.

In canonical mode it is not empty when the part of a line that was typed so far is longer than the buffer of the caller, in raw
mode when the buffer is smaller than `VMIN`. `canonical_reads` and `raw_reads` are about the runs without such passes.
-/

namespace Usax.Term

open Lib (Reached execs)

/-! ## The read buffer -/

namespace HandleExtra

variable (eh : HandleExtra)

/-- The bytes in the read buffer that no caller has. -/
def rest : List UInt8 := Ringbuf.bytesAt eh.readBuf eh.readPos (eh.readBufUsed - eh.readPos)

def push (c : UInt8) : HandleExtra :=
  { eh with
    readBuf := fun i => if i = eh.readBufUsed then c else eh.readBuf i
    readBufUsed := eh.readBufUsed + 1 }

/-- There are bytes in the read buffer, or it is at its start. -/
def Ok : Prop := eh.readPos < eh.readBufUsed ∨ eh.readBufUsed = 0 ∧ eh.readPos = 0

variable {eh} {c : UInt8} {size : Nat}

theorem Ok.le (h : eh.Ok) : eh.readPos ≤ eh.readBufUsed := by
  rcases h with h | ⟨h₁, h₂⟩ <;> omega

theorem length_rest : eh.rest.length = eh.readBufUsed - eh.readPos := by simp [rest, Ringbuf.bytesAt]

theorem Ok.rest_eq_nil (h : eh.Ok) : eh.rest = [] ↔ eh.readBufUsed = 0 ∧ eh.readPos = 0 := by
  rw [← List.length_eq_zero_iff, length_rest]
  rcases h with h | h <;> omega

theorem rest_push (h : eh.readPos ≤ eh.readBufUsed) : (eh.push c).rest = eh.rest ++ [c] := by
  simp only [rest, push, Ringbuf.bytesAt]
  rw [Nat.succ_sub h, List.range_succ, List.map_append]
  congr 1
  · refine List.map_congr_left fun i hi => ?_
    have := List.mem_range.mp hi
    rw [if_neg (by omega)]
  · rw [List.map_singleton, if_pos (by omega)]

theorem rest_unpush (h : eh.readPos ≤ eh.readBufUsed) :
    rest { eh.push c with readBufUsed := (eh.push c).readBufUsed - 1 } = eh.rest := by
  simp only [rest, push, Ringbuf.bytesAt, Nat.add_sub_cancel]
  refine List.map_congr_left fun i hi => ?_
  have := List.mem_range.mp hi
  rw [if_neg (by omega)]

/-- **A flush** gives the first bytes to the caller. -/
theorem flush_spec (h : eh.Ok) (size : Nat) : (eh.flushReadBuf size).2 = eh.rest.take size ∧
    (eh.flushReadBuf size).1.rest = eh.rest.drop size ∧ (eh.flushReadBuf size).1.Ok := by
  have hle := h.le
  have htake : Ringbuf.bytesAt eh.readBuf eh.readPos (min (eh.readBufUsed - eh.readPos) size) = eh.rest.take size := by
    simp only [rest, Ringbuf.bytesAt, ← List.map_take, List.take_range, Nat.min_comm]
  unfold flushReadBuf
  dsimp only
  rw [htake]
  split_ifs with hend
  · refine ⟨rfl, ?_, .inr ⟨rfl, rfl⟩⟩
    rw [List.drop_eq_nil_of_le (by rw [length_rest]; omega)]
    rfl
  · refine ⟨rfl, ?_, .inl (by dsimp only; omega)⟩
    simp only [rest, Ringbuf.bytesAt, ← List.map_drop]
    apply List.ext_getElem
    · simp
      omega
    · intro i _ _
      simp only [List.getElem_map, List.getElem_range, List.getElem_drop]
      congr 1
      omega

end HandleExtra

/-! ## A pass -/

namespace Termios

variable (tm : Termios)

/-- What is left of some bytes without the end of file characters. -/
def strip (l : List UInt8) : List UInt8 := l.filter (· ≠ tm.cc .veof)

def NoDelim (l : List UInt8) : Prop := ∀ x ∈ l, tm.isLineDelimChar x = false

instance (l : List UInt8) : Decidable (tm.NoDelim l) := by unfold NoDelim; infer_instance

/-- A line or a part of it: only the last byte may be its end. -/
def OneLine (l : List UInt8) : Prop := tm.NoDelim l.dropLast

variable {tm} {l m : List UInt8} {c : UInt8}

theorem strip_eq_self (h : tm.NoDelim l) : tm.strip l = l := by
  refine List.filter_eq_self.mpr fun x hx => decide_eq_true fun he => ?_
  have := h x hx
  simp [isLineDelimChar, he] at this

theorem noDelim_nil : tm.NoDelim [] := List.forall_mem_nil _

theorem strip_append : tm.strip (l ++ m) = tm.strip l ++ tm.strip m := List.filter_append ..

theorem NoDelim.append (h : tm.NoDelim l) (h' : tm.NoDelim m) : tm.NoDelim (l ++ m) :=
  List.forall_mem_append.mpr ⟨h, h'⟩

theorem NoDelim.countP (h : tm.NoDelim l) : l.countP tm.isLineDelimChar = 0 :=
  List.countP_eq_zero.mpr fun x hx => Bool.eq_false_iff.mp (h x hx)

theorem NoDelim.oneLine (h : tm.NoDelim l) : tm.OneLine l := fun x hx => h x (List.dropLast_subset l hx)

theorem NoDelim.append_oneLine (h : tm.NoDelim l) (h' : tm.OneLine m) : tm.OneLine (l ++ m) := by
  rcases List.eq_nil_or_concat' m with rfl | ⟨m, c, rfl⟩
  · rw [List.append_nil]
    exact h.oneLine
  · rw [OneLine, ← List.append_assoc, List.dropLast_concat]
    rw [OneLine, List.dropLast_concat] at h'
    exact h.append h'

theorem OneLine.split (h : tm.OneLine l) (n : Nat) : ∃ a b, l = a ++ b ∧ tm.strip a = (tm.strip l).take n ∧
    tm.strip b = (tm.strip l).drop n ∧ tm.OneLine a ∧ tm.OneLine b ∧ ((tm.strip l).drop n = [] → b = []) := by
  rcases Nat.lt_or_ge n (tm.strip l).length with hlt | hge
  · rcases List.eq_nil_or_concat' l with rfl | ⟨p, c, rfl⟩
    · exact absurd hlt (Nat.not_lt_zero n)
    rw [OneLine, List.dropLast_concat] at h
    have hp : n ≤ p.length := by
      rw [strip_append, strip_eq_self h, List.length_append] at hlt
      have := List.length_filter_le (fun x : UInt8 => decide (x ≠ tm.cc .veof)) [c]
      simp only [List.length_singleton] at this
      unfold strip at hlt
      omega
    have htake : tm.NoDelim (p.take n) := fun x hx => h x (List.mem_of_mem_take hx)
    have hdrop : tm.NoDelim (p.drop n) := fun x hx => h x (List.mem_of_mem_drop hx)
    refine ⟨p.take n, p.drop n ++ [c], by rw [← List.append_assoc, List.take_append_drop], ?_, ?_, htake.oneLine,
      hdrop.append_oneLine noDelim_nil, fun hnil => ?_⟩
    · rw [strip_append, strip_eq_self h, strip_eq_self htake, List.take_append_of_le_length hp]
    · rw [strip_append, strip_append, strip_eq_self h, strip_eq_self hdrop, List.drop_append_of_le_length hp]
    · exact absurd (List.drop_eq_nil_iff.mp hnil) (Nat.not_le_of_lt hlt)
  · exact ⟨l, [], (List.append_nil l).symm, (List.take_of_length_le hge).symm, (List.drop_eq_nil_of_le hge).symm, h,
      noDelim_nil, fun _ => rfl⟩

end Termios

/-- The bytes `pre` were taken from the input buffer, and `kept` is what the read buffer has of them. -/
structure Taken (t t' : Tty) (eh eh' : HandleExtra) (pre kept : List UInt8) : Prop where
  wf : t'.inputRingbuf.Wf
  max : t'.inputRingbuf.maxElems = t.inputRingbuf.maxElems
  cTerm : t'.cTerm = t.cTerm
  contents : t.inputRingbuf.contents = pre ++ t'.inputRingbuf.contents
  pos : eh'.readPos = eh.readPos
  used : eh'.readBufUsed = eh.readBufUsed + kept.length
  rest : eh'.rest = eh.rest ++ kept

section

variable {t t' : Tty} {eh eh' : HandleExtra} {c : UInt8} {rb : Ringbuf} {pre kept : List UInt8}

theorem Taken.nil (h : t.inputRingbuf.Wf) : Taken t t eh eh [] [] := ⟨h, rfl, rfl, rfl, rfl, rfl, by simp⟩

theorem Taken.cons (hpos : eh.readPos ≤ eh.readBufUsed) (hc : t.inputRingbuf.contents = c :: rb.contents)
    (hm : rb.maxElems = t.inputRingbuf.maxElems)
    (h : Taken { t with inputRingbuf := rb } t' (eh.push c) eh' pre kept) : Taken t t' eh eh' (c :: pre) (c :: kept) where
  wf := h.wf
  max := h.max.trans hm
  cTerm := h.cTerm
  contents := by rw [hc, List.cons_append, ← h.contents]
  pos := h.pos
  used := by rw [h.used, List.length_cons]; show eh.readBufUsed + 1 + _ = _; omega
  rest := by rw [h.rest, HandleExtra.rest_push hpos, List.append_assoc, List.singleton_append]

theorem Taken.ok (h : Taken t t' eh eh' pre kept) (h0 : eh.readBufUsed = 0 ∧ eh.readPos = 0) : eh'.Ok := by
  have h₁ := h.pos
  have h₂ := h.used
  unfold HandleExtra.Ok
  omega

theorem Taken.flush (h : Taken t t' eh eh' pre kept) (h0 : eh.readBufUsed = 0 ∧ eh.readPos = 0) (size : Nat) :
    (eh'.flushReadBuf size).2 = kept.take size ∧ (eh'.flushReadBuf size).1.rest = kept.drop size ∧
      (eh'.flushReadBuf size).1.Ok := by
  have hrest : eh'.rest = kept := by
    rw [h.rest, HandleExtra.Ok.rest_eq_nil (.inr h0) |>.mpr h0, List.nil_append]
  exact hrest ▸ HandleExtra.flush_spec (h.ok h0) size

end

namespace Tty

variable {t : Tty} {c : UInt8}

/-- **The loop in canonical mode** takes the bytes up to the end of a line, or all of them. -/
theorem readChars_canon : ∀ (n : Nat) {t : Tty} {eh : HandleExtra}, t.inputRingbuf.Wf → t.cTerm.icanon = true →
    t.inputRingbuf.contents.length ≤ n → eh.readPos ≤ eh.readBufUsed →
    eh.readBufUsed + t.inputRingbuf.contents.length ≤ ttyReadBs →
    ∃ t' eh' b pre, readChars n t eh = (t', eh', b) ∧ Taken t t' eh eh' pre (t.cTerm.strip pre) ∧
      (b = false ∧ t'.inputRingbuf.contents = [] ∧ t.cTerm.NoDelim pre ∧ t'.endLineDelimCount = t.endLineDelimCount ∨
        b = true ∧ ∃ p c, pre = p ++ [c] ∧ t.cTerm.NoDelim p ∧ t.cTerm.isLineDelimChar c = true ∧
          t'.endLineDelimCount = t.endLineDelimCount - 1)
  | 0, t, eh, hwf, _, hn, _, _ => ⟨t, eh, false, [], rfl, .nil hwf,
      .inl ⟨rfl, List.length_eq_zero_iff.mp (Nat.le_zero.mp hn), Termios.noDelim_nil, rfl⟩⟩
  | n + 1, t, eh, hwf, hcanon, hn, hpos, hroom => by
    obtain ⟨hnil, he⟩ | ⟨rb, c, he, hwf', hc, hm⟩ := Ringbuf.readElem1_spec hwf
    · exact ⟨t, eh, false, [], by simp only [readChars, he], .nil hwf, .inl ⟨rfl, hnil, Termios.noDelim_nil, rfl⟩⟩
    rw [hc, List.length_cons] at hn hroom
    have hlt : eh.readBufUsed < ttyReadBs := by omega
    have hn' : rb.contents.length ≤ n := by omega
    have hroom' : eh.readBufUsed + 1 + rb.contents.length ≤ ttyReadBs := by omega
    cases hd : t.cTerm.isLineDelimChar c with
    | false =>
      have htake : takeChar { t with inputRingbuf := rb } eh c = ({ t with inputRingbuf := rb }, eh.push c, false, true) := by
        simp [takeChar, hcanon, hd, HandleExtra.push]
      obtain ⟨t', eh', b, pre, hr, htaken, hcase⟩ := @readChars_canon n { t with inputRingbuf := rb } (eh.push c) hwf'
        hcanon hn' (Nat.le_succ_of_le hpos) hroom'
      have hone : t.cTerm.NoDelim [c] := fun x hx => List.mem_singleton.mp hx ▸ hd
      refine ⟨t', eh', b, c :: pre, ?_, ?_, ?_⟩
      · simp only [readChars, he, if_pos hlt, htake, if_true, hr]
      · rw [← List.singleton_append, Termios.strip_append, Termios.strip_eq_self hone]
        exact htaken.cons hpos hc hm
      · rcases hcase with ⟨hb, hnil, hno, hcount⟩ | ⟨hb, p, d, rfl, hno, hdel, hcount⟩
        · exact .inl ⟨hb, hnil, hone.append hno, hcount⟩
        · exact .inr ⟨hb, c :: p, d, rfl, hone.append hno, hdel, hcount⟩
    | true =>
      -- the end of the line stays in the read buffer, unless it is the end of file character
      refine ⟨{ t with inputRingbuf := rb, endLineDelimCount := t.endLineDelimCount - 1 },
        if c = t.cTerm.cc .veof then { eh.push c with readBufUsed := (eh.push c).readBufUsed - 1 } else eh.push c, true, [c],
        ?_, ?_, .inr ⟨rfl, [], c, rfl, Termios.noDelim_nil, hd, rfl⟩⟩
      · simp only [readChars, he, if_pos hlt, takeChar, hcanon, if_true, hd, Bool.false_eq_true, if_false, HandleExtra.push]
      · split_ifs with heof
        · rw [show t.cTerm.strip [c] = [] by simp [Termios.strip, heof]]
          exact ⟨hwf', hm, rfl, hc, rfl, rfl, by rw [List.append_nil, HandleExtra.rest_unpush hpos]⟩
        · rw [show t.cTerm.strip [c] = [c] by simp [Termios.strip, heof]]
          exact ⟨hwf', hm, rfl, hc, rfl, rfl, HandleExtra.rest_push hpos⟩

/-- **The loop in raw mode** takes the bytes until there are `VMIN` of them in the read buffer, or all of them. -/
theorem readChars_raw : ∀ (n : Nat) {t : Tty} {eh : HandleExtra}, t.inputRingbuf.Wf → t.cTerm.icanon = false →
    t.inputRingbuf.contents.length ≤ n → eh.readPos ≤ eh.readBufUsed → eh.readBufUsed < ttyReadBs →
    ∃ t' eh' pre, readChars n t eh = (t', eh', false) ∧ Taken t t' eh eh' pre pre ∧
      (t'.inputRingbuf.contents = [] ∨ (t.cTerm.cc .vmin).toNat ≤ eh'.readBufUsed)
  | 0, t, eh, hwf, _, hn, _, _ =>
    ⟨t, eh, [], rfl, .nil hwf, .inl (List.length_eq_zero_iff.mp (Nat.le_zero.mp hn))⟩
  | n + 1, t, eh, hwf, hraw, hn, hpos, hlt => by
    obtain ⟨hnil, he⟩ | ⟨rb, c, he, hwf', hc, hm⟩ := Ringbuf.readElem1_spec hwf
    · exact ⟨t, eh, [], by simp only [readChars, he], .nil hwf, .inl hnil⟩
    rw [hc, List.length_cons] at hn
    have hn' : rb.contents.length ≤ n := by omega
    have htake : takeChar { t with inputRingbuf := rb } eh c =
        ({ t with inputRingbuf := rb }, eh.push c, false, !decide ((t.cTerm.cc .vmin).toNat ≤ (eh.push c).readBufUsed)) := by
      simp only [takeChar, hraw, Bool.false_eq_true, if_false]
      rfl
    by_cases hmin : (t.cTerm.cc .vmin).toNat ≤ (eh.push c).readBufUsed
    · refine ⟨{ t with inputRingbuf := rb }, eh.push c, [c], ?_, Taken.cons hpos hc hm (.nil hwf'), .inr hmin⟩
      simp only [readChars, he, if_pos hlt, htake, hmin, decide_true, Bool.not_true, Bool.false_eq_true, if_false]
    · have hvmin := (t.cTerm.cc .vmin).toNat_lt
      obtain ⟨t', eh', pre, hr, htaken, hcase⟩ := @readChars_raw n { t with inputRingbuf := rb } (eh.push c) hwf'
        hraw hn' (Nat.le_succ_of_le hpos) (by unfold ttyReadBs; omega)
      refine ⟨t', eh', c :: pre, ?_, htaken.cons hpos hc hm, hcase⟩
      simp only [readChars, he, if_pos hlt, htake, hmin, decide_false, Bool.not_false, if_true, hr]

/-! ## Keys -/

/-- The key is for a byte of the input: it is not taken by a control handler, but for the ends of lines, and it is not the
erase key. -/
def Types (t : Tty) (c : UInt8) (block : Bool) : Prop :=
  ∃ c' ∈ t.inputChar c,
    (t.handleSpecialControls c' block).isNone = true ∧ (t.cTerm.icanon = true → c' ≠ t.cTerm.cc .verase) ∨
      t.cTerm.icanon = true ∧ ∃ k ∈ [(Ctrl.eof, Cc.veof), (.eol, .veol), (.eol2, .veol2)],
        t.ctrlHandlers c' = some k.1 ∧ c' = t.cTerm.cc k.2

instance (t : Tty) (c : UInt8) (block : Bool) : Decidable (t.Types c block) := by
  unfold Types; infer_instance

/-- **A byte that is typed** is at the end of the input buffer, and is counted if it ends a line. -/
theorem Types.spec {block : Bool} (h : t.Types c block) (hwf : t.inputRingbuf.Wf) (hroom : t.inputRingbuf.isFull = false) :
    ∃ c' rb, t.inputChar c = some c' ∧ rb.Wf ∧ rb.contents = t.inputRingbuf.contents ++ [c'] ∧
      rb.maxElems = t.inputRingbuf.maxElems ∧
      (t.sendKeyevent c block).1 = { t with
        inputRingbuf := rb
        endLineDelimCount := t.endLineDelimCount + if t.cTerm.icanon && t.cTerm.isLineDelimChar c' then 1 else 0 } := by
  obtain ⟨c', hc, hcase⟩ := h
  rw [Option.mem_def] at hc
  obtain ⟨hf, -⟩ | ⟨-, rb, he, hwf', hcont, hm⟩ := Ringbuf.writeElem1_spec hwf c'
  · rw [hroom] at hf
    cases hf
  refine ⟨c', rb, hc, hwf', hcont, hm, ?_⟩
  simp only [sendKeyevent, hc]
  rcases hcase with ⟨hnone, herase⟩ | ⟨hcanon, k, hk, hctrl, hcc⟩
  · rw [Option.isNone_iff_eq_none.mp hnone]
    cases hcanon : t.cTerm.icanon with
    | false => simp [inbufWriteElem, he, resume]
    | true =>
      simp only [keypressHandleCanonMode, if_neg (herase hcanon), inbufWriteElem, he, resume, if_true, Bool.true_and]
      split_ifs <;> simp
  · have hdel : t.cTerm.isLineDelimChar c' = true := by
      simp only [List.mem_cons, List.not_mem_nil, or_false] at hk
      rcases hk with rfl | rfl | rfl <;> simp [Termios.isLineDelimChar, hcc]
    have hspecial : t.handleSpecialControls c' block = some
        ({ t with endLineDelimCount := t.endLineDelimCount + 1 }.inbufWriteElem ⟨t.cTerm.cc k.2, .signal⟩ block) := by
      simp only [handleSpecialControls, hctrl, Option.bind_some]
      simp only [List.mem_cons, List.not_mem_nil, or_false] at hk
      rcases hk with rfl | rfl | rfl <;> simp [Tty.ctrl, ctrlDelim, hcanon]
    rw [hspecial, ← hcc]
    simp [inbufWriteElem, he, resume, hcanon, hdel]

end Tty

/-! ## Sessions -/

/-- A terminal and the process: its handle, the read it is in, what the reads returned, the bytes that were typed, and how
many there were when the last read started. -/
structure Session where
  tty : Tty
  handle : TtyHandle
  reader : Option Reader
  answers : List (List UInt8)
  typed : List UInt8
  since : Nat

inductive Act
  | key (c : UInt8) (block : Bool)
  | read (size : Nat)
  /-- a pass of the read, up to the wait for input -/
  | pass

namespace Session

variable (s : Session)

/-- A read goes on or is over. -/
def reads (h : TtyHandle) : ReadStep → Session
  | .answer (.ok bytes) => { s with handle := h, reader := none, answers := s.answers ++ [bytes] }
  | .answer (.error _) => { s with handle := h, reader := none }
  | .again r => { s with handle := h, reader := some r }

def exec : Act → Option Session
  | .key c block =>
    some { s with tty := (s.tty.sendKeyevent c block).1, typed := s.typed ++ (s.tty.inputChar c).toList }
  | .read size =>
    if s.reader.isSome then none
    else match Tty.readBegin true s.handle 0 size with
      | (h, r) => some ({ s with since := s.typed.length }.reads h r)
  | .pass => s.reader.map fun r =>
    match s.tty.readPass s.handle r false with
    | (t, h, st) => { s with tty := t }.reads h st

/-- An empty terminal in canonical mode or in raw mode, and a blocking handle that nothing was read from. -/
structure Start (canon : Bool) : Prop where
  ring : ∃ buf, s.tty.inputRingbuf = Ringbuf.init ttyInputBs buf
  count : s.tty.endLineDelimCount = 0
  mode : s.tty.cTerm.icanon = canon
  blocking : s.handle.nonblock = false
  empty : s.handle.extra.readBufUsed = 0 ∧ s.handle.extra.readPos = 0
  reader : s.reader = none
  answers : s.answers = []
  typed : s.typed = []

/-- The bytes that the read has so far. -/
def out : List UInt8 := (s.reader.map Reader.out).getD []

/-- The bytes in the input buffer. -/
def input : List UInt8 := s.tty.inputRingbuf.contents

/-- What holds of the buffers in both modes. -/
structure Buffers (canon : Bool) : Prop where
  wf : s.tty.inputRingbuf.Wf
  max : s.tty.inputRingbuf.maxElems = ttyInputBs
  mode : s.tty.cTerm.icanon = canon
  blocking : s.handle.nonblock = false
  ok : s.handle.extra.Ok
  rest : s.reader ≠ none → s.handle.extra.rest = []

variable {s} {canon : Bool} {r : Reader}

theorem out_of_none (h : s.reader = none) : s.out = [] := by
  rw [out, h]
  rfl

theorem out_of_some (h : s.reader = some r) : s.out = r.out := by
  rw [out, h]
  rfl

theorem Start.buffers (h : s.Start canon) : s.Buffers canon := by
  obtain ⟨buf, hring⟩ := h.ring
  refine ⟨?_, ?_, h.mode, h.blocking, .inr h.empty, fun hne => absurd h.reader hne⟩
  · rw [hring]
    exact Ringbuf.init_wf (by decide) buf
  · rw [hring]
    rfl

theorem Buffers.input_le (h : s.Buffers canon) : s.input.length ≤ ttyInputBs := by
  rw [input, Ringbuf.length_contents, ← h.max]
  exact h.wf.elems_le

theorem Buffers.read_cases (h : s.Buffers canon) {size : Nat} (hsize : 0 < size) {s' : Session}
    (he : s.exec (.read size) = some s') : s.reader = none ∧
      (s.handle.extra.rest ≠ [] ∧ (∃ eh : HandleExtra, eh.Ok ∧ eh.rest = s.handle.extra.rest.drop size ∧
          s' = { s with handle := { s.handle with extra := eh }, reader := none,
                        answers := s.answers ++ [s.handle.extra.rest.take size], since := s.typed.length }) ∨
        s.handle.extra.rest = [] ∧
          s' = { s with handle := { s.handle with extra := { s.handle.extra with readAllowedToReturn := false } },
                        reader := some ⟨0, size, [], false⟩, since := s.typed.length }) := by
  simp only [exec] at he
  split_ifs at he with hreader
  have hnone : s.reader = none := Option.not_isSome_iff_eq_none.mp hreader
  refine ⟨hnone, ?_⟩
  obtain ⟨htake, hdrop, hok⟩ := HandleExtra.flush_spec h.ok size
  obtain rfl := Option.some.inj he
  by_cases hrest : s.handle.extra.rest = []
  · refine .inr ⟨hrest, ?_⟩
    simp [Tty.readBegin, Nat.ne_of_gt hsize, (h.ok.rest_eq_nil.mp hrest).1, reads]
  · have hused : s.handle.extra.readBufUsed ≠ 0 := fun h0 => hrest (h.ok.rest_eq_nil.mpr
      ⟨h0, by have := h.ok.le; omega⟩)
    refine .inl ⟨hrest, _, hok, hdrop, ?_⟩
    simp [Tty.readBegin, Nat.ne_of_gt hsize, hused, h.blocking, reads, htake]

theorem Buffers.pass_eq (h : s.Buffers canon) (hr : s.reader = some r) (hne : s.input ≠ []) {t : Tty}
    {eh : HandleExtra} {b : Bool} (hread : Tty.readChars s.tty.inputRingbuf.elems s.tty s.handle.extra = (t, eh, b)) :
    s.exec .pass = some
      (if t.shouldReadReturn (eh.flushReadBuf (r.size - r.out.length)).1
          (r.out ++ (eh.flushReadBuf (r.size - r.out.length)).2).length b then
        { s with tty := t, handle := { s.handle with extra := (eh.flushReadBuf (r.size - r.out.length)).1 }, reader := none,
                 answers := s.answers ++ [r.out ++ (eh.flushReadBuf (r.size - r.out.length)).2] }
      else
        { s with tty := t, handle := { s.handle with extra := (eh.flushReadBuf (r.size - r.out.length)).1 },
                 reader := some { r with out := r.out ++ (eh.flushReadBuf (r.size - r.out.length)).2, sleeps := false } }) := by
  have hempty : s.tty.inputRingbuf.isEmpty = false := by
    rw [← Bool.not_eq_true, Ringbuf.isEmpty_iff]
    exact hne
  simp only [exec, hr, Option.map_some, Tty.readPass, hempty, hread, Tty.readEnd, h.blocking, Bool.and_false,
    Bool.false_eq_true, if_false, Bool.not_false, Bool.true_or, if_true]
  split_ifs <;> rfl

theorem pass_empty (hb : s.Buffers canon) (hr : s.reader = some r) (hnil : s.input = []) :
    s.exec .pass = some { s with reader := some { r with sleeps := true } } := by
  have hempty := Ringbuf.isEmpty_iff.mpr hnil
  simp [exec, hr, Tty.readPass, hempty, hb.blocking, reads]

end Session

end Usax.Term
