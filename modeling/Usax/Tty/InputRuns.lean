import Mathlib
import Usax.Tty.Input
import Usax.Lib.Runs

/-!
# The lines of a terminal

A terminal with the writers that wait for space in its input buffer, its readers and its handles takes a step for each key,
each pass of a read and each change of the settings (`Sys.exec`). In canonical mode `end_line_delim_count` should be the
number of delimiters in the input buffer (`Tty.delims`), and the erase key should leave the lines that are complete
(`Tty.completed`) as they are.

That holds of the runs whose steps are `Allowed` (`delim_count_eq`). The steps in which a byte enters the buffer keep it when
the byte is counted iff it should be (`Tty.WriteAllowed`, `Counted.write`). It fails for the erase key after the end of a
line (`erased_delim_counted`), for a delimiter that finds no space, for bytes that no one counts (of the keys with a sequence,
the escape of alt, of the medium raw mode, of a writer that waits across a change of the mode), and for new settings that
leave bytes in the buffer or make other bytes delimiters.
-/

namespace Usax.Term

open Lib

namespace Tty

variable (t : Tty)

def delims : Nat := t.inputRingbuf.contents.countP t.cTerm.isLineDelimChar

def completed : List UInt8 := t.inputRingbuf.contents.rdropWhile fun c => !t.cTerm.isLineDelimChar c

def erases (c : UInt8) (block : Bool) : Bool :=
  t.cTerm.icanon &&
    (t.inputChar c).any fun c => (t.handleSpecialControls c block).isNone && c == t.cTerm.cc .verase

end Tty

/-- A terminal with the calls that are in it. -/
structure Sys where
  tty : Tty
  handles : Nat → TtyHandle
  writers : List Writer
  readers : List Reader

inductive Event
  /-- a key of the keyboard, for the current terminal -/
  | keypress (ke : KeyEvent)
  /-- `tty_send_keyevent` -/
  | send (c : UInt8) (block : Bool)
  /-- a writer that waits for space tries again -/
  | retry (i : Nat)
  | read (handle size : Nat) (fg : Bool)
  /-- a reader takes the next pass of its loop -/
  | pass (i : Nat) (sig : Bool)
  | setNonblock (handle : Nat) (nonblock : Bool)
  /-- `TCSETS` and `TCSETSW` -/
  | tcsets (tm : Option Termios)
  /-- `TCSETSF` -/
  | tcsetsf (tm : Option Termios)
  /-- `tty_set_raw_mode`, as the debug panel does when it starts -/
  | setRawMode
  /-- `tty_reset_termios`, as the debug panel does when it ends, and the exit of a killed process -/
  | resetTermios
  /-- the escape sequence that resets the terminal -/
  | resetTerminal
  /-- `KDSKBMODE` -/
  | setMediumraw (enabled : Bool)

namespace Sys

variable (s : Sys)

def typed : Tty × Option Writer → Sys
  | (t, w) => { s with tty := t, writers := s.writers ++ w.toList }

def reads : TtyHandle → Nat → ReadStep → Sys
  | h, i, .answer _ => { s with handles := Function.update s.handles i h }
  | h, i, .again r => { s with handles := Function.update s.handles i h, readers := s.readers ++ [r] }

def exec : Event → Option Sys
  | .keypress ke => some { s with tty := (s.tty.keypressHandler ke).1 }
  | .send c block => some (s.typed (s.tty.sendKeyevent c block))
  | .retry i => (s.writers[i]?).map fun w => { s with writers := s.writers.eraseIdx i }.typed (s.tty.inbufWriteElem w true)
  | .read i size fg =>
    match Tty.readBegin fg (s.handles i) i size with
    | (h, r) => some (s.reads h i r)
  | .pass i sig => (s.readers[i]?).map fun r =>
    match s.tty.readPass (s.handles r.handle) r sig with
    | (t, h, step) => { s with tty := t, readers := s.readers.eraseIdx i }.reads h r.handle step
  | .setNonblock i nonblock =>
    some { s with handles := Function.update s.handles i { s.handles i with nonblock := nonblock } }
  | .tcsets tm => some { s with tty := (s.tty.ioctlTcsets tm).1 }
  | .tcsetsf tm => some { s with tty := (s.tty.inbufReset.ioctlTcsets tm).1 }
  | .setRawMode => some { s with tty := s.tty.setRawMode }
  | .resetTermios => some { s with tty := s.tty.resetTermios }
  | .resetTerminal => some { s with tty := s.tty.inbufReset.resetTermios }
  | .setMediumraw enabled => some { s with tty := { s.tty with mediumrawMode := enabled } }

def Initial : Prop := (∃ buf, s.tty = Tty.init buf) ∧ s.writers = [] ∧ s.readers = []

end Sys

/-- The key comes to `tty_keypress_handler_int`, out of the medium raw mode. -/
def KeyEvent.isInput (ke : KeyEvent) : Bool := ke.pressed && !ke.scrolls && !(ke.alt && ke.fn)

def Sys.erases (s : Sys) : Event → Bool
  | .keypress ke =>
    !s.tty.mediumrawMode && ke.isInput && ke.printChar != 0 && (s.tty.putAlt ke).erases (Tty.ctrlChar ke) false
  | .send c block => s.tty.erases c block
  | _ => false

/-! ## The condition -/

namespace Tty

variable (t : Tty)

/-- The byte of a writer is no delimiter, or it is counted iff it should be: a writer that counts has space or waits, and a
byte that is written is counted iff the terminal is in canonical mode. -/
def WriteAllowed (w : Writer) (block : Bool) : Prop :=
  t.cTerm.isLineDelimChar w.c = true →
    if t.inputRingbuf.isFull then w.after = .signal ∨ block = true
    else (w.after = .count ↔ t.cTerm.icanon = true)

instance (w : Writer) (block : Bool) : Decidable (t.WriteAllowed w block) := by
  unfold WriteAllowed; infer_instance

/-- The bytes of a sequence are no delimiters, as far as there is space for them. -/
def SeqAllowed : Tty → List UInt8 → Prop
  | _, [] => True
  | t, c :: cs => t.WriteAllowed ⟨c, .signal⟩ false ∧ SeqAllowed (t.inbufPut c) cs

instance SeqAllowed.decidable : ∀ (t : Tty) (cs : List UInt8), Decidable (SeqAllowed t cs)
  | _, [] => .isTrue trivial
  | t, c :: cs =>
    have := SeqAllowed.decidable (t.inbufPut c) cs
    inferInstanceAs (Decidable (_ ∧ _))

/-- In canonical mode the end of file and end of line keys find space, the erase key finds no delimiter at the end of the
buffer, and another delimiter finds space or may wait for it. -/
def KeyAllowed (c : UInt8) (block : Bool) : Prop :=
  t.cTerm.icanon = true → ∀ c' ∈ t.inputChar c,
    if (t.handleSpecialControls c' block).isSome then
      t.ctrlHandlers c' ∈ [some .eof, some .eol, some .eol2] → t.inputRingbuf.isFull = false
    else if c' = t.cTerm.cc .verase then
      ∀ x ∈ t.inputRingbuf.contents.getLast?, t.cTerm.isLineDelimChar x = false
    else t.WriteAllowed ⟨c', .count⟩ block

instance (c : UInt8) (block : Bool) : Decidable (t.KeyAllowed c block) := by
  unfold KeyAllowed; infer_instance

/-- The new settings find as many delimiters in the buffer as the old ones, where only canonical mode has any. -/
def SettingsAllowed (tm : Termios) : Prop :=
  tm.icanon = true →
    t.inputRingbuf.contents.countP tm.isLineDelimChar = if t.cTerm.icanon then t.delims else 0

instance (tm : Termios) : Decidable (t.SettingsAllowed tm) := by
  unfold SettingsAllowed; infer_instance

/-- What a key of the keyboard needs: the bytes that are not counted are no delimiters, and the key itself is allowed. -/
def KeypressAllowed (ke : KeyEvent) : Prop :=
  if t.mediumrawMode then ke.mr ≠ 0 → t.WriteAllowed ⟨ke.mr, .signal⟩ false
  else if ke.isInput then
    if ke.printChar = 0 then ∀ seq ∈ ke.seq, t.SeqAllowed (seqBytes seq)
    else (ke.alt = true → t.WriteAllowed ⟨27, .signal⟩ false) ∧ (t.putAlt ke).KeyAllowed (ctrlChar ke) false
  else True

instance (ke : KeyEvent) : Decidable (t.KeypressAllowed ke) := by
  unfold KeypressAllowed; infer_instance

end Tty

def Allowed (s : Sys) : Event → Prop
  | .keypress ke => s.tty.KeypressAllowed ke
  | .send c block => s.tty.KeyAllowed c block
  | .retry i => ∀ w ∈ s.writers[i]?, s.tty.WriteAllowed w true
  | .tcsets arg => ∀ tm ∈ arg, s.tty.SettingsAllowed tm
  | .setRawMode => s.tty.cTerm.icanon = true → s.tty.delims = 0
  | .resetTermios => s.tty.SettingsAllowed defaultTermios
  | _ => True

instance (s : Sys) (e : Event) : Decidable (Allowed s e) := by
  cases e <;> unfold Allowed <;> infer_instance

/-! ## A step -/

/-- The count is right: in canonical mode it is the number of the delimiters, otherwise it is zero. -/
structure Tty.Counted (t : Tty) : Prop where
  wf : t.inputRingbuf.Wf
  count : t.endLineDelimCount = if t.cTerm.icanon then (t.delims : Int) else 0

namespace Tty

variable {t : Tty} {w : Writer} {c : UInt8} {block : Bool} {rb : Ringbuf}

theorem delims_write (h : rb.contents = t.inputRingbuf.contents ++ [c]) :
    delims { t with inputRingbuf := rb } = t.delims + if t.cTerm.isLineDelimChar c then 1 else 0 := by
  simp only [delims, h, List.countP_append, List.countP_singleton]

theorem completed_write (h : rb.contents = t.inputRingbuf.contents ++ [c]) (hc : t.cTerm.isLineDelimChar c = false) :
    completed { t with inputRingbuf := rb } = t.completed := by
  simp [completed, h, hc]

theorem inbufWriteElem_cases (h : t.inputRingbuf.Wf) (w : Writer) (block : Bool) :
    t.inputRingbuf.isFull = true ∧ t.inbufWriteElem w block = (if block then (t, some w) else (t.resume w, none)) ∨
    t.inputRingbuf.isFull = false ∧ ∃ rb : Ringbuf, rb.Wf ∧ rb.contents = t.inputRingbuf.contents ++ [w.c] ∧
      t.inbufWriteElem w block = ({ t with inputRingbuf := rb }.resume w, none) := by
  unfold inbufWriteElem
  obtain ⟨hf, he⟩ | ⟨hf, rb, he, hwf, hc, -⟩ := Ringbuf.writeElem1_spec h w.c
  · exact .inl ⟨hf, by rw [he]⟩
  · exact .inr ⟨hf, rb, hwf, hc, by rw [he]⟩

theorem Counted.resume_signal (h : t.Counted) (hw : t.cTerm.isLineDelimChar w.c = true → w.after = .signal) :
    (t.resume w).Counted := by
  unfold resume
  split
  · exact h
  · next hcount =>
    split_ifs with hd
    · rw [hw hd] at hcount
      cases hcount
    · exact h

/-- **A byte enters the buffer.** -/
theorem Counted.write (h : t.Counted) (hw : t.WriteAllowed w block) : (t.inbufWriteElem w block).1.Counted := by
  unfold WriteAllowed at hw
  obtain ⟨hf, he⟩ | ⟨hf, rb, hwf, hc, he⟩ := inbufWriteElem_cases h.wf w block
  · rw [he]
    cases block with
    | true => exact h
    | false =>
      refine h.resume_signal fun hd => ?_
      simpa [hf] using hw hd
  · rw [he]
    have hcount := h.count
    have hdelims := delims_write (t := t) hc
    cases hd : t.cTerm.isLineDelimChar w.c with
    | false =>
      refine Counted.resume_signal ⟨hwf, ?_⟩ fun hd' => ?_
      · rw [hdelims]
        simpa [hd] using hcount
      · exact absurd (hd.symm.trans hd') (by decide)
    | true =>
      have hiff := hw hd
      rw [hf] at hiff
      simp only [hd, if_true] at hdelims
      simp only [resume]
      cases ha : w.after with
      | signal =>
        have hraw : t.cTerm.icanon = false := by simpa [ha] using hiff
        exact ⟨hwf, by simpa [hraw] using hcount⟩
      | count =>
        have hcanon : t.cTerm.icanon = true := by simpa [ha] using hiff
        refine ⟨by simpa [hd] using hwf, ?_⟩
        simp only [hcanon, if_true] at hcount
        simp only [hd, hcanon, if_true, hcount]
        rw [show delims { t with inputRingbuf := rb, endLineDelimCount := (t.delims : Int) + 1 } = t.delims + 1 from hdelims]
        push_cast
        rfl

theorem Counted.put (h : t.Counted) (hw : t.WriteAllowed ⟨c, .signal⟩ false) : (t.inbufPut c).Counted := h.write hw

@[simp] theorem inbufPut_cTerm (t : Tty) (c : UInt8) : (t.inbufPut c).cTerm = t.cTerm := by
  unfold inbufPut inbufWriteElem
  cases t.inputRingbuf.writeElem1 c <;> rfl

theorem completed_put (h : t.inputRingbuf.Wf) (hw : t.WriteAllowed ⟨c, .signal⟩ false) (hcanon : t.cTerm.icanon = true) :
    (t.inbufPut c).completed = t.completed := by
  unfold inbufPut
  obtain ⟨-, he⟩ | ⟨hf, rb, -, hc, he⟩ := inbufWriteElem_cases h ⟨c, .signal⟩ false
  · rw [he]
    rfl
  · rw [he]
    refine completed_write hc (Bool.eq_false_iff.mpr fun hd => ?_)
    have hiff := hw hd
    simp [hf, hcanon] at hiff

theorem Counted.puts {cs : List UInt8} (h : t.Counted) (hw : t.SeqAllowed cs) : (cs.foldl inbufPut t).Counted := by
  induction cs generalizing t with
  | nil => exact h
  | cons c cs ih => exact ih (h.put hw.1) hw.2

/-- **The erase key takes back a byte of the line that is not complete.** -/
theorem Counted.drop (h : t.Counted)
    (hlast : ∀ x ∈ t.inputRingbuf.contents.getLast?, t.cTerm.isLineDelimChar x = false) :
    t.inbufDropLastWrittenElem.Counted ∧ t.inbufDropLastWrittenElem.completed = t.completed := by
  unfold inbufDropLastWrittenElem
  obtain ⟨-, he⟩ | ⟨rb, he, hwf, hc, -⟩ := Ringbuf.unwriteElem_spec h.wf
  · rw [he]
    exact ⟨h, rfl⟩
  rw [he]
  have hcount := h.count
  rcases List.eq_nil_or_concat t.inputRingbuf.contents with hnil | ⟨l, x, hl⟩
  · rw [hnil] at hc
    refine ⟨⟨hwf, ?_⟩, ?_⟩
    · simpa [delims, hc, hnil] using hcount
    · simp [completed, hc, hnil]
  · have hx : t.cTerm.isLineDelimChar x = false := hlast x (by simp [hl])
    rw [hl, List.concat_eq_append, List.dropLast_concat] at hc
    refine ⟨⟨hwf, ?_⟩, ?_⟩
    · simpa [delims, hc, hl, hx] using hcount
    · simp [completed, hc, hl, hx]

theorem Counted.inbufReset (h : t.Counted) : t.inbufReset.Counted :=
  ⟨h.wf.reset, (ite_self (0 : Int)).symm⟩

theorem Counted.ctrlDelim {i : Cc} {r : Tty × Option Writer} (h : t.Counted)
    (hi : t.cTerm.isLineDelimChar (t.cTerm.cc i) = true) (hf : t.cTerm.icanon = true → t.inputRingbuf.isFull = false)
    (he : t.ctrlDelim i block = some r) : r.1.Counted := by
  unfold Tty.ctrlDelim at he
  split_ifs at he with hcanon
  obtain rfl := Option.some.inj he
  obtain ⟨hfull, -⟩ | ⟨-, rb, hwf, hc, he⟩ :=
    inbufWriteElem_cases (t := { t with endLineDelimCount := t.endLineDelimCount + 1 }) h.wf ⟨t.cTerm.cc i, .signal⟩ block
  · exact absurd (hfull.symm.trans (hf hcanon)) (by decide)
  · rw [he]
    have hcount := h.count
    have hdelims := delims_write (t := t) hc
    simp only [hcanon, if_true] at hcount
    simp only [hi, if_true] at hdelims
    refine ⟨hwf, ?_⟩
    simp only [resume, hcanon, if_true, hcount]
    rw [show delims { t with inputRingbuf := rb, endLineDelimCount := (t.delims : Int) + 1 } = t.delims + 1 from hdelims]
    push_cast
    rfl

theorem isLineDelimChar_veof (tm : Termios) : tm.isLineDelimChar (tm.cc .veof) = true := by
  simp [Termios.isLineDelimChar]

theorem isLineDelimChar_veol (tm : Termios) : tm.isLineDelimChar (tm.cc .veol) = true := by
  simp [Termios.isLineDelimChar]

theorem isLineDelimChar_veol2 (tm : Termios) : tm.isLineDelimChar (tm.cc .veol2) = true := by
  simp [Termios.isLineDelimChar]

theorem Counted.ctrl {k : Ctrl} {r : Tty × Option Writer} (h : t.Counted)
    (hf : t.cTerm.icanon = true → k ∈ [.eof, .eol, .eol2] → t.inputRingbuf.isFull = false)
    (he : t.ctrl k block = some r) : r.1.Counted := by
  cases k with
  | eof => exact h.ctrlDelim (isLineDelimChar_veof _) (fun hc => hf hc (by simp)) he
  | eol => exact h.ctrlDelim (isLineDelimChar_veol _) (fun hc => hf hc (by simp)) he
  | eol2 => exact h.ctrlDelim (isLineDelimChar_veol2 _) (fun hc => hf hc (by simp)) he
  | intr | quit =>
    simp only [Tty.ctrl] at he
    split_ifs at he
    obtain rfl := Option.some.inj he
    exact h.inbufReset
  | discard => cases he
  | stop | start | susp | reprint | lnext =>
    simp only [Tty.ctrl] at he
    split_ifs at he
    obtain rfl := Option.some.inj he
    exact h

/-- **A key.** -/
theorem Counted.send (h : t.Counted) (hk : t.KeyAllowed c block) : (t.sendKeyevent c block).1.Counted := by
  unfold sendKeyevent
  cases hc : t.inputChar c with
  | none => exact h
  | some c' =>
    dsimp only
    have hk' := fun hcanon => hk hcanon c' hc
    cases hr : t.handleSpecialControls c' block with
    | some r =>
      obtain ⟨k, hkk, he⟩ := Option.bind_eq_some_iff.mp hr
      refine h.ctrl (fun hcanon hmem => ?_) he
      have hfull := hk' hcanon
      rw [hr, Option.isSome_some, if_pos rfl, hkk] at hfull
      exact hfull (by simpa using hmem)
    | none =>
      simp only [hr, Option.isSome_none, Bool.false_eq_true, if_false] at hk'
      dsimp only
      split_ifs with hcanon
      · unfold keypressHandleCanonMode
        have hk' := hk' hcanon
        split_ifs at hk' ⊢ with herase
        · exact (h.drop hk').1
        · exact h.write hk'
      · refine h.write fun _ => ?_
        split_ifs <;> simp [hcanon]

theorem Counted.send_completed (h : t.Counted) (hk : t.KeyAllowed c block) (he : t.erases c block = true) :
    (t.sendKeyevent c block).1.completed = t.completed := by
  unfold erases at he
  rw [Bool.and_eq_true, Option.any_eq_true] at he
  obtain ⟨hcanon, c', hc, he⟩ := he
  rw [Bool.and_eq_true, Option.isNone_iff_eq_none, beq_iff_eq] at he
  obtain ⟨hr, herase⟩ := he
  have hk' := hk hcanon c' hc
  rw [hr, Option.isSome_none, if_neg (by decide), if_pos herase] at hk'
  unfold sendKeyevent
  simp only [hc, hr, hcanon, if_true, keypressHandleCanonMode, if_pos herase]
  exact (h.drop hk').2

theorem Counted.putAlt {ke : KeyEvent} (h : t.Counted) (hw : ke.alt = true → t.WriteAllowed ⟨27, .signal⟩ false) :
    (t.putAlt ke).Counted := by
  unfold Tty.putAlt
  split_ifs with ha
  · exact h.put (hw ha)
  · exact h

theorem keypressHandler_eq (t : Tty) (ke : KeyEvent) : (t.keypressHandler ke).1 =
    if t.mediumrawMode then if ke.mr = 0 then t else t.inbufPut ke.mr
    else if ke.isInput then (t.keypressHandlerInt ke).1 else t := by
  unfold keypressHandler KeyEvent.isInput
  split
  · split <;> rfl
  · cases ke.pressed <;> cases ke.scrolls <;> cases ke.alt && ke.fn <;> rfl

/-- **A key of the keyboard.** -/
theorem Counted.keypress {ke : KeyEvent} (h : t.Counted) (hk : t.KeypressAllowed ke) : (t.keypressHandler ke).1.Counted := by
  unfold KeypressAllowed at hk
  rw [keypressHandler_eq]
  split_ifs at hk ⊢ with hmr hzero hin hchar
  · exact h
  · exact h.put (hk hzero)
  · unfold keypressHandlerInt handleNonPrintableKey
    rw [if_pos hchar]
    cases hseq : ke.seq with
    | none => exact h
    | some seq => exact h.puts (hk seq hseq)
  · unfold keypressHandlerInt
    rw [if_neg hchar]
    exact (h.putAlt hk.1).send hk.2
  · exact h

theorem Counted.keypress_completed {ke : KeyEvent} (h : t.Counted) (hk : t.KeypressAllowed ke)
    (hmr : t.mediumrawMode = false) (hin : ke.isInput = true) (hchar : ke.printChar ≠ 0)
    (he : (t.putAlt ke).erases (ctrlChar ke) false = true) : (t.keypressHandler ke).1.completed = t.completed := by
  unfold KeypressAllowed at hk
  rw [if_neg (by simp [hmr]), if_pos hin, if_neg hchar] at hk
  rw [keypressHandler_eq, if_neg (by simp [hmr]), if_pos hin]
  unfold keypressHandlerInt
  rw [if_neg hchar]
  refine ((h.putAlt hk.1).send_completed hk.2 he).trans ?_
  have hcanon : (t.putAlt ke).cTerm.icanon = true := by
    unfold erases at he
    rw [Bool.and_eq_true] at he
    exact he.1
  unfold Tty.putAlt at hcanon ⊢
  split_ifs at hcanon ⊢ with ha
  · exact completed_put h.wf (hk.1 ha) (by simpa using hcanon)
  · rfl

/-! ## Reads and settings -/

theorem Counted.takeChar {eh : HandleExtra} (h : t.Counted) (hwf : rb.Wf) (hc : t.inputRingbuf.contents = c :: rb.contents) :
    (Tty.takeChar { t with inputRingbuf := rb } eh c).1.Counted := by
  have hcount := h.count
  unfold Tty.takeChar
  cases hcanon : t.cTerm.icanon with
  | false =>
    simp only [hcanon, Bool.false_eq_true, if_false] at hcount ⊢
    exact ⟨hwf, by simpa [hcanon] using hcount⟩
  | true =>
    simp only [hcanon, if_true, delims, hc] at hcount ⊢
    split
    · next hd =>
      refine ⟨hwf, ?_⟩
      rw [List.countP_cons_of_pos hd] at hcount
      simp only [hcanon, if_true, delims, hcount]
      push_cast
      omega
    · next hd =>
      refine ⟨hwf, ?_⟩
      rw [List.countP_cons_of_neg hd] at hcount
      simpa [hcanon, delims] using hcount

/-- **The loop of a read.** -/
theorem Counted.readChars : ∀ {n : Nat} {t : Tty} {eh : HandleExtra}, t.Counted → (Tty.readChars n t eh).1.Counted
  | 0, _, _, h => h
  | n + 1, t, eh, h => by
    unfold Tty.readChars
    obtain ⟨-, he⟩ | ⟨rb, c, he, hwf, hc, -⟩ := Ringbuf.readElem1_spec h.wf
    · rw [he]
      exact h
    · rw [he]
      dsimp only
      have htake : (Tty.takeChar { t with inputRingbuf := rb } eh c).1.Counted := h.takeChar hwf hc
      split_ifs
      · exact Counted.readChars htake
      · exact htake
      · exact h

theorem Counted.readPass {hd : TtyHandle} {r : Reader} {sig : Bool} (h : t.Counted) : (t.readPass hd r sig).1.Counted := by
  unfold Tty.readPass
  split_ifs
  · exact h
  · exact h
  · exact h
  · exact h.readChars

theorem counted_setCtrlHandler {i : Cc} {k : Ctrl} : (t.setCtrlHandler i k).Counted ↔ t.Counted := by
  unfold setCtrlHandler
  dsimp only
  split_ifs
  · rfl
  · exact ⟨fun h => ⟨h.wf, h.count⟩, fun h => ⟨h.wf, h.count⟩⟩

theorem counted_updateCtrlHandlers : t.updateCtrlHandlers.Counted ↔ t.Counted := by
  simp only [updateCtrlHandlers, counted_setCtrlHandler]
  exact ⟨fun h => ⟨h.wf, h.count⟩, fun h => ⟨h.wf, h.count⟩⟩

/-- **New settings.** -/
theorem Counted.ioctlTcsets {arg : Option Termios} (h : t.Counted) (ha : ∀ tm ∈ arg, t.SettingsAllowed tm) :
    (t.ioctlTcsets arg).1.Counted := by
  cases arg with
  | none => exact h
  | some tm =>
    simp only [Tty.ioctlTcsets, counted_updateCtrlHandlers]
    refine ⟨h.wf, ?_⟩
    have hs := ha tm rfl
    have hcount := h.count
    unfold SettingsAllowed at hs
    simp only [delims] at hs hcount ⊢
    cases htm : tm.icanon with
    | false =>
      cases ht : t.cTerm.icanon with
      | false => simpa [ht] using hcount
      | true => simp
    | true =>
      rw [hs htm]
      cases ht : t.cTerm.icanon with
      | false => simp
      | true => simpa [ht] using hcount

theorem Counted.inbufReset_ioctlTcsets {arg : Option Termios} (h : t.Counted) :
    (t.inbufReset.ioctlTcsets arg).1.Counted := by
  refine h.inbufReset.ioctlTcsets fun tm _ _ => ?_
  exact (ite_self (0 : Nat)).symm

theorem Counted.resetTermios (h : t.Counted) (hs : t.SettingsAllowed defaultTermios) : t.resetTermios.Counted := by
  have hcount := h.count
  have hdelims := hs rfl
  refine ⟨h.wf, ?_⟩
  show t.endLineDelimCount = (t.inputRingbuf.contents.countP defaultTermios.isLineDelimChar : Int)
  rw [hcount, hdelims]
  split_ifs <;> rfl

theorem Counted.setRawMode (h : t.Counted) (hs : t.cTerm.icanon = true → t.delims = 0) : t.setRawMode.Counted := by
  refine ⟨h.wf, ?_⟩
  show t.endLineDelimCount = 0
  rw [h.count]
  split_ifs with hcanon
  · exact congrArg Nat.cast (hs hcanon)
  · rfl

theorem counted_init (buf : Nat → UInt8) : (Tty.init buf).Counted :=
  counted_updateCtrlHandlers.mpr ⟨Ringbuf.init_wf (by decide) buf, rfl⟩

end Tty

/-! ## Runs -/

namespace Sys

variable {s s' : Sys} {e : Event}

theorem reads_tty (s : Sys) (h : TtyHandle) (i : Nat) (r : ReadStep) : (s.reads h i r).tty = s.tty := by
  cases r <;> rfl

/-- **A step keeps the count.** -/
theorem counted_exec (h : s.tty.Counted) (ha : Allowed s e) (he : s.exec e = some s') : s'.tty.Counted := by
  cases e with
  | keypress ke =>
    obtain rfl := Option.some.inj he
    exact h.keypress ha
  | send c block =>
    obtain rfl := Option.some.inj he
    exact h.send ha
  | retry i =>
    obtain ⟨w, hw, rfl⟩ := Option.map_eq_some_iff.mp he
    exact h.write (ha w hw)
  | read i size fg =>
    obtain rfl := Option.some.inj he
    exact (reads_tty ..).symm ▸ h
  | pass i sig =>
    obtain ⟨r, hr, rfl⟩ := Option.map_eq_some_iff.mp he
    exact (reads_tty ..).symm ▸ h.readPass
  | setNonblock i nonblock =>
    obtain rfl := Option.some.inj he
    exact h
  | tcsets arg =>
    obtain rfl := Option.some.inj he
    exact h.ioctlTcsets ha
  | tcsetsf arg =>
    obtain rfl := Option.some.inj he
    exact h.inbufReset_ioctlTcsets
  | setRawMode =>
    obtain rfl := Option.some.inj he
    exact h.setRawMode ha
  | resetTermios =>
    obtain rfl := Option.some.inj he
    exact h.resetTermios ha
  | resetTerminal =>
    obtain rfl := Option.some.inj he
    exact h.inbufReset.resetTermios fun _ => (ite_self (0 : Nat)).symm
  | setMediumraw enabled =>
    obtain rfl := Option.some.inj he
    exact ⟨h.wf, h.count⟩

theorem completed_exec (h : s.tty.Counted) (ha : Allowed s e) (he : s.exec e = some s') (hk : s.erases e = true) :
    s'.tty.completed = s.tty.completed := by
  cases e with
  | keypress ke =>
    obtain rfl := Option.some.inj he
    simp only [Sys.erases, Bool.and_eq_true, Bool.not_eq_true', bne_iff_ne] at hk
    obtain ⟨⟨⟨hmr, hin⟩, hchar⟩, hk⟩ := hk
    exact h.keypress_completed ha hmr hin hchar hk
  | send c block =>
    obtain rfl := Option.some.inj he
    exact h.send_completed ha hk
  | _ => cases hk

theorem counted_reached (h : Reached Initial exec Allowed s) : s.tty.Counted := by
  refine h.invariant ?_ fun s l s' h ha he => counted_exec h ha he
  rintro s ⟨⟨buf, hs⟩, -⟩
  rw [hs]
  exact Tty.counted_init buf

end Sys

/-- **The count of the delimiters.** In the runs whose steps are allowed, `end_line_delim_count` is the number of delimiters
in the input buffer whenever the terminal is in canonical mode, and the erase key leaves the complete lines as they are. -/
theorem delim_count_eq {s : Sys} (h : Reached Sys.Initial Sys.exec Allowed s) :
    (s.tty.cTerm.icanon = true → s.tty.endLineDelimCount = s.tty.delims) ∧
    ∀ e s', Allowed s e → s.exec e = some s' → s.erases e = true → s'.tty.completed = s.tty.completed := by
  have hcounted := Sys.counted_reached h
  refine ⟨fun hcanon => ?_, fun e s' ha he hk => Sys.completed_exec hcounted ha he hk⟩
  rw [hcounted.count, if_pos hcanon]

def Sys.sample : Sys where
  tty := Tty.init fun _ => 0
  handles := fun _ => ⟨⟨0, 0, fun _ => 0, false⟩, false⟩
  writers := []
  readers := []

/-- A line, the beginning of the next one with the erase key, and a read. -/
def Sys.sampleRun : List Event :=
  [.send 97 true, .send 13 true, .send 98 true, .send 127 true, .read 0 64 true, .pass 0 false, .send 99 false]

theorem delim_count_eq_sample : ∃ s, execs Sys.exec Sys.sample Sys.sampleRun = some s ∧
    (s.tty.cTerm.icanon = true → s.tty.endLineDelimCount = s.tty.delims) ∧
    ∀ e s', Allowed s e → s.exec e = some s' → s.erases e = true → s'.tty.completed = s.tty.completed := by
  have hsome : (execs Sys.exec Sys.sample Sys.sampleRun).isSome = true := by decide +kernel
  obtain ⟨s, hs⟩ := Option.isSome_iff_exists.mp hsome
  have hstart : Reached Sys.Initial Sys.exec Allowed Sys.sample := .start ⟨⟨fun _ => 0, rfl⟩, rfl, rfl⟩
  exact ⟨s, hs, delim_count_eq (hstart.execs (by decide +kernel) hs)⟩

/-- The erase key takes back the end of a complete line, which stays counted. -/
theorem erased_delim_counted :
    (∃ s, execs Sys.exec Sys.sample [.send 97 true, .send 10 true] = some s ∧ s.erases (.send 127 true) = true ∧
      s.tty.completed = [97, 10]) ∧
    ∃ s, execs Sys.exec Sys.sample [.send 97 true, .send 10 true, .send 127 true] = some s ∧ s.tty.cTerm.icanon = true ∧
      s.tty.endLineDelimCount = 1 ∧ s.tty.delims = 0 ∧ s.tty.completed = [] :=
  ⟨⟨_, rfl, by decide⟩, _, rfl, by decide⟩

end Usax.Term
