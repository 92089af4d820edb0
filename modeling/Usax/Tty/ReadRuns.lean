import Usax.Tty.Reads

/-!
# Runs of blocking reads

The bytes that were typed are those of the reads so far, those of the read that goes on, those in the read buffer and those in
the input buffer, in this order. In canonical mode the reads cut the bytes into parts of lines (`Session.Lines`): the ends of
files are in the cut, though no read returns them.
-/

namespace Usax.Term

open Lib (Reached execs)

namespace Session

variable {s s' : Session} {r : Reader}

/-! ## Canonical mode -/

/-- A key is for a byte of the input, and the input buffer has room for it. A pass that finds no end of a line finds room for
the bytes in the buffer of the caller. -/
def CanonAllowed (s : Session) : Act → Prop
  | .key c block => s.tty.Types c block ∧ s.tty.inputRingbuf.isFull = false
  | .read size => 0 < size
  | .pass => ∀ r ∈ s.reader, s.tty.cTerm.NoDelim s.input → s.input.length ≤ r.size - r.out.length

instance (a : Act) : Decidable (s.CanonAllowed a) := by
  cases a <;> unfold CanonAllowed <;> infer_instance

/-- The typed bytes are cut into the parts that the reads returned, the part of the read that goes on, the rest of a line in the
read buffer, and the input buffer. -/
structure Lines (s : Session) : Prop extends Buffers s true where
  count : s.tty.endLineDelimCount = (s.input.countP s.tty.cTerm.isLineDelimChar : Int)
  out : s.tty.cTerm.NoDelim s.out
  data : ∃ (segs : List (List UInt8)) (tail : List UInt8), s.typed = segs.flatten ++ s.out ++ tail ++ s.input ∧
    s.answers = segs.map s.tty.cTerm.strip ∧ (∀ seg ∈ segs, s.tty.cTerm.OneLine seg) ∧
    s.tty.cTerm.strip tail = s.handle.extra.rest ∧ s.tty.cTerm.OneLine tail ∧ (s.handle.extra.rest = [] → tail = [])

theorem Start.lines (h : s.Start true) : s.Lines := by
  obtain ⟨buf, hring⟩ := h.ring
  have hinput : s.input = [] := by
    rw [input, hring]
    rfl
  have hout := out_of_none h.reader
  have hrest : s.handle.extra.rest = [] := h.buffers.ok.rest_eq_nil.mpr h.empty
  refine { h.buffers with count := ?_, out := ?_, data := ⟨[], [], ?_, ?_, List.forall_mem_nil _, ?_, ?_, fun _ => rfl⟩ }
  · rw [h.count, hinput]
    rfl
  · rw [hout]
    exact Termios.noDelim_nil
  · simp [h.typed, hout, hinput]
  · exact h.answers
  · exact hrest.symm
  · exact Termios.noDelim_nil

theorem Lines.key {c : UInt8} {block : Bool} (h : s.Lines) (ht : s.tty.Types c block)
    (hroom : s.tty.inputRingbuf.isFull = false) (he : s.exec (.key c block) = some s') : s'.Lines := by
  obtain ⟨c', rb, hc, hwf, hcont, hm, hsend⟩ := ht.spec h.wf hroom
  obtain ⟨segs, tail, htyped, hans, hone, hstrip, htail, hnil⟩ := h.data
  simp only [exec, hsend, hc] at he
  obtain rfl := Option.some.inj he
  refine ⟨⟨hwf, hm.trans h.max, h.mode, h.blocking, h.ok, h.rest⟩, ?_, h.out, segs, tail, ?_, hans, hone, hstrip, htail, hnil⟩
  · have hcount := h.count
    simp only [input] at hcount ⊢
    rw [hcont, List.countP_append, List.countP_singleton, hcount, h.mode, Bool.true_and]
    split_ifs <;> simp
  · simp only [input] at htyped ⊢
    rw [htyped, hcont]
    simp [Session.out]

theorem Lines.read {size : Nat} (h : s.Lines) (hsize : 0 < size) (he : s.exec (.read size) = some s') : s'.Lines := by
  obtain ⟨segs, tail, htyped, hans, hone, hstrip, htail, hnil⟩ := h.data
  obtain ⟨hnone, ⟨-, eh, hok, hrest, rfl⟩ | ⟨hrest, rfl⟩⟩ := h.read_cases hsize he
  all_goals
    have hout := out_of_none hnone
  · obtain ⟨a, b, hab, ha, hb, hla, hlb, hbnil⟩ := htail.split size
    rw [hstrip] at ha hb hbnil
    refine ⟨⟨h.wf, h.max, h.mode, h.blocking, hok, fun hne => absurd rfl hne⟩, h.count, Termios.noDelim_nil,
      segs ++ [a], b, ?_, ?_, List.forall_mem_append.mpr ⟨hone, List.forall_mem_singleton.mpr hla⟩, ?_, hlb, ?_⟩
    · rw [hout, hab] at htyped
      show s.typed = _
      rw [htyped]
      simp [Session.out, input]
    · show s.answers ++ [_] = List.map s.tty.cTerm.strip _
      rw [hans, List.map_append, List.map_singleton, ha]
    · exact hb.trans hrest.symm
    · intro h0
      exact hbnil (hrest ▸ h0)
  · refine ⟨⟨h.wf, h.max, h.mode, h.blocking, h.ok, fun _ => hrest⟩, h.count, Termios.noDelim_nil, segs, tail, ?_, hans, hone,
      hstrip, htail, hnil⟩
    rw [hout] at htyped
    exact htyped

/-- **A pass** keeps the lines. It returns when there is the end of a line in the input buffer. -/
theorem Lines.pass (h : s.Lines) (hr : s.reader = some r)
    (hroom : s.tty.cTerm.NoDelim s.input → s.input.length ≤ r.size - r.out.length) :
    ∃ s', s.exec .pass = some s' ∧ s'.Lines ∧
      (¬ s.tty.cTerm.NoDelim s.input → s'.reader = none ∧ ∃ bytes, s'.answers = s.answers ++ [bytes]) := by
  obtain ⟨segs, tail, htyped, hans, hone, hstrip, htail, hnil⟩ := h.data
  have hsome : s.reader ≠ none := fun hn => by simp [hn] at hr
  have hrest := h.rest hsome
  obtain rfl := hnil hrest
  have hout := out_of_some hr
  have hno := h.out
  rw [hout] at htyped hno
  by_cases hempty : s.input = []
  · refine ⟨_, pass_empty h.toBuffers hr hempty, ⟨⟨h.wf, h.max, h.mode, h.blocking, h.ok, fun _ => hrest⟩, h.count, hno, segs, [],
      htyped, hans, hone, hstrip, htail, hnil⟩, fun hd => absurd ?_ hd⟩
    rw [hempty]
    exact Termios.noDelim_nil
  have hzero := h.ok.rest_eq_nil.mp hrest
  have hle := h.input_le
  obtain ⟨t, eh, b, pre, hread, htaken, hcase⟩ := Tty.readChars_canon s.tty.inputRingbuf.elems h.wf h.mode
    (Nat.le_of_eq Ringbuf.length_contents) h.ok.le (by
      rw [hzero.1, Nat.zero_add]
      exact Nat.le_trans hle (by decide))
  have hcont : s.input = pre ++ t.inputRingbuf.contents := htaken.contents
  obtain ⟨htake, hdrop, hok'⟩ := htaken.flush hzero (r.size - r.out.length)
  have hcTerm := htaken.cTerm
  have hcanon : t.cTerm.icanon = true := hcTerm ▸ h.mode
  have hwf := htaken.wf
  have hmax := htaken.max.trans h.max
  have hcount := h.count
  rw [hcont, List.countP_append] at hcount
  rw [h.toBuffers.pass_eq hr hempty hread]
  rcases hcase with ⟨rfl, hend, hpre, hdel⟩ | ⟨rfl, p, c, rfl, hp, hc, hdel⟩
  · -- all bytes were taken, and they fit
    rw [hend, List.append_nil] at hcont
    have hfit := hroom (hcont ▸ hpre)
    rw [hpre.countP, hend] at hcount
    rw [Termios.strip_eq_self hpre, List.take_of_length_le (hcont ▸ hfit)] at htake
    rw [Termios.strip_eq_self hpre, List.drop_eq_nil_of_le (hcont ▸ hfit)] at hdrop
    have hgo : ∀ eh' n, t.shouldReadReturn eh' n false = false := fun eh' n => by
      simp [Tty.shouldReadReturn, hcanon, hdel, hcount]
    rw [hgo, htake]
    refine ⟨_, rfl, ⟨⟨hwf, hmax, hcanon, h.blocking, hok', fun _ => hdrop⟩, ?_, ?_, segs, [], ?_, ?_, ?_, ?_, ?_, fun _ => rfl⟩,
      fun hd => absurd (hcont ▸ hpre) hd⟩
    · show t.endLineDelimCount = ((t.inputRingbuf.contents.countP t.cTerm.isLineDelimChar : Nat) : Int)
      rw [hdel, hcount, hend]
      simp
    · show t.cTerm.NoDelim (r.out ++ pre)
      rw [hcTerm]
      exact hno.append hpre
    · show s.typed = segs.flatten ++ (r.out ++ pre) ++ [] ++ t.inputRingbuf.contents
      rw [htyped, hcont, hend]
      simp
    · show s.answers = segs.map t.cTerm.strip
      rw [hcTerm]
      exact hans
    · show ∀ seg ∈ segs, t.cTerm.OneLine seg
      rw [hcTerm]
      exact hone
    · exact hdrop.symm
    · exact Termios.noDelim_nil
  · -- the end of the line is there
    have hline : s.tty.cTerm.OneLine (p ++ [c]) := hp.append_oneLine Termios.noDelim_nil
    obtain ⟨a, b, hab, ha, hb, hla, hlb, hbnil⟩ := hline.split (r.size - r.out.length)
    have hret : ∀ eh' n, t.shouldReadReturn eh' n true = true := fun eh' n => by
      simp [Tty.shouldReadReturn, hcanon]
    rw [hret, htake]
    refine ⟨_, rfl, ⟨⟨hwf, hmax, hcanon, h.blocking, hok', fun hne => absurd rfl hne⟩, ?_, Termios.noDelim_nil,
      segs ++ [r.out ++ a], b, ?_, ?_, ?_, ?_, ?_, ?_⟩, fun _ => ⟨rfl, _, rfl⟩⟩
    · rw [List.countP_append, hp.countP, List.countP_singleton, if_pos hc] at hcount
      show t.endLineDelimCount = ((t.inputRingbuf.contents.countP t.cTerm.isLineDelimChar : Nat) : Int)
      rw [hdel, hcount, hcTerm]
      push_cast
      omega
    · show s.typed = (segs ++ [r.out ++ a]).flatten ++ [] ++ b ++ t.inputRingbuf.contents
      rw [htyped, hcont, hab]
      simp
    · show s.answers ++ [_] = (segs ++ [r.out ++ a]).map t.cTerm.strip
      rw [hcTerm, hans, List.map_append, List.map_singleton, ← ha, Termios.strip_append, Termios.strip_eq_self hno]
    · show ∀ seg ∈ segs ++ [r.out ++ a], t.cTerm.OneLine seg
      rw [hcTerm]
      exact List.forall_mem_append.mpr ⟨hone, List.forall_mem_singleton.mpr (hno.append_oneLine hla)⟩
    · show t.cTerm.strip b = _
      rw [hcTerm, hb]
      exact hdrop.symm
    · show t.cTerm.OneLine b
      rw [hcTerm]
      exact hlb
    · intro h0
      exact hbnil (hdrop ▸ h0)

/-- **A step in canonical mode.** -/
theorem Lines.exec {a : Act} (h : s.Lines) (ha : s.CanonAllowed a) (he : s.exec a = some s') : s'.Lines := by
  cases a with
  | key c block => exact h.key ha.1 ha.2 he
  | read size => exact h.read ha he
  | pass =>
    cases hr : s.reader with
    | none => simp [Session.exec, hr] at he
    | some r =>
      obtain ⟨s'', he', hl, -⟩ := h.pass hr (ha r hr)
      exact Option.some.inj (he'.symm.trans he) ▸ hl

theorem lines_reached (h : Reached (Start · true) exec CanonAllowed s) : s.Lines :=
  h.invariant (fun _ h => h.lines) fun _ _ _ h ha he => h.exec ha he

end Session

open Session

/-- **Canonical reads.** The typed bytes are cut into the parts that the reads returned, without the ends of files, and what no
read has returned; no part goes over the end of a line. A read that goes on has an empty read buffer, and returns with the next
pass when there is the end of a line. -/
theorem canonical_reads {s : Session} (h : Reached (Start · true) Session.exec CanonAllowed s) :
    (∃ (segs : List (List UInt8)) (tail : List UInt8), s.typed = segs.flatten ++ s.out ++ tail ++ s.input ∧
      s.answers = segs.map s.tty.cTerm.strip ∧ s.tty.cTerm.strip tail = s.handle.extra.rest ∧
      ∀ seg ∈ segs, s.tty.cTerm.OneLine seg) ∧
    s.answers.flatten ++ s.out ++ s.handle.extra.rest ++ s.tty.cTerm.strip s.input = s.tty.cTerm.strip s.typed ∧
    ∀ r, s.reader = some r → (s.handle.extra.readBufUsed = 0 ∧ s.handle.extra.readPos = 0) ∧
      ((∃ c ∈ s.input, s.tty.cTerm.isLineDelimChar c = true) →
        ∃ s', s.exec .pass = some s' ∧ s'.reader = none ∧ ∃ bytes, s'.answers = s.answers ++ [bytes]) := by
  have hl := lines_reached h
  obtain ⟨segs, tail, htyped, hans, hone, hstrip, -, -⟩ := hl.data
  refine ⟨⟨segs, tail, htyped, hans, hstrip, hone⟩, ?_, fun r hr => ⟨?_, fun ⟨c, hc, hd⟩ => ?_⟩⟩
  · rw [htyped, hans, Termios.strip_append, Termios.strip_append, Termios.strip_append, hstrip,
      Termios.strip_eq_self hl.out]
    simp only [Termios.strip, List.filter_flatten]
    rfl
  · exact hl.ok.rest_eq_nil.mp (hl.rest fun hn => by simp [hn] at hr)
  · have hnot : ¬ s.tty.cTerm.NoDelim s.input := fun hno => by simp [hno c hc] at hd
    obtain ⟨s', he, -, hret⟩ := hl.pass hr fun hno => absurd hno hnot
    exact ⟨s', he, hret hnot⟩

def Session.sample (tm : Termios) : Session where
  tty := { Tty.init (fun _ => 0) with cTerm := tm }
  handle := ⟨⟨0, 0, fun _ => 0, false⟩, false⟩
  reader := none
  answers := []
  typed := []
  since := 0

theorem Session.sample_start (tm : Termios) : (sample tm).Start tm.icanon :=
  ⟨⟨fun _ => 0, rfl⟩, rfl, rfl, rfl, ⟨rfl, rfl⟩, rfl, rfl, rfl⟩

/-- A read that starts while the line is typed, and one for the rest of it. -/
def Session.sampleRun : List Act :=
  [.key 97 true, .read 2, .pass, .key 98 true, .key 13 true, .pass, .read 2, .key 99 true]

theorem canonical_reads_sample : ∃ s, execs Session.exec (sample defaultTermios) sampleRun = some s ∧
    s.answers = [[97, 98], [10]] ∧
    s.answers.flatten ++ s.out ++ s.handle.extra.rest ++ s.tty.cTerm.strip s.input = s.tty.cTerm.strip s.typed := by
  have hsome : (execs Session.exec (sample defaultTermios) sampleRun).map Session.answers = some [[97, 98], [10]] := by
    decide
  obtain ⟨s, hs, hans⟩ := Option.map_eq_some_iff.mp hsome
  have hstart : Reached (Start · true) Session.exec CanonAllowed (sample defaultTermios) :=
    .start (sample_start defaultTermios)
  exact ⟨s, hs, hans, (canonical_reads (hstart.execs (by decide +kernel) hs)).2.1⟩

/-- Two bytes are typed before a read of one: the second one is left in the read buffer when the read waits for the rest of the
line, and is there at the start of the next pass. -/
theorem partial_line_left :
    execs Session.exec (sample defaultTermios) [.key 97 true, .key 98 true, .read 1, .pass, .key 10 true] |>.any
      (fun s => s.reader.isSome && s.out = [97] && s.handle.extra.readBufUsed = 2 && s.handle.extra.rest = [98] &&
        s.input = [10]) := by
  decide

/-! ## Raw mode -/

namespace Session

variable {s s' : Session} {r : Reader}

def vmin (s : Session) : Nat := (s.tty.cTerm.cc .vmin).toNat

/-- A key is for a byte of the input, and the input buffer has room for it. A read is for `VMIN` bytes or more. -/
def RawAllowed (s : Session) : Act → Prop
  | .key c block => s.tty.Types c block ∧ s.tty.inputRingbuf.isFull = false
  | .read size => 0 < size ∧ s.vmin ≤ size
  | .pass => True

instance (a : Act) : Decidable (s.RawAllowed a) := by
  cases a <;> unfold RawAllowed <;> infer_instance

/-- No byte is lost, and a read that goes on has less than `VMIN` bytes. -/
structure Raw (s : Session) : Prop extends Buffers s false where
  pos : 1 ≤ s.vmin
  data : s.typed = s.answers.flatten ++ s.out ++ s.handle.extra.rest ++ s.input
  reader : ∀ r, s.reader = some r → r.out.length < s.vmin ∧ s.vmin ≤ r.size ∧ s.answers.flatten.length ≤ s.since

theorem Start.raw (h : s.Start false) (hv : 1 ≤ s.vmin) : s.Raw := by
  obtain ⟨buf, hring⟩ := h.ring
  refine { h.buffers with pos := hv, data := ?_, reader := fun r hr => ?_ }
  · rw [h.typed, h.answers, Session.out, h.reader, h.buffers.ok.rest_eq_nil.mpr h.empty, input, hring]
    rfl
  · rw [h.reader] at hr
    cases hr

theorem Raw.key {c : UInt8} {block : Bool} (h : s.Raw) (ht : s.tty.Types c block)
    (hroom : s.tty.inputRingbuf.isFull = false) (he : s.exec (.key c block) = some s') : s'.Raw := by
  obtain ⟨c', rb, hc, hwf, hcont, hm, hsend⟩ := ht.spec h.wf hroom
  simp only [exec, hsend, hc] at he
  obtain rfl := Option.some.inj he
  refine ⟨⟨hwf, hm.trans h.max, h.mode, h.blocking, h.ok, h.rest⟩, h.pos, ?_, h.reader⟩
  have hdata := h.data
  simp only [input] at hdata ⊢
  rw [hdata, hcont]
  simp [Session.out]

theorem Raw.read {size : Nat} (h : s.Raw) (hsize : 0 < size) (hv : s.vmin ≤ size) (he : s.exec (.read size) = some s') :
    s'.Raw := by
  have hdata := h.data
  obtain ⟨hnone, ⟨-, eh, hok, hrest, rfl⟩ | ⟨hrest, rfl⟩⟩ := h.read_cases hsize he
  all_goals
    have hout := out_of_none hnone
    rw [hout] at hdata
  · refine ⟨⟨h.wf, h.max, h.mode, h.blocking, hok, fun hne => absurd rfl hne⟩, h.pos, ?_, fun r hr => nomatch hr⟩
    show s.typed = (s.answers ++ [s.handle.extra.rest.take size]).flatten ++ [] ++ eh.rest ++ s.input
    rw [hdata, hrest]
    simp only [List.flatten_append, List.flatten_cons, List.flatten_nil, List.append_nil, List.append_assoc]
    rw [← List.append_assoc (List.take _ _), List.take_append_drop]
  · refine ⟨⟨h.wf, h.max, h.mode, h.blocking, h.ok, fun _ => hrest⟩, h.pos, hdata, fun r hr => ?_⟩
    obtain rfl := Option.some.inj hr
    refine ⟨h.pos, hv, ?_⟩
    show s.answers.flatten.length ≤ s.typed.length
    rw [hdata]
    simp

/-- **A pass** keeps the bytes. It returns when there are `VMIN` bytes with those in the input buffer. -/
theorem Raw.pass (h : s.Raw) (hr : s.reader = some r) :
    ∃ s', s.exec .pass = some s' ∧ s'.Raw ∧
      (s.vmin ≤ r.out.length + s.input.length → s'.reader = none ∧ ∃ bytes, s'.answers = s.answers ++ [bytes]) := by
  have hrest := h.rest fun hn => by simp [hn] at hr
  have hout := out_of_some hr
  have hdata := h.data
  rw [hout, hrest, List.append_nil] at hdata
  obtain ⟨hlt, hsize, hsince⟩ := h.reader r hr
  by_cases hempty : s.input = []
  · refine ⟨_, pass_empty h.toBuffers hr hempty, ⟨⟨h.wf, h.max, h.mode, h.blocking, h.ok, fun _ => hrest⟩, h.pos, ?_,
      fun r' hr' => ?_⟩, fun hv => ?_⟩
    · show s.typed = s.answers.flatten ++ r.out ++ s.handle.extra.rest ++ s.input
      rw [hrest, List.append_nil]
      exact hdata
    · obtain rfl := Option.some.inj hr'
      exact ⟨hlt, hsize, hsince⟩
    · rw [hempty, List.length_nil] at hv
      omega
  have hzero := h.ok.rest_eq_nil.mp hrest
  obtain ⟨t, eh, pre, hread, htaken, hcase⟩ := Tty.readChars_raw s.tty.inputRingbuf.elems h.wf h.mode
    (Nat.le_of_eq Ringbuf.length_contents) h.ok.le (by rw [hzero.1]; decide)
  have hcont : s.input = pre ++ t.inputRingbuf.contents := htaken.contents
  have hused : eh.readBufUsed = pre.length := by rw [htaken.used, hzero.1, Nat.zero_add]
  obtain ⟨htake, hdrop, hok'⟩ := htaken.flush hzero (r.size - r.out.length)
  have hcTerm := htaken.cTerm
  have hraw : t.cTerm.icanon = false := hcTerm ▸ h.mode
  have hvmin : (t.cTerm.cc .vmin).toNat = s.vmin := by rw [hcTerm, vmin]
  rw [h.toBuffers.pass_eq hr hempty hread]
  have hret : ∀ eh' n, t.shouldReadReturn eh' n false = decide (s.vmin ≤ n) := fun eh' n => by
    simp [Tty.shouldReadReturn, hraw, hvmin]
  rw [hret, htake]
  refine ⟨_, rfl, ?_⟩
  have hbufs : s.typed = s.answers.flatten ++ (r.out ++ pre.take (r.size - r.out.length)) ++
      (eh.flushReadBuf (r.size - r.out.length)).1.rest ++ t.inputRingbuf.contents := by
    rw [hdrop, hdata, hcont]
    simp only [List.append_assoc, List.take_append_drop]
  split_ifs with hv
  all_goals rw [decide_eq_true_eq, List.length_append, List.length_take] at hv
  · refine ⟨⟨⟨htaken.wf, htaken.max.trans h.max, hraw, h.blocking, hok', fun hne => absurd rfl hne⟩, ?_, ?_,
      fun r' hr' => nomatch hr'⟩, fun _ => ⟨rfl, _, rfl⟩⟩
    · show 1 ≤ (t.cTerm.cc .vmin).toNat
      exact hvmin ▸ h.pos
    · show s.typed = (s.answers ++ [_]).flatten ++ [] ++ _ ++ t.inputRingbuf.contents
      rw [hbufs]
      simp
  · -- the bytes did fit, since the buffer is not full
    have hnil : (eh.flushReadBuf (r.size - r.out.length)).1.rest = [] := by
      rw [hdrop, List.drop_eq_nil_iff]
      omega
    refine ⟨⟨⟨htaken.wf, htaken.max.trans h.max, hraw, h.blocking, hok', fun _ => hnil⟩, ?_, hbufs, fun r' hr' => ?_⟩,
      fun hv' => absurd ?_ hv⟩
    · show 1 ≤ (t.cTerm.cc .vmin).toNat
      exact hvmin ▸ h.pos
    · obtain rfl := Option.some.inj hr'
      show (r.out ++ _).length < (t.cTerm.cc .vmin).toNat ∧ (t.cTerm.cc .vmin).toNat ≤ r.size ∧ _ ≤ s.since
      rw [hvmin, List.length_append, List.length_take]
      exact ⟨by omega, hsize, hsince⟩
    · rcases hcase with hend | hge
      · rw [hcont, hend, List.append_nil] at hv'
        omega
      · have hge' : s.vmin ≤ eh.readBufUsed := hge
        omega

/-- **A step in raw mode.** -/
theorem Raw.exec {a : Act} (h : s.Raw) (ha : s.RawAllowed a) (he : s.exec a = some s') : s'.Raw := by
  cases a with
  | key c block => exact h.key ha.1 ha.2 he
  | read size => exact h.read ha.1 ha.2 he
  | pass =>
    cases hr : s.reader with
    | none => simp [Session.exec, hr] at he
    | some r =>
      obtain ⟨s'', he', hl, -⟩ := h.pass hr
      exact Option.some.inj (he'.symm.trans he) ▸ hl

theorem raw_reached (h : Reached (fun s => s.Start false ∧ 1 ≤ s.vmin) exec RawAllowed s) : s.Raw :=
  h.invariant (fun _ h => h.1.raw h.2) fun _ _ _ h ha he => h.exec ha he

end Session

/-- **Raw reads.** The typed bytes are those of the reads, in order, those of the read that goes on, and those in the buffers. A
read that goes on has an empty read buffer, and returns with the next pass when `VMIN` bytes have been typed since it started. -/
theorem raw_reads {s : Session} (h : Reached (fun s => s.Start false ∧ 1 ≤ s.vmin) Session.exec RawAllowed s) :
    s.typed = s.answers.flatten ++ s.out ++ s.handle.extra.rest ++ s.input ∧
    ∀ r, s.reader = some r → (s.handle.extra.readBufUsed = 0 ∧ s.handle.extra.readPos = 0) ∧
      (min s.vmin r.size ≤ s.typed.length - s.since →
        ∃ s', s.exec .pass = some s' ∧ s'.reader = none ∧ ∃ bytes, s'.answers = s.answers ++ [bytes]) := by
  have hraw := raw_reached h
  refine ⟨hraw.data, fun r hr => ?_⟩
  have hrest := hraw.rest fun hn => by simp [hn] at hr
  refine ⟨hraw.ok.rest_eq_nil.mp hrest, fun hmin => ?_⟩
  obtain ⟨hlt, hsize, hsince⟩ := hraw.reader r hr
  obtain ⟨s', he, -, hret⟩ := hraw.pass hr
  have hout := out_of_some hr
  have hlen := congrArg List.length hraw.data
  rw [hout, hrest, List.append_nil, List.length_append, List.length_append] at hlen
  exact ⟨s', he, hret (by omega)⟩

/-- The settings of raw mode with another `VMIN`. -/
def Session.rawWith (vmin : UInt8) : Termios :=
  { Tty.rawTermios with cc := fun i => if i = .vmin then vmin else defaultTermios.cc i }

theorem raw_reads_sample : ∃ s, execs Session.exec (sample (rawWith 2)) [.key 97 true, .read 3, .pass, .key 98 true, .pass,
      .key 99 true] = some s ∧ s.answers = [[97, 98]] ∧
    s.typed = s.answers.flatten ++ s.out ++ s.handle.extra.rest ++ s.input := by
  have hsome : (execs Session.exec (sample (rawWith 2)) [.key 97 true, .read 3, .pass, .key 98 true, .pass,
      .key 99 true]).map Session.answers = some [[97, 98]] := by decide
  obtain ⟨s, hs, hans⟩ := Option.map_eq_some_iff.mp hsome
  have hstart : Reached (fun s => s.Start false ∧ 1 ≤ s.vmin) Session.exec RawAllowed (sample (rawWith 2)) :=
    .start ⟨sample_start (rawWith 2), by decide⟩
  exact ⟨s, hs, hans, (raw_reads (hstart.execs (by decide) hs)).1⟩

/-- A read of one byte with a `VMIN` of two goes on after two bytes were typed, and one byte is left in the read buffer. With a
`VMIN` of zero a read waits for a byte. -/
theorem raw_read_waits :
    (execs Session.exec (sample (rawWith 2)) [.read 1, .key 97 true, .key 98 true, .pass] |>.any
      fun s => s.reader.isSome && s.vmin = 2 && s.typed.length - s.since = 2 && s.handle.extra.readBufUsed = 2) ∧
    (execs Session.exec (sample (rawWith 0)) [.read 1, .pass] |>.any
      fun s => s.reader.any (fun r => r.sleeps) && s.vmin = 0) := by
  decide

end Usax.Term
