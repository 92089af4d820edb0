import Mathlib.Data.List.Forall2
import Mathlib.Data.List.Induction
import Mathlib.Logic.Function.Basic
import Usax.Common.Errno

/-!
# The filter of the traced syscalls

`set_traced_syscalls` of `tracing.c`. The filter is a string of tokens between commas and spaces. A token is collected in a
buffer of 32 characters, and then it switches all syscalls whose names it matches on, or off if it begins with `!`.

- `simpleWildcardMatch_iff`: what a pattern matches;
- `handleSysTraceArg_eq`: what a token does to the table, and `foldl_handleSysTraceArg`: the last token that matches decides;
- `setTracedSyscalls_lastMatch`: the table after the call.
-/

namespace Usax.Tracing

open Common (Errno)

def maxSyscalls : Nat := 500

/-- `struct symbol_node`: the symbol of a syscall, with its name after `sys_`. -/
structure SymbolNode where
  sysN : Fin maxSyscalls
  name : List Char

/-- The variables of `tracing.c` for the traced syscalls. -/
structure TracingState where
  tracedSyscalls : Fin maxSyscalls → Bool
  tracedSyscallsCount : Nat
  tracedSyscallsStr : List Char

def tracedSyscallsStrLen : Nat := 128

def bufSize : Nat := 32

def simpleWildcardMatch : (str expr : List Char) → Bool
  | c :: str, e :: expr =>
    if e = '*' then expr.isEmpty
    else if c ≠ e ∧ e ≠ '?' then false
    else simpleWildcardMatch str expr
  | [], [] => true
  | [], e :: expr => e = '*' && expr.isEmpty
  | _ :: _, [] => false

section
-- the symbols, in the order in which the tree is visited
variable (syms : List SymbolNode)

/-- The visit of the symbols in `handle_sys_trace_arg`. -/
def markMatching (arg : List Char) (sign : Bool) (table : Fin maxSyscalls → Bool) : Fin maxSyscalls → Bool :=
  syms.foldl (fun table n => if simpleWildcardMatch n.name arg then Function.update table n.sysN sign else table) table

def handleSysTraceArg (table : Fin maxSyscalls → Bool) (arg : List Char) : Fin maxSyscalls → Bool :=
  match arg with
  | [] => table
  | '!' :: arg => if arg = [] then table else markMatching syms arg false table
  | arg => markMatching syms arg true table

/-- The loop of `set_traced_syscalls_int` with what is in the buffer, and what follows it: the table, with the error if there
is one. There is no result if the terminator of a token is written behind the buffer. -/
def tokenLoop : (s buf : List Char) → (Fin maxSyscalls → Bool) → Option (Option Errno × (Fin maxSyscalls → Bool))
  | [], buf, table =>
    if buf = [] then some (none, table)
    else if buf.length < bufSize then some (none, handleSysTraceArg syms table buf)
    else none
  | c :: s, buf, table =>
    if buf.length = bufSize then some (some .enametoolong, table)
    else if c = ',' ∨ c = ' ' then tokenLoop s [] (handleSysTraceArg syms table buf)
    else tokenLoop s (buf ++ [c]) table

def setTracedSyscallsInt (str : List Char) (st : TracingState) : Option (Option Errno × TracingState) :=
  if str.length ≥ tracedSyscallsStrLen then some (some .enametoolong, st)
  else (tokenLoop syms str [] st.tracedSyscalls).map fun r =>
    match r.1 with
    | some e => (some e, { st with tracedSyscalls := r.2 })
    | none => (none, ⟨r.2, (List.finRange maxSyscalls).countP r.2, str⟩)

def resetTracedSyscalls (st : TracingState) : TracingState := { st with tracedSyscalls := fun _ => false }

def setTracedSyscalls (str : List Char) (st : TracingState) : Option (Option Errno × TracingState) :=
  (setTracedSyscallsInt syms str (resetTracedSyscalls st)).map fun r =>
    if r.1.isSome then (r.1, resetTracedSyscalls r.2) else r

end

/-! ## Patterns and tokens -/

/-- A character of a pattern stands for itself, and `?` for any one. -/
def CharMatches (e c : Char) : Prop := e = '?' ∨ e = c

/-- What a pattern matches: a name of its length, or, if it ends in `*`, a name that goes on. -/
def Matches (expr name : List Char) : Prop :=
  ('*' ∉ expr ∧ List.Forall₂ CharMatches expr name) ∨
    ∃ e pre post, expr = e ++ ['*'] ∧ '*' ∉ e ∧ name = pre ++ post ∧ List.Forall₂ CharMatches e pre

def tokens (s : List Char) : List (List Char) := s.splitOnP fun c => c = ',' ∨ c = ' '

def negated (tok : List Char) : Bool := tok.head? = some '!'

def pattern (tok : List Char) : List Char := if negated tok then tok.tail else tok

/-- The token has a pattern that matches a name of the syscall. -/
def Hits (syms : List SymbolNode) (n : Fin maxSyscalls) (tok : List Char) : Prop :=
  pattern tok ≠ [] ∧ ∃ sym ∈ syms, sym.sysN = n ∧ Matches (pattern tok) sym.name

theorem matches_nil_left {name : List Char} : Matches [] name ↔ name = [] := by
  simp [Matches]

theorem matches_star {expr name : List Char} : Matches ('*' :: expr) name ↔ expr = [] := by
  constructor
  · rintro (⟨hstar, -⟩ | ⟨e, pre, post, hexpr, hstar, -⟩)
    · exact absurd List.mem_cons_self hstar
    · cases e with
      | nil => exact (List.cons.inj hexpr).2
      | cons d e =>
        obtain ⟨rfl, -⟩ := List.cons.inj hexpr
        exact absurd List.mem_cons_self hstar
  · rintro rfl
    exact .inr ⟨[], [], name, rfl, by simp, rfl, .nil⟩

theorem matches_cons {e : Char} (he : e ≠ '*') {expr name : List Char} :
    Matches (e :: expr) name ↔ ∃ c name', name = c :: name' ∧ CharMatches e c ∧ Matches expr name' := by
  constructor
  · rintro (⟨hstar, hall⟩ | ⟨e', pre, post, hexpr, hstar, rfl, hall⟩)
    · obtain ⟨c, name', hc, hrest, rfl⟩ := List.forall₂_cons_left_iff.mp hall
      exact ⟨c, name', rfl, hc, .inl ⟨fun h => hstar (List.mem_cons_of_mem e h), hrest⟩⟩
    · cases e' with
      | nil => exact absurd (List.cons.inj hexpr).1 he
      | cons d e' =>
        obtain ⟨rfl, rfl⟩ := List.cons.inj hexpr
        obtain ⟨c, pre', hc, hrest, rfl⟩ := List.forall₂_cons_left_iff.mp hall
        exact ⟨c, pre' ++ post, rfl, hc, .inr ⟨e', pre', post, rfl, fun h => hstar (List.mem_cons_of_mem e h), rfl, hrest⟩⟩
  · rintro ⟨c, name', rfl, hc, ⟨hstar, hall⟩ | ⟨e', pre, post, rfl, hstar, rfl, hall⟩⟩
    · refine .inl ⟨fun h => ?_, .cons hc hall⟩
      obtain h | h := List.mem_cons.mp h
      · exact he h.symm
      · exact hstar h
    · refine .inr ⟨e :: e', c :: pre, post, rfl, fun h => ?_, rfl, .cons hc hall⟩
      obtain h | h := List.mem_cons.mp h
      · exact he h.symm
      · exact hstar h

/-- The loop compares the name with the pattern: the induction is on the pattern. -/
theorem simpleWildcardMatch_iff (expr name : List Char) : simpleWildcardMatch name expr = true ↔ Matches expr name := by
  induction expr generalizing name with
  | nil => cases name <;> simp [simpleWildcardMatch, matches_nil_left]
  | cons e expr ih =>
    by_cases he : e = '*'
    · subst he
      rw [matches_star]
      cases name <;> simp [simpleWildcardMatch]
    · rw [matches_cons he]
      cases name with
      | nil => simp [simpleWildcardMatch, he]
      | cons c name =>
        rw [simpleWildcardMatch, if_neg he]
        by_cases hc : CharMatches e c
        · have hnot : ¬ (c ≠ e ∧ e ≠ '?') := fun h => hc.elim h.2 fun heq => h.1 heq.symm
          rw [if_neg hnot, ih]
          exact ⟨fun h => ⟨c, name, rfl, hc, h⟩, fun ⟨c', name', heq, _, h⟩ => by rwa [(List.cons.inj heq).2]⟩
        · have hno : c ≠ e ∧ e ≠ '?' := ⟨fun h => hc (.inr h.symm), fun h => hc (.inl h)⟩
          rw [if_pos hno]
          refine iff_of_false Bool.false_ne_true fun ⟨c', name', heq, h, _⟩ => hc ?_
          rwa [(List.cons.inj heq).1]

/-! ## What a token does -/

section
variable (syms : List SymbolNode)

theorem markMatching_eq (arg : List Char) (sign : Bool) (table : Fin maxSyscalls → Bool) (n : Fin maxSyscalls) :
    ((∃ sym ∈ syms, sym.sysN = n ∧ Matches arg sym.name) → markMatching syms arg sign table n = sign) ∧
      ((¬ ∃ sym ∈ syms, sym.sysN = n ∧ Matches arg sym.name) → markMatching syms arg sign table n = table n) := by
  unfold markMatching
  induction syms using List.reverseRecOn with
  | nil => simp
  | append_singleton syms sym ih =>
    rw [List.foldl_append, List.foldl_cons, List.foldl_nil]
    simp only [List.mem_append, List.mem_singleton]
    by_cases hm : Matches arg sym.name
    · rw [if_pos ((simpleWildcardMatch_iff arg sym.name).mpr hm)]
      by_cases hn : sym.sysN = n
      · refine ⟨fun _ => by rw [← hn, Function.update_self], fun hno => absurd ⟨sym, .inr rfl, hn, hm⟩ hno⟩
      · rw [Function.update_of_ne (Ne.symm hn)]
        refine ⟨fun ⟨sym', hmem, hn', hm'⟩ => ih.1 ⟨sym', hmem.resolve_right fun h => hn (h ▸ hn'), hn', hm'⟩,
          fun hno => ih.2 fun ⟨sym', hmem, h⟩ => hno ⟨sym', .inl hmem, h⟩⟩
    · rw [if_neg (mt (simpleWildcardMatch_iff arg sym.name).mp hm)]
      refine ⟨fun ⟨sym', hmem, hn', hm'⟩ => ih.1 ⟨sym', hmem.resolve_right fun h => hm (h ▸ hm'), hn', hm'⟩,
        fun hno => ih.2 fun ⟨sym', hmem, h⟩ => hno ⟨sym', .inl hmem, h⟩⟩

theorem handleSysTraceArg_pattern (table : Fin maxSyscalls → Bool) (tok : List Char) :
    handleSysTraceArg syms table tok
      = if pattern tok = [] then table else markMatching syms (pattern tok) (!negated tok) table := by
  unfold handleSysTraceArg
  split
  · rfl
  · rfl
  · rename_i hnil hneg
    have hfalse : negated tok = false := by
      cases tok with
      | nil => rfl
      | cons c tok => simpa [negated] using fun hc => hneg tok (by rw [hc])
    rw [pattern, hfalse, if_neg Bool.false_ne_true, if_neg (by simpa using hnil)]
    rfl

theorem handleSysTraceArg_eq (table : Fin maxSyscalls → Bool) (tok : List Char) (n : Fin maxSyscalls) :
    (Hits syms n tok → handleSysTraceArg syms table tok n = !negated tok) ∧
      (¬ Hits syms n tok → handleSysTraceArg syms table tok n = table n) := by
  rw [handleSysTraceArg_pattern]
  by_cases hnil : pattern tok = []
  · rw [if_pos hnil]
    exact ⟨fun h => absurd hnil h.1, fun _ => rfl⟩
  · rw [if_neg hnil]
    have hmark := markMatching_eq syms (pattern tok) (!negated tok) table n
    exact ⟨fun h => hmark.1 h.2, fun h => hmark.2 fun hex => h ⟨hnil, hex⟩⟩

theorem foldl_handleSysTraceArg (toks : List (List Char)) (n : Fin maxSyscalls) :
    toks.foldl (handleSysTraceArg syms) (fun _ => false) n = true ↔
      ∃ pre tok post, toks = pre ++ tok :: post ∧ Hits syms n tok ∧ (∀ t ∈ post, ¬ Hits syms n t) ∧ negated tok = false := by
  induction toks using List.reverseRecOn with
  | nil => simp
  | append_singleton toks last ih =>
    rw [List.foldl_append, List.foldl_cons, List.foldl_nil]
    by_cases hhit : Hits syms n last
    · rw [(handleSysTraceArg_eq syms _ last n).1 hhit, Bool.not_eq_true']
      constructor
      · exact fun h => ⟨toks, last, [], rfl, hhit, by simp, h⟩
      · rintro ⟨pre, tok, post, heq, -, hpost, hneg⟩
        obtain rfl | ⟨post, x, rfl⟩ := List.eq_nil_or_concat' post
        · rwa [(List.append_inj' heq rfl).2 |> List.singleton_inj.mp]
        · rw [← List.cons_append, ← List.append_assoc] at heq
          have hx : last = x := List.singleton_inj.mp (List.append_inj' heq rfl).2
          exact absurd (hx ▸ hhit) (hpost x (by simp))
    · rw [(handleSysTraceArg_eq syms _ last n).2 hhit, ih]
      constructor
      · rintro ⟨pre, tok, post, rfl, hit, hpost, hneg⟩
        refine ⟨pre, tok, post ++ [last], by simp, hit, fun t ht => ?_, hneg⟩
        obtain ht | ht := List.mem_append.mp ht
        · exact hpost t ht
        · rwa [List.mem_singleton.mp ht]
      · rintro ⟨pre, tok, post, heq, hit, hpost, hneg⟩
        obtain rfl | ⟨post, x, rfl⟩ := List.eq_nil_or_concat' post
        · exact absurd ((List.append_inj' heq rfl).2 |> List.singleton_inj.mp |> fun h => h ▸ hit) hhit
        · rw [← List.cons_append, ← List.append_assoc] at heq
          exact ⟨pre, tok, post, (List.append_inj' heq rfl).1, hit, fun t ht => hpost t (by simp [ht]), hneg⟩

/-! ## The loop over the filter -/

def NoSep (buf : List Char) : Prop := ∀ c ∈ buf, ¬ (c = ',' ∨ c = ' ')

theorem tokens_sep {buf : List Char} (hbuf : NoSep buf) {c : Char} (hc : c = ',' ∨ c = ' ') (s : List Char) :
    tokens (buf ++ c :: s) = buf :: tokens s :=
  List.splitOnP_append_cons_of_forall_mem (fun x hx => by simpa using hbuf x hx) c (by simpa using hc) s

theorem tokens_noSep {buf : List Char} (hbuf : NoSep buf) : tokens buf = [buf] :=
  List.splitOnP_eq_singleton fun x hx => by simpa using hbuf x hx

theorem NoSep.append {buf : List Char} (hbuf : NoSep buf) {c : Char} (hc : ¬ (c = ',' ∨ c = ' ')) : NoSep (buf ++ [c]) := by
  intro x hx
  obtain hx | hx := List.mem_append.mp hx
  · exact hbuf x hx
  · rwa [List.mem_singleton.mp hx]

theorem tokens_ne_nil (s : List Char) : tokens s ≠ [] := List.splitOnP_ne_nil _ s

theorem tokens_cons {buf : List Char} (hbuf : NoSep buf) (s : List Char) : ∃ t ts, tokens (buf ++ s) = (buf ++ t) :: ts := by
  induction s generalizing buf with
  | nil => exact ⟨[], [], by rw [List.append_nil, tokens_noSep hbuf]⟩
  | cons c s ih =>
    by_cases hc : c = ',' ∨ c = ' '
    · exact ⟨[], tokens s, by rw [tokens_sep hbuf hc, List.append_nil]⟩
    · obtain ⟨t, ts, h⟩ := ih (hbuf.append hc)
      exact ⟨c :: t, ts, by rw [List.append_cons, h, List.append_assoc, List.singleton_append]⟩

/-- The last token fills the buffer to its end, and none before it does. -/
def Fills (toks : List (List Char)) : Prop :=
  ∃ pre last, toks = pre ++ [last] ∧ (∀ t ∈ pre, t.length < bufSize) ∧ last.length = bufSize

theorem fills_singleton {t : List Char} : Fills [t] ↔ t.length = bufSize := by
  constructor
  · rintro ⟨pre, last, heq, -, hlen⟩
    rwa [(List.append_inj' (show [] ++ [t] = _ from heq) rfl).2 |> List.singleton_inj.mp]
  · exact fun h => ⟨[], t, rfl, by simp, h⟩

theorem fills_cons {t : List Char} {ts : List (List Char)} (hts : ts ≠ []) : Fills (t :: ts) ↔ t.length < bufSize ∧ Fills ts := by
  constructor
  · rintro ⟨pre, last, heq, hpre, hlen⟩
    cases pre with
    | nil => exact absurd (List.cons.inj heq).2 hts
    | cons t' pre =>
      obtain ⟨rfl, rfl⟩ := List.cons.inj heq
      exact ⟨hpre _ List.mem_cons_self, pre, last, rfl, fun x hx => hpre x (List.mem_cons_of_mem _ hx), hlen⟩
  · rintro ⟨ht, pre, last, rfl, hpre, hlen⟩
    exact ⟨t :: pre, last, rfl, by simpa using ⟨ht, hpre⟩, hlen⟩

/-- The loop with a part of a token in the buffer: there is a result unless the last token fills the buffer to its end and the
loop comes to it, and without an error every token has been handled. -/
theorem tokenLoop_eq (s buf : List Char) (table : Fin maxSyscalls → Bool) (hbuf : NoSep buf) (hlen : buf.length ≤ bufSize) :
    (Fills (tokens (buf ++ s)) ∧ tokenLoop syms s buf table = none) ∨ ¬ Fills (tokens (buf ++ s)) ∧
      ∃ r, tokenLoop syms s buf table = some r ∧ (r.1 = none → r.2 = (tokens (buf ++ s)).foldl (handleSysTraceArg syms) table) := by
  induction s generalizing buf table with
  | nil =>
    rw [List.append_nil, tokens_noSep hbuf, fills_singleton]
    by_cases hfull : buf.length = bufSize
    · refine .inl ⟨hfull, (if_neg ?_).trans (if_neg (by omega))⟩
      rintro rfl
      cases hfull
    have hlt : buf.length < bufSize := Nat.lt_of_le_of_ne hlen hfull
    by_cases hnil : buf = []
    · exact .inr ⟨hfull, _, if_pos hnil, fun _ => by rw [hnil]; rfl⟩
    · exact .inr ⟨hfull, _, (if_neg hnil).trans (if_pos hlt), fun _ => rfl⟩
  | cons c s ih =>
    rw [tokenLoop]
    by_cases hfull : buf.length = bufSize
    · -- the token goes on, or there is another one behind it
      refine .inr ⟨fun hfill => ?_, _, if_pos hfull, fun h => absurd h (by simp)⟩
      by_cases hc : c = ',' ∨ c = ' '
      · rw [tokens_sep hbuf hc, fills_cons (tokens_ne_nil s)] at hfill
        omega
      · obtain ⟨t, ts, h⟩ := tokens_cons (hbuf.append hc) s
        rw [List.append_cons, h] at hfill
        by_cases hts : ts = []
        · rw [hts, fills_singleton] at hfill
          simp at hfill
          omega
        · have := ((fills_cons hts).mp hfill).1
          simp at this
          omega
    rw [if_neg hfull]
    by_cases hc : c = ',' ∨ c = ' '
    · -- the token is handled, and the next one begins
      rw [if_pos hc, tokens_sep hbuf hc, fills_cons (tokens_ne_nil s)]
      obtain ⟨hfill, hnone⟩ | ⟨hnot, r, hr, hfold⟩ := ih [] (handleSysTraceArg syms table buf) (fun x hx => absurd hx (by simp))
        (Nat.zero_le _)
      · exact .inl ⟨⟨Nat.lt_of_le_of_ne hlen hfull, hfill⟩, hnone⟩
      · exact .inr ⟨fun h => hnot h.2, r, hr, hfold⟩
    · rw [if_neg hc, List.append_cons]
      exact ih (buf ++ [c]) table (hbuf.append hc) (by simp; omega)

end

/-- **The last match wins.** Nothing is written outside the buffer, and on success a syscall is traced exactly if the last token
that matches its name is not negated, on failure none is, if and only if the filter is too long or its last token has not
exactly 32 characters, or one before it has as many. -/
theorem setTracedSyscalls_lastMatch (syms : List SymbolNode) (str : List Char) (st : TracingState) :
    (∃ rc st', setTracedSyscalls syms str st = some (rc, st') ∧
      (rc = none → ∀ n, st'.tracedSyscalls n = true ↔ ∃ pre tok post, tokens str = pre ++ tok :: post ∧ Hits syms n tok ∧
        (∀ t ∈ post, ¬ Hits syms n t) ∧ negated tok = false) ∧
      (rc ≠ none → ∀ n, st'.tracedSyscalls n = false)) ↔ tracedSyscallsStrLen ≤ str.length ∨ ¬ Fills (tokens str) := by
  have hloop := tokenLoop_eq syms str [] (fun _ => false) (fun x hx => absurd hx (by simp)) (Nat.zero_le _)
  rw [List.nil_append] at hloop
  unfold setTracedSyscalls setTracedSyscallsInt
  by_cases hlong : str.length ≥ tracedSyscallsStrLen
  · rw [if_pos hlong]
    exact iff_of_true ⟨_, _, rfl, fun h => absurd h (by simp), fun _ _ => rfl⟩ (.inl hlong)
  rw [if_neg hlong, resetTracedSyscalls]
  obtain ⟨hfill, hnone⟩ | ⟨hnot, ⟨rc, table⟩, hrun, htable⟩ := hloop
  · rw [hnone]
    exact iff_of_false (by simp) (by simp [hfill, hlong])
  rw [hrun]
  refine iff_of_true ?_ (.inr hnot)
  cases rc with
  | some e => exact ⟨_, _, rfl, fun h => absurd h (by simp), fun _ _ => rfl⟩
  | none =>
    refine ⟨none, _, rfl, fun _ n => ?_, fun h => absurd rfl h⟩
    rw [← foldl_handleSysTraceArg]
    exact iff_of_eq (congrArg (· n = true) (htable rfl))

def readAndWrite : List SymbolNode := [⟨⟨3, by decide⟩, ['r', 'e', 'a', 'd']⟩, ⟨⟨4, by decide⟩, ['w', 'r', 'i', 't', 'e']⟩]

def noneTraced : TracingState := ⟨fun _ => false, 0, []⟩

/-- A token of 32 characters at the end: its terminator is written behind the buffer. -/
theorem setTracedSyscalls_overruns : (setTracedSyscalls readAndWrite (List.replicate 32 'a') noneTraced).isNone = true := by
  decide

end Usax.Tracing
