import Mathlib.Data.List.TakeWhile
import Usax.Common.Errno

/-!
# Scripts

`execve_handle_script` of `execve.c`: the line behind `#!` is cut into the interpreter and its argument in the header buffer
itself, and a new argument vector is written for the interpreter. The header buffer and the vector have their fixed sizes; a
read or a write outside of them is `Outcome.outside`.

* `scan_skip`, `scan_space`, `endLine_spec`: the loop over the line;
* `execveHandleScript_argv`: an error, or the vector `interpreter [argument] path argv[1] … NULL`, exactly if the first space is
  not at the end of the buffer, and a line that ends comes with an `argv[0]` and, when there is an argument, a slot to spare;
* `execveHandleScript_outside`: what happens otherwise.

`execve_load_elf` calls the function only if fewer than `MAX_SCRIPT_REC` scripts were followed so far; that test is left out.
-/

namespace Usax.Exec

open Common

def userappMaxArgsCount : Nat := 32

def elfRawHeaderSize : Nat := 128

/-- The character at the end of a string. -/
def nul : Char := Char.ofNat 0

/-! ## The function -/

/-- What a slot of the vector points to: a place in the header, the path of the script, a string of the caller or something
that was there before. -/
inductive Slot
  | null
  | hdr (off : Nat)
  | path
  | arg (s : List Char)
  | stale
deriving DecidableEq, Repr

/-- How the function ends: `exec` is the call of `do_execve_int` with the header buffer and the vector. -/
inductive Outcome
  | outside
  | error (e : Errno)
  | exec (hdr : List Char) (newArgv : List Slot)
deriving DecidableEq, Repr

def put (newArgv : List Slot) (i : Nat) (v : Slot) : Option (List Slot) :=
  if i < newArgv.length then some (newArgv.set i v) else none

/-- `na[i] = argv[i]` for all `i`, and the `NULL` behind them. -/
def putArgs (newArgv : List Slot) (na : Nat) : (argv : List (List Char)) → Option (List Slot)
  | [] => put newArgv na .null
  | a :: argv => do putArgs (← put newArgv na (.arg a)) (na + 1) argv

structure Vars where
  hdr : List Char
  newArgv : List Slot
  na : Nat
  l : Option Nat

/-- The end of the line is at `p`. -/
def endLine (start : Nat) (argv : List (List Char)) (p : Nat) (v : Vars) : Outcome :=
  let newArgv := do
    let newArgv ← put v.newArgv v.na (.hdr (v.l.getD start))
    let newArgv ← putArgs newArgv (v.na + 1) argv
    put newArgv (if v.l.isSome then 2 else 1) .path
  match newArgv with
  | none => .outside
  | some newArgv => .exec (v.hdr.set p nul) newArgv

/-- The loop: `rest` is the part of the buffer from `p` on. -/
def scan (start : Nat) (argv : List (List Char)) : (rest : List Char) → (p : Nat) → Vars → Outcome
  | [], _, _ => .outside
  | c :: rest, p, v =>
    if c = nul ∨ ¬p < start + elfRawHeaderSize then .error .enoexec
    else if c = ' ' ∧ v.l = none then
      match put v.newArgv v.na (.hdr start) with
      | none => .outside
      | some newArgv =>
        let v' := ⟨v.hdr.set p nul, newArgv, v.na + 1, some (p + 1)⟩
        match rest with
        | [] => .outside
        | c' :: rest =>
          -- `p` has moved past the space, and `p++` comes before the next test of `*p`
          if c' = '\n' then endLine start argv (p + 1) v' else scan start argv rest (p + 2) v'
    else if c = '\n' then endLine start argv p v
    else scan start argv rest (p + 1) v

def lineStart (hdr : List Char) : Nat := 2 + ((hdr.drop 2).takeWhile (· = ' ')).length

def execveHandleScript (hdr : List Char) (newArgv : List Slot) (argv : List (List Char)) : Outcome :=
  let hdr := hdr.set (elfRawHeaderSize - 1) nul
  if userappMaxArgsCount - 2 < argv.length then .error .e2big
  else
    match hdr.drop (lineStart hdr) with
    | [] => .outside
    | c :: rest =>
      if c = nul then .error .enoexec else scan (lineStart hdr) argv (c :: rest) (lineStart hdr) ⟨hdr, newArgv, 0, none⟩

/-! ## What it is for -/

def isWord (c : Char) : Bool := c ≠ ' ' ∧ c ≠ '\n' ∧ c ≠ nul

/-- The header from the interpreter on, with the last character cleared. -/
def line (hdr : List Char) : List Char :=
  let hdr := hdr.set (elfRawHeaderSize - 1) nul
  hdr.drop (lineStart hdr)

def interpreter (hdr : List Char) : List Char := (line hdr).takeWhile isWord

/-- The argument: the text behind the first space. -/
def argument (hdr : List Char) : Option (List Char) :=
  match (line hdr).dropWhile isWord with
  | ' ' :: r => some (r.takeWhile fun c => c ≠ '\n' ∧ c ≠ nul)
  | _ => none

/-- The newline that ends the text behind the first space; the character right behind the space is not tested for NUL. -/
def EndsText : List Char → Prop
  | [] => False
  | c :: r => c = '\n' ∨ (r.dropWhile fun c => c ≠ '\n' ∧ c ≠ nul).head? = some '\n'

instance : ∀ r, Decidable (EndsText r)
  | [] => inferInstanceAs (Decidable False)
  | _ :: _ => inferInstanceAs (Decidable (_ ∨ _))

/-- What is behind the interpreter has no fault: nothing or a newline or a space that is not the last character but one; and if
the line ends, the vector has room for the `NULL`, and an empty `argv` finds a `NULL` behind the path. -/
def Handled (newArgv : List Slot) (argv : List (List Char)) : List Char → Prop
  | ' ' :: r => r.length ≠ 1 ∧
    (EndsText r → argv.length ≠ userappMaxArgsCount - 2 ∧ (argv = [] → newArgv[3]? = some .null))
  | '\n' :: _ => argv = [] → newArgv[2]? = some .null
  | _ => True

instance (newArgv : List Slot) (argv : List (List Char)) (l : List Char) : Decidable (Handled newArgv argv l) := by
  unfold Handled
  split <;> infer_instance

def vector (newArgv : List Slot) : Option (List Slot) :=
  if .null ∈ newArgv then some (newArgv.takeWhile (· ≠ .null)) else none

/-- The string at a place of a buffer. -/
def cstr (hdr : List Char) (off : Nat) : List Char := (hdr.drop off).takeWhile (· ≠ nul)

def Slot.read (path hdr : List Char) : Slot → List Char
  | .hdr off => cstr hdr off
  | .path => path
  | .arg s => s
  | _ => []

/-- The function goes on with these arguments, in buffers of these sizes. -/
def Continues (hdrSize slots : Nat) (path : List Char) (args : List (List Char)) (o : Outcome) : Prop :=
  ∃ hdr newArgv, o = .exec hdr newArgv ∧ hdr.length = hdrSize ∧ newArgv.length = slots ∧
    (vector newArgv).map (·.map (Slot.read path hdr)) = some args

theorem set_append_cons {α : Type} {l r : List α} {x y : α} : (l ++ x :: r).set l.length y = l ++ y :: r := by
  rw [List.set_append_right _ _ (Nat.le_refl _)]
  simp

/-! ## The vector -/

section Vector

variable {pre post mid : List Slot} {argv : List (List Char)} {v x : Slot}

theorem put_append : put (pre ++ x :: post) pre.length v = some (pre ++ v :: post) := by
  rw [put, if_pos (by simp), set_append_cons]

theorem putArgs_append (hmid : mid.length = argv.length + 1) :
    putArgs (pre ++ (mid ++ post)) pre.length argv = some (pre ++ (argv.map .arg ++ .null :: post)) := by
  induction argv generalizing pre mid with
  | nil =>
    obtain ⟨x, rfl⟩ := List.length_eq_one_iff.mp hmid
    rw [putArgs, List.singleton_append, put_append]
    rfl
  | cons a argv ih =>
    obtain ⟨x, mid, rfl⟩ := List.exists_cons_of_length_eq_add_one hmid
    have h := @ih (pre ++ [.arg a]) mid (by simpa using hmid)
    simp only [List.append_assoc, List.singleton_append, List.length_append, List.length_singleton] at h
    rw [putArgs, List.cons_append, put_append]
    simpa using h

theorem endLine_spec {start p : Nat} {a : List Char} {w : Vars} (hna : w.na = pre.length)
    (hl : (if w.l.isSome then 2 else 1) = pre.length + 1) (hv : w.newArgv = pre ++ x :: (mid ++ post))
    (hmid : mid.length = argv.length + 2) :
    endLine start (a :: argv) p w =
      .exec (w.hdr.set p nul) (pre ++ .hdr (w.l.getD start) :: .path :: (argv.map .arg ++ .null :: post)) := by
  have hargs := @putArgs_append (pre ++ [.hdr (w.l.getD start)]) post mid (a :: argv) hmid
  have hpath := @put_append (pre ++ [.hdr (w.l.getD start)]) (argv.map .arg ++ .null :: post) .path (.arg a)
  simp only [List.append_assoc, List.nil_append, List.length_append, List.length_singleton, List.map_cons,
    List.cons_append] at hargs hpath
  rw [endLine, hv, hna, hl, put_append]
  simp [hargs, hpath]

theorem put_length {l l' : List Slot} {i : Nat} (h : put l i v = some l') : l'.length = l.length := by
  unfold put at h
  split_ifs at h
  cases h
  simp

theorem putArgs_full {l : List Slot} {na : Nat} (h : l.length ≤ na + argv.length) : putArgs l na argv = none := by
  induction argv generalizing l na with
  | nil => exact if_neg (by simpa using h)
  | cons a argv ih =>
    rw [putArgs]
    cases hput : put l na (.arg a) with
    | none => rfl
    | some l' =>
      refine ih ?_
      rw [put_length hput]
      simp only [List.length_cons] at h
      omega

theorem endLine_full {start p : Nat} {w : Vars} (h : w.newArgv.length ≤ w.na + 1 + argv.length) :
    endLine start argv p w = .outside := by
  have hnone : (do
      let newArgv ← put w.newArgv w.na (.hdr (w.l.getD start))
      let newArgv ← putArgs newArgv (w.na + 1) argv
      put newArgv (if w.l.isSome then 2 else 1) .path) = none := by
    cases hput : put w.newArgv w.na (.hdr (w.l.getD start)) with
    | none => rfl
    | some l' =>
      have hfull : putArgs l' (w.na + 1) argv = none := putArgs_full (by rwa [put_length hput])
      simp [hfull]
  unfold endLine
  rw [hnone]

/-- Without an `argv[0]` the path takes the place of the `NULL`. -/
theorem endLine_nil {start p : Nat} {w : Vars} {y : Slot} (hna : w.na = pre.length)
    (hl : (if w.l.isSome then 2 else 1) = pre.length + 1) (hv : w.newArgv = pre ++ x :: y :: post) :
    endLine start [] p w = .exec (w.hdr.set p nul) (pre ++ .hdr (w.l.getD start) :: .path :: post) := by
  have hnull := @put_append (pre ++ [.hdr (w.l.getD start)]) post .null y
  have hpath := @put_append (pre ++ [.hdr (w.l.getD start)]) post .path .null
  simp only [List.append_assoc, List.nil_append, List.length_append, List.length_singleton, List.cons_append] at hnull hpath
  rw [endLine, hv, hna, hl, put_append]
  simp [putArgs, hnull, hpath]

end Vector

/-! ## The line -/

section Line

variable {start p : Nat} {argv : List (List Char)} {v : Vars} {w r : List Char}

theorem exists_stop {q : Char → Bool} (h : ∃ c ∈ r, q c = false) :
    ∃ w d post, r = w ++ d :: post ∧ (∀ c ∈ w, q c = true) ∧ q d = false ∧ r.takeWhile q = w ∧
      r.dropWhile q = d :: post := by
  induction r with
  | nil => simp at h
  | cons c r ih =>
    cases hc : q c with
    | false => exact ⟨[], c, r, rfl, by simp, hc, by simp [hc], by simp [hc]⟩
    | true =>
      obtain ⟨d, hd, hqd⟩ := h
      have hdr : d ∈ r := (List.mem_cons.mp hd).resolve_left fun h => by simp [h, hc] at hqd
      obtain ⟨w, d, post, rfl, hw, hd, htake, hdrop⟩ := ih ⟨d, hdr, hqd⟩
      exact ⟨c :: w, d, post, rfl, by simpa [hc] using hw, hd, by simp [hc, htake], by simp [hc, hdrop]⟩

theorem scan_skip (hw : ∀ c ∈ w, c ≠ nul ∧ c ≠ '\n' ∧ (c = ' ' → v.l ≠ none))
    (hp : p + w.length ≤ start + elfRawHeaderSize) :
    scan start argv (w ++ r) p v = scan start argv r (p + w.length) v := by
  induction w generalizing p with
  | nil => rfl
  | cons c w ih =>
    rw [List.length_cons] at hp
    obtain ⟨hnul, hend, hspace⟩ := hw c (by simp)
    rw [List.cons_append, scan.eq_def]
    dsimp only
    rw [if_neg (by simp [hnul]; omega), if_neg fun h => hspace h.1 h.2, if_neg hend,
      ih (fun c hc => hw c (by simp [hc])) (by omega), List.length_cons, Nat.add_right_comm, Nat.add_assoc]

theorem scan_space {newArgv : List Slot} (hl : v.l = none) (hput : put v.newArgv v.na (.hdr start) = some newArgv)
    (hp : p + 1 + r.length = elfRawHeaderSize) (hroom : 1 < r.length) (hlast : r.getLast? = some nul) :
    ¬ EndsText r ∧ scan start argv (' ' :: r) p v = .error .enoexec ∨
      EndsText r ∧ ∃ w post, r = w ++ '\n' :: post ∧ w.takeWhile (· ≠ nul) = (r.takeWhile fun c => c ≠ '\n' ∧ c ≠ nul) ∧
        scan start argv (' ' :: r) p v =
          endLine start argv (p + 1 + w.length) ⟨v.hdr.set p nul, newArgv, v.na + 1, some (p + 1)⟩ := by
  obtain ⟨c, r, rfl⟩ := List.exists_cons_of_length_pos (Nat.zero_lt_of_lt hroom)
  have hnul : ¬(' ' = nul ∨ ¬p < start + elfRawHeaderSize) := by
    rintro (h | h)
    · cases h
    · omega
  rw [scan.eq_def]
  dsimp only
  rw [if_neg hnul, if_pos ⟨rfl, hl⟩, hput]
  dsimp only
  rw [List.length_cons] at hp hroom
  by_cases hc : c = '\n'
  · exact .inr ⟨.inl hc, [], r, by simp [hc], by simp [hc], by rw [if_pos hc]; rfl⟩
  rw [if_neg hc]
  have hmem : nul ∈ r := by
    have hne : r ≠ [] := List.ne_nil_of_length_pos (by omega)
    rw [List.getLast?_cons_of_ne_nil hne] at hlast
    exact List.mem_of_getLast? hlast
  obtain ⟨w, d, post, rfl, hw, hd, htake, hdrop⟩ := @exists_stop r (fun c => c ≠ '\n' ∧ c ≠ nul) ⟨nul, hmem, by simp⟩
  have hends : EndsText (c :: (w ++ d :: post)) ↔ d = '\n' := by
    rw [EndsText, hdrop]
    simp [hc]
  simp only [ne_eq, decide_eq_true_eq] at hw
  simp only [List.length_append, List.length_cons] at hp
  rw [scan_skip (fun c hc => ⟨(hw c hc).2, (hw c hc).1, by simp⟩) (by omega)]
  by_cases hdn : d = nul
  · refine .inl ⟨fun h => ?_, by rw [scan, if_pos (.inl hdn)]⟩
    rw [hends.mp h] at hdn
    exact absurd hdn (by decide)
  · obtain rfl : d = '\n' := by simpa [hdn] using hd
    refine .inr ⟨hends.mpr rfl, c :: w, post, rfl, ?_, ?_⟩
    · rw [List.takeWhile_cons, List.takeWhile_cons, htake]
      by_cases hcn : c = nul
      · simp [hcn]
      · rw [if_pos (by simpa using hcn), if_pos (by simp [hc, hcn]), List.takeWhile_eq_self_iff.mpr fun d hd => by
          simpa using (hw d hd).2]
    · rw [scan, if_neg (by simp [hdn]; omega), if_neg (by simp), if_pos rfl, List.length_cons]
      congr 1
      omega

theorem cstr_append {l : List Char} : cstr (l ++ (w ++ nul :: r)) l.length = w.takeWhile (· ≠ nul) := by
  rw [cstr, List.drop_left]
  induction w with
  | nil => simp
  | cons c w ih => rw [List.cons_append, List.takeWhile_cons, List.takeWhile_cons, ih]

end Line

/-! ## The result -/

section Result

variable {hdr path : List Char} {newArgv post : List Slot} {argv : List (List Char)}

theorem set_last (hlen : hdr.length = elfRawHeaderSize) : hdr.set (elfRawHeaderSize - 1) nul = hdr.dropLast ++ [nul] := by
  have hne : hdr ≠ [] := List.ne_nil_of_length_pos (by rw [hlen]; decide)
  obtain ⟨l, x, rfl⟩ := (List.eq_nil_or_concat hdr).resolve_left hne
  have hlast : elfRawHeaderSize - 1 = l.length := by simp [← hlen]
  rw [hlast, List.concat_eq_append, set_append_cons, List.dropLast_concat]

theorem line_spec (hlen : hdr.length = elfRawHeaderSize) :
    ∃ pre c rest, hdr.set (elfRawHeaderSize - 1) nul = pre ++ c :: rest ∧
      lineStart (hdr.set (elfRawHeaderSize - 1) nul) = pre.length ∧ (c :: rest).getLast? = some nul ∧
        pre.length + (c :: rest).length = elfRawHeaderSize := by
  have hset := set_last hlen
  obtain ⟨a, b, l, hl⟩ : ∃ a b l, hdr.dropLast = a :: b :: l := by
    match h : hdr.dropLast with
    | [] => simpa [hlen, elfRawHeaderSize] using congrArg List.length h
    | [a] => simpa [hlen, elfRawHeaderSize] using congrArg List.length h
    | a :: b :: l => exact ⟨a, b, l, rfl⟩
  rw [hl] at hset
  obtain ⟨w, c, rest, hw, -, -, htake, -⟩ := @exists_stop (l ++ [nul]) (· = ' ') ⟨nul, by simp, by decide⟩
  have hbuf : hdr.set (elfRawHeaderSize - 1) nul = (a :: b :: w) ++ c :: rest := by
    rw [hset, List.cons_append, List.cons_append, hw]
    rfl
  refine ⟨a :: b :: w, c, rest, hbuf, ?_, ?_, ?_⟩
  · rw [lineStart, hset]
    simp [htake]
    omega
  · have hlast : (w ++ c :: rest).getLast? = some nul := by rw [← hw, List.getLast?_concat]
    rwa [List.getLast?_append, List.getLast?_eq_some_getLast (List.cons_ne_nil c rest), Option.some_or,
      ← List.getLast?_eq_some_getLast] at hlast
  · have := congrArg List.length hbuf
    rw [List.length_set, hlen, List.length_append] at this
    exact this.symm

theorem vector_append {l : List Slot} (hl : .null ∉ l) : vector (l ++ .null :: post) = some l := by
  have hpos : ∀ x ∈ l, decide (x ≠ Slot.null) = true := by
    intro x hx
    have hx : x ≠ .null := fun h => hl (h ▸ hx)
    simpa using hx
  rw [vector, if_pos (by simp), List.takeWhile_append_of_pos hpos]
  simp

theorem vector_map_iff {α : Type} {l : List Slot} (hl : .null ∉ l) (f : Slot → α) :
    (vector (l ++ post)).map (·.map f) = some (l.map f) ↔ post.head? = some .null := by
  constructor
  · intro h
    have hpos : ∀ x ∈ l, decide (x ≠ Slot.null) = true := fun x hx => decide_eq_true fun h => hl (h ▸ hx)
    unfold vector at h
    split_ifs at h with hmem
    · rw [List.takeWhile_append_of_pos hpos] at h
      have hmem : .null ∈ post := (List.mem_append.mp hmem).resolve_left hl
      cases post with
      | nil => cases hmem
      | cons x post =>
        by_contra hx
        have hx : x ≠ .null := fun h => hx (congrArg some h)
        have hlen := congrArg List.length (Option.some.inj h)
        simp [hx] at hlen
    · cases h
  · intro h
    cases post with
    | nil => cases h
    | cons x post =>
      obtain rfl : x = .null := Option.some.inj h
      rw [vector_append hl]
      rfl

theorem exists_split {n : Nat} {l : List Slot} (h : n < l.length) :
    ∃ x mid post, l = x :: (mid ++ post) ∧ mid.length = n := by
  cases l with
  | nil => simp at h
  | cons x l =>
    rw [List.length_cons] at h
    exact ⟨x, l.take n, l.drop n, by rw [List.take_append_drop], by rw [List.length_take]; omega⟩

theorem scan_newline {pre w r : List Char} {a : List Char} (hword : ∀ c ∈ w, c ≠ nul)
    (hlen : pre.length + w.length < elfRawHeaderSize) (hslots : argv.length + 2 < newArgv.length) (path : List Char) :
    Continues (pre ++ (w ++ '\n' :: r)).length newArgv.length path (w :: path :: argv)
      (scan pre.length (a :: argv) ('\n' :: r) (pre.length + w.length) ⟨pre ++ (w ++ '\n' :: r), newArgv, 0, none⟩) := by
  obtain ⟨x, mid, post, rfl, hmid⟩ := exists_split hslots
  have hset : (pre ++ (w ++ '\n' :: r)).set (pre.length + w.length) nul = pre ++ (w ++ nul :: r) := by
    rw [← List.append_assoc, ← List.length_append, set_append_cons, List.append_assoc]
  rw [scan.eq_def]
  dsimp only
  rw [if_neg (by simp [nul]; omega), if_neg (by simp), if_pos rfl, @endLine_spec [] post mid argv x _ _ a _ rfl rfl rfl hmid,
    hset]
  have hvec := @vector_append post (.hdr pre.length :: .path :: argv.map .arg) (by simp)
  refine ⟨_, _, rfl, by simp, by simp [hmid]; omega, (congrArg _ hvec).trans ?_⟩
  simpa [Slot.read, cstr_append, Function.comp_def] using hword

theorem scan_newline_nil {pre w r : List Char} (hword : ∀ c ∈ w, c ≠ nul) (hlen : pre.length + w.length < elfRawHeaderSize)
    {x y : Slot} (path : List Char) :
    let o := scan pre.length [] ('\n' :: r) (pre.length + w.length) ⟨pre ++ (w ++ '\n' :: r), x :: y :: post, 0, none⟩
    (∃ e, o = .error e) ∨ Continues (pre ++ (w ++ '\n' :: r)).length (post.length + 2) path [w, path] o ↔
      post.head? = some .null := by
  have hset : (pre ++ (w ++ '\n' :: r)).set (pre.length + w.length) nul = pre ++ (w ++ nul :: r) := by
    rw [← List.append_assoc, ← List.length_append, set_append_cons, List.append_assoc]
  rw [scan.eq_def]
  dsimp only
  rw [if_neg (by simp [nul]; omega), if_neg (by simp), if_pos rfl, @endLine_nil [] post x _ _ _ y rfl rfl rfl, hset]
  have hself : w.takeWhile (· ≠ nul) = w := List.takeWhile_eq_self_iff.mpr fun c hc => by simpa using hword c hc
  have hread : [w, path] = [.hdr pre.length, .path].map (Slot.read path (pre ++ (w ++ nul :: r))) := by
    simp only [List.map_cons, List.map_nil, Slot.read, cstr_append, hself]
  have hvec := @vector_map_iff post _ [.hdr pre.length, .path] (by simp) (Slot.read path (pre ++ (w ++ nul :: r)))
  rw [← hvec, ← hread]
  constructor
  · rintro (⟨e, he⟩ | ⟨hdr, newArgv, heq, -, -, hargs⟩)
    · cases he
    · cases heq
      exact hargs
  · exact fun h => .inr ⟨_, _, rfl, by simp, by simp, h⟩

/-- The buffer with the newline and the space replaced. -/
theorem set_space_newline {pre w u rest : List Char} :
    ((pre ++ (w ++ ' ' :: (u ++ '\n' :: rest))).set (pre.length + w.length) nul).set
      (pre.length + w.length + 1 + u.length) nul = pre ++ (w ++ nul :: (u ++ nul :: rest)) := by
  have hidx : pre.length + w.length + 1 + u.length = (pre ++ w ++ nul :: u).length := by simp; omega
  rw [hidx, ← List.append_assoc, ← List.length_append, set_append_cons, ← List.cons_append, ← List.append_assoc,
    set_append_cons]
  simp

theorem scan_argument {pre w r : List Char} (hword : ∀ c ∈ w, c ≠ nul)
    (hlen : (pre ++ (w ++ ' ' :: r)).length = elfRawHeaderSize) (hroom : 1 < r.length) (hlast : r.getLast? = some nul)
    (hslots : newArgv.length = userappMaxArgsCount) (hargc : argv.length ≤ userappMaxArgsCount - 2) (path : List Char) :
    let o := scan pre.length argv (' ' :: r) (pre.length + w.length) ⟨pre ++ (w ++ ' ' :: r), newArgv, 0, none⟩
    (∃ e, o = .error e) ∨ Continues elfRawHeaderSize userappMaxArgsCount path
      (w :: (r.takeWhile fun c => c ≠ '\n' ∧ c ≠ nul) :: path :: argv.tail) o ↔
    (EndsText r → argv.length ≠ userappMaxArgsCount - 2 ∧ (argv = [] → newArgv[3]? = some .null)) := by
  obtain ⟨y, x, newArgv, rfl⟩ : ∃ y x l, newArgv = y :: x :: l := by
    match newArgv, hslots with
    | y :: x :: l, _ => exact ⟨y, x, l, rfl⟩
  have hput : put (y :: x :: newArgv) 0 (.hdr pre.length) = some (.hdr pre.length :: x :: newArgv) :=
    @put_append [] (x :: newArgv) (.hdr pre.length) y
  have hlen' := hlen
  simp only [List.length_append, List.length_cons] at hlen'
  rcases @scan_space pre.length (pre.length + w.length) argv ⟨pre ++ (w ++ ' ' :: r), y :: x :: newArgv, 0, none⟩ r _ rfl hput
    (by omega) hroom hlast with ⟨hends, herr⟩ | ⟨hends, u, rest, rfl, harg, hscan⟩
  · exact iff_of_true (.inl ⟨_, herr⟩) fun h => absurd h hends
  rw [hscan, ← harg]
  simp only [hends, forall_const, userappMaxArgsCount, List.length_cons] at hslots hargc ⊢
  have hself : w.takeWhile (· ≠ nul) = w := List.takeWhile_eq_self_iff.mpr fun c hc => by simpa using hword c hc
  have hsecond : cstr (pre ++ (w ++ nul :: (u ++ nul :: rest))) (pre.length + w.length + 1) = u.takeWhile (· ≠ nul) := by
    have h := @cstr_append u rest (pre ++ w ++ [nul])
    rw [List.length_append, List.length_append, List.length_singleton] at h
    simpa using h
  have hread : [w, u.takeWhile (· ≠ nul), path] =
      [.hdr pre.length, .hdr (pre.length + w.length + 1), .path].map
        (Slot.read path (pre ++ (w ++ nul :: (u ++ nul :: rest)))) := by
    simp only [List.map_cons, List.map_nil, Slot.read, cstr_append, hself, hsecond]
  by_cases hfull : argv.length = 30
  · rw [endLine_full (by simp only [List.length_cons]; omega)]
    refine iff_of_false ?_ (by simp [hfull])
    rintro (⟨e, he⟩ | ⟨hdr, newArgv, heq, -⟩)
    · cases he
    · cases heq
  cases argv with
  | nil =>
    obtain ⟨z, post, rfl⟩ := List.exists_cons_of_length_pos (show 0 < newArgv.length by omega)
    rw [@endLine_nil [.hdr pre.length] post x _ _ _ z rfl rfl rfl, set_space_newline]
    have hvec := @vector_map_iff post _ [.hdr pre.length, .hdr (pre.length + w.length + 1), .path] (by simp)
      (Slot.read path (pre ++ (w ++ nul :: (u ++ nul :: rest))))
    rw [← hread] at hvec
    have hhead : post.head? = some .null ↔ (y :: x :: z :: post)[3]? = some .null := by cases post <;> simp
    rw [← hhead, ← hvec]
    constructor
    · rintro (⟨e, he⟩ | ⟨hdr, newArgv, heq, -, -, hargs⟩)
      · cases he
      · cases heq
        exact ⟨by decide, fun _ => hargs⟩
    · refine fun h => .inr ⟨_, _, rfl, by rw [← hlen]; simp, ?_, h.2 rfl⟩
      simp only [List.length_cons, List.length_append, List.length_nil] at hslots ⊢
      omega
  | cons a argv =>
    simp only [List.length_cons] at hargc hfull
    refine iff_of_true (.inr ?_) ⟨by simpa using hfull, fun h => by cases h⟩
    obtain ⟨mid, post, rfl, hmid⟩ : ∃ mid post, newArgv = mid ++ post ∧ mid.length = argv.length + 2 :=
      ⟨newArgv.take (argv.length + 2), newArgv.drop (argv.length + 2), (List.take_append_drop _ _).symm, by
        rw [List.length_take]; omega⟩
    rw [@endLine_spec [.hdr pre.length] post mid argv x _ _ a _ rfl rfl rfl hmid, set_space_newline]
    have hvec := @vector_append post (.hdr pre.length :: .hdr (pre.length + w.length + 1) :: .path :: argv.map .arg) (by simp)
    refine ⟨_, _, rfl, by rw [← hlen]; simp, ?_, (congrArg _ hvec).trans ?_⟩
    · simp only [List.length_append, List.length_cons, List.length_map, List.length_nil] at hslots ⊢
      omega
    · simpa [Slot.read, cstr_append, hsecond, Function.comp_def] using hword

/-- **The vector of the interpreter**: an error, or the interpreter, its argument if there is one, the path of the script and
the arguments of the caller from index 1, with a `NULL` behind them, exactly if there are too many arguments or what is behind
the interpreter has no fault. -/
theorem execveHandleScript_argv (hlen : hdr.length = elfRawHeaderSize) (hslots : newArgv.length = userappMaxArgsCount)
    (path : List Char) :
    (∃ e, execveHandleScript hdr newArgv argv = .error e) ∨
      Continues elfRawHeaderSize userappMaxArgsCount path
        (interpreter hdr :: ((argument hdr).toList ++ path :: argv.tail)) (execveHandleScript hdr newArgv argv) ↔
    userappMaxArgsCount - 2 < argv.length ∨ Handled newArgv argv ((line hdr).dropWhile isWord) := by
  obtain ⟨pre, c, rest, hbuf, hstart, hlast, hlen'⟩ := line_spec hlen
  have hline : line hdr = c :: rest := by rw [line, hstart, hbuf, List.drop_left]
  unfold execveHandleScript
  dsimp only
  by_cases hmax : userappMaxArgsCount - 2 < argv.length
  · exact iff_of_true (.inl ⟨_, if_pos hmax⟩) (.inl hmax)
  rw [if_neg hmax, hstart, hbuf, List.drop_left, or_iff_right hmax]
  dsimp only
  by_cases hc : c = nul
  · have hdrop : (line hdr).dropWhile isWord = nul :: rest := by simp [hline, hc, isWord]
    refine iff_of_true (.inl ⟨_, if_pos hc⟩) ?_
    rw [hdrop]
    trivial
  rw [if_neg hc]
  -- the line up to the first character that is not of the interpreter's name
  obtain ⟨w, d, r, hw, hword, hd, htake, hdrop⟩ := @exists_stop (c :: rest) isWord
    ⟨nul, List.mem_of_getLast? hlast, by decide⟩
  rw [← hline] at htake hdrop
  have hinterp : interpreter hdr = w := htake
  simp only [isWord, decide_eq_true_eq] at hword
  have hnul : ∀ c ∈ w, c ≠ nul := fun c hc => (hword c hc).2.2
  rw [hw, List.length_append, List.length_cons] at hlen'
  rw [hw, scan_skip (fun c hc => ⟨(hword c hc).2.2, (hword c hc).2.1, fun h => absurd h (hword c hc).1⟩) (by omega)]
  have hsize : (pre ++ (w ++ d :: r)).length = elfRawHeaderSize := by simpa using hlen'
  rw [hinterp, hdrop]
  by_cases hdn : d = nul
  · subst hdn
    exact iff_of_true (.inl ⟨_, by rw [scan.eq_def]; exact if_pos (.inl rfl)⟩) trivial
  by_cases hend : d = '\n'
  · subst hend
    have harg : argument hdr = none := by simp [argument, hdrop]
    rw [harg, Option.toList_none, List.nil_append, Handled]
    cases argv with
    | nil =>
      obtain ⟨x, y, post, rfl⟩ : ∃ x y l, newArgv = x :: y :: l := by
        match newArgv, hslots with
        | x :: y :: l, _ => exact ⟨x, y, l, rfl⟩
      have h := @scan_newline_nil post pre w r hnul (by omega) x y path
      have hcount : post.length + 2 = userappMaxArgsCount := hslots
      rw [hsize, hcount] at h
      have hhead : post.head? = some .null ↔ (x :: y :: post)[2]? = some .null := by cases post <;> simp
      exact h.trans (hhead.trans ⟨fun h _ => h, fun h => h rfl⟩)
    | cons a argv =>
      simp only [userappMaxArgsCount, List.length_cons] at hmax hslots
      have h := @scan_newline newArgv argv pre w r a hnul (by omega) (by omega) path
      rw [hsize, hslots] at h
      exact iff_of_true (.inr h) fun h => by cases h
  · obtain rfl : d = ' ' := by simpa [isWord, hdn, hend] using hd
    have harg : argument hdr = some (r.takeWhile fun c => c ≠ '\n' ∧ c ≠ nul) := by simp [argument, hdrop]
    have hr : r ≠ [] := by
      rintro rfl
      rw [hw] at hlast
      simp [nul] at hlast
    have hrlen := List.length_pos_iff.mpr hr
    rw [hw, List.getLast?_append, List.getLast?_cons_of_ne_nil hr, List.getLast?_eq_some_getLast hr, Option.some_or,
      ← List.getLast?_eq_some_getLast] at hlast
    rw [harg, Option.toList_some, List.singleton_append, Handled]
    by_cases hone : r.length = 1
    · -- the loop goes on behind the terminator
      obtain ⟨c', rfl⟩ := List.length_eq_one_iff.mp hone
      obtain rfl : c' = nul := by simpa using hlast
      have hput : put newArgv 0 (.hdr pre.length) = some (newArgv.set 0 (.hdr pre.length)) :=
        if_pos (by rw [hslots]; decide)
      have hout : scan pre.length argv [' ', nul] (pre.length + w.length) ⟨pre ++ (w ++ [' ', nul]), newArgv, 0, none⟩ =
          .outside := by
        rw [scan.eq_def]
        dsimp only
        rw [if_neg (by simp [nul]; omega), if_pos ⟨rfl, rfl⟩, hput]
        dsimp only
        rw [if_neg (by decide), scan]
      rw [hout]
      refine iff_of_false ?_ fun h => h.1 hone
      rintro (⟨e, he⟩ | ⟨hdr, newArgv, heq, -⟩)
      · cases he
      · cases heq
    · have h := @scan_argument newArgv argv pre w r hnul hsize (by omega) hlast hslots (not_lt.mp hmax) path
      exact h.trans (and_iff_right hone).symm

/-- `#!/s -x`, called as `./t a`, and without a newline and with 30 arguments. -/
theorem execveHandleScript_argv_sh :
    let line := ['#', '!', '/', 's', ' ', '-', 'x']
    let slots := List.replicate 32 Slot.stale
    Continues elfRawHeaderSize userappMaxArgsCount ['t'] [['/', 's'], ['-', 'x'], ['t'], ['a']]
      (execveHandleScript (line ++ '\n' :: List.replicate 120 nul) slots [['.', '/', 't'], ['a']]) ∧
    ∃ e, execveHandleScript (line ++ List.replicate 121 nul) slots (List.replicate 30 ['a']) = .error e := by
  refine ⟨((execveHandleScript_argv (by rfl) (by rfl) ['t']).2 (by decide +kernel)).resolve_left ?_,
    ((execveHandleScript_argv (by rfl) (by rfl) ['t']).2 (by decide +kernel)).resolve_right ?_⟩
  · rintro ⟨e, he⟩
    cases he
  · rintro ⟨hdr, newArgv, heq, -⟩
    cases heq

/-- With 30 arguments and one for the interpreter the `NULL` is written behind the vector; without an `argv[0]` there is no
`NULL` in the vector, if there was none; and the loop reads behind a header with the first space at the end. -/
theorem execveHandleScript_outside :
    let line := ['#', '!', '/', 's', ' ', '-', 'x', '\n'] ++ List.replicate 120 nul
    let slots := List.replicate 32 Slot.stale
    execveHandleScript line slots (List.replicate 30 ['a']) = .outside ∧
      (∃ hdr newArgv, execveHandleScript line slots [] = .exec hdr newArgv ∧ vector newArgv = none) ∧
      execveHandleScript (['#', '!'] ++ List.replicate 124 'x' ++ [' ', 'x']) slots [['a']] = .outside :=
  ⟨by decide, ⟨_, _, rfl, by decide⟩, by decide +kernel⟩

end Result

end Usax.Exec
