import Mathlib.Data.List.DropRight
import Usax.Fat.Base

/-!
# Long names

What `fat_walk` makes of the long entries of a directory. The specification of FAT puts a long name in entries of 13
characters before the entry of its file, the last part first (`longEntries`). A directory holds some files if its entries are
those of the files, one after the other, with any deleted or orphaned entries between them (`Holds`).

The walk puts the characters of all long entries in its buffer, deleted ones as well, and starts again only when the checksum is
another one. So what it has at a file is the text of the long entries that come before it in a row with the checksum of the
file (`LongNameCtx.Fresh.after`, `LongNameCtx.Fresh.nameOf`). That is its own name if the row has nothing before its own entries
and all characters are valid (`nameAt_longEntries`).
-/

namespace Usax.Fat

/-! ## The format -/

def legalChar (c : UInt8) : Bool := 31 < c && c < 127 && !([34, 42, 47, 58, 60, 62, 63, 92, 124] : List UInt8).contains c

structure LongName where
  chars : List UInt8
  ne_nil : chars ≠ []
  length_le : chars.length ≤ 255
  legal : ∀ c ∈ chars, legalChar c = true

/-- The 13 units of a part of a name: its characters, a NUL if there is room for one, and padding. -/
def nameUnits (cs : List UInt8) : List (UInt8 × UInt8) :=
  cs.map (·, 0) ++ ((0, 0) :: List.replicate 12 (0xFF, 0xFF)).take (13 - cs.length)

def longEntry (ord chksum : UInt8) (us : List (UInt8 × UInt8)) : FatEntry :=
  let u (i : Nat) := us.getD i (0, 0)
  ⟨#v[ord, (u 0).1, (u 0).2, (u 1).1, (u 1).2, (u 2).1, (u 2).2, (u 3).1, (u 3).2, (u 4).1, (u 4).2, 0x0F, 0, chksum,
    (u 5).1, (u 5).2, (u 6).1, (u 6).2, (u 7).1, (u 7).2, (u 8).1, (u 8).2, (u 9).1, (u 9).2, (u 10).1, (u 10).2, 0, 0,
    (u 11).1, (u 11).2, (u 12).1, (u 12).2]⟩

def LongName.count (n : LongName) : Nat := (n.chars.length + 12) / 13

/-- The long entries of a name, the last part first; its ordinal has a mark. -/
def LongName.longEntries (n : LongName) (chksum : UInt8) : List FatEntry :=
  (List.range n.count).reverse.map fun k =>
    longEntry (UInt8.ofNat (k + 1) ||| if k + 1 = n.count then 0x40 else 0) chksum
      (nameUnits ((n.chars.drop (13 * k)).take 13))

namespace FatEntry

variable (e : FatEntry)

def units : List (UInt8 × UInt8) := e.ldirName1 ++ e.ldirName2 ++ e.ldirName3

def chars : Option (List UInt8) := entryChars e.units

def live : Bool := !e.isLongNameEntry && !e.volumeId && !e.available && !e.last

def skipped : Bool := e.isLongNameEntry || e.volumeId || e.available

def checksum : UInt8 := shortnameChecksum e.dirName

end FatEntry

/-- A file of a directory: where its entry is, the entry, and its long name. -/
structure DirFile where
  off : Nat
  entry : FatEntry
  lname : Option LongName

def DirFile.longEntries (f : DirFile) : List FatEntry := f.lname.elim [] fun n => n.longEntries f.entry.checksum

/-- The directory ends here: there is nothing more, or an entry that says so. -/
def Ends (l : List Slot) : Prop := ∀ s ∈ l.head?, s.2.skipped = false ∧ s.2.last = true

/-- The slots hold the files, with deleted, orphaned and volume entries between them. -/
inductive Holds : List Slot → List DirFile → Prop
  | done {l : List Slot} : Ends l → Holds l []
  | skip {off : Nat} {e : FatEntry} {l : List Slot} {fs : List DirFile} : e.skipped = true → Holds l fs →
      Holds ((off, e) :: l) fs
  | file {own l : List Slot} {f : DirFile} {fs : List DirFile} : f.entry.live = true → own.map Prod.snd = f.longEntries →
      Holds l fs → Holds (own ++ (f.off, f.entry) :: l) (f :: fs)

/-! ## Text -/

section

variable {c : UInt8} {cs : List UInt8} {us : List (UInt8 × UInt8)} {e x : FatEntry} {l r : List FatEntry}

theorem forall_byte {P : UInt8 → Prop} (h : ∀ i : Fin 256, P (UInt8.ofFin i)) (c : UInt8) : P c := h c.toFin

/-- What `fat_walk` takes for valid is legal; it does not take the space and the exclamation mark. -/
theorem valid_iff : fat32IsValidFilenameCharacter c = true ↔ legalChar c = true ∧ c ≠ 32 ∧ c ≠ 33 :=
  forall_byte (P := fun c => fat32IsValidFilenameCharacter c = true ↔ legalChar c = true ∧ c ≠ 32 ∧ c ≠ 33)
    (by decide +kernel) c

theorem legalChar_bounds (h : legalChar c = true) : c ≠ 0 ∧ c ≠ 0xFF :=
  forall_byte (P := fun c => legalChar c = true → c ≠ 0 ∧ c ≠ 0xFF) (by decide +kernel) c h

theorem entryChars_append (h : ∀ c ∈ cs, legalChar c = true) :
    entryChars (cs.map (·, 0) ++ us) = (entryChars us).map (cs ++ ·) := by
  induction cs with
  | nil => simp
  | cons c cs ih =>
    obtain ⟨hc, h⟩ := List.forall_mem_cons.mp h
    obtain ⟨h0, h1⟩ := legalChar_bounds hc
    simp [entryChars, h0, h1, ih h, Function.comp_def]

theorem entryChars_nameUnits (h : ∀ c ∈ cs, legalChar c = true) : entryChars (nameUnits cs) = some cs := by
  unfold nameUnits
  rw [entryChars_append h]
  cases 13 - cs.length <;> simp [entryChars]

theorem length_nameUnits (h : cs.length ≤ 13) : (nameUnits cs).length = 13 := by
  simp [nameUnits]
  omega

theorem units_longEntry (ord chksum : UInt8) (h : us.length = 13) : (longEntry ord chksum us).units = us := by
  match us, h with
  | [_, _, _, _, _, _, _, _, _, _, _, _, _], _ => rfl

theorem isLongNameEntry_longEntry (ord chksum : UInt8) (us : List (UInt8 × UInt8)) :
    (longEntry ord chksum us).isLongNameEntry = true := by
  have ha : (longEntry ord chksum us).attr = 0x0F := rfl
  unfold FatEntry.isLongNameEntry FatEntry.readonly FatEntry.hidden FatEntry.system FatEntry.volumeId
  rw [ha]
  decide

theorem chars_longEntry (ord chksum : UInt8) (hl : cs.length ≤ 13) (h : ∀ c ∈ cs, legalChar c = true) :
    (longEntry ord chksum (nameUnits cs)).chars = some cs := by
  unfold FatEntry.chars
  rw [units_longEntry ord chksum (length_nameUnits hl)]
  exact entryChars_nameUnits h

def FatEntry.Plain (e : FatEntry) : Prop := ∃ cs, e.chars = some cs ∧ ∀ c ∈ cs, fat32IsValidFilenameCharacter c = true

/-- The buffer, and if it is valid, after one more entry of the same checksum. -/
def rowStep (t : List UInt8 × Bool) (x : FatEntry) : List UInt8 × Bool :=
  if t.2 = false then t
  else match x.chars with
    | none => (t.1, false)
    | some cs => (t.1 ++ cs.reverse.takeWhile fat32IsValidFilenameCharacter, cs.all fat32IsValidFilenameCharacter)

/-- The buffer after a row of entries of the same checksum. -/
def rowText (r : List FatEntry) : List UInt8 × Bool := r.foldl rowStep ([], true)

/-- The entries with a checksum at the end of a list, in a row. -/
def row (c : UInt8) (l : List FatEntry) : List FatEntry := l.rtakeWhile fun x => x.ldirChksum = c

theorem row_concat_of_eq (h : x.ldirChksum = c) : row c (l ++ [x]) = row c l ++ [x] :=
  List.rtakeWhile_concat_pos _ l x (decide_eq_true h)

theorem row_concat_of_ne (h : x.ldirChksum ≠ c) : row c (l ++ [x]) = [] :=
  List.rtakeWhile_concat_neg _ l x (by simpa using h)

theorem row_eq_nil (h : l.getLast?.map FatEntry.ldirChksum ≠ some c) : row c l = [] := by
  induction l using List.reverseRecOn with
  | nil => rfl
  | append_singleton l x _ => exact row_concat_of_ne fun hx => h (by simp [hx])

theorem row_append (h : ∀ x ∈ r, x.ldirChksum = c) : row c (l ++ r) = row c l ++ r := by
  induction r using List.reverseRecOn with
  | nil => simp
  | append_singleton r x ih =>
    rw [← List.append_assoc, row_concat_of_eq (h x (by simp)), ih fun y hy => h y (by simp [hy]), List.append_assoc]

theorem rowStep_plain (b : List UInt8) (h : x.chars = some cs) (hv : ∀ c ∈ cs, fat32IsValidFilenameCharacter c = true) :
    rowStep (b, true) x = (b ++ cs.reverse, true) := by
  have ht : cs.reverse.takeWhile fat32IsValidFilenameCharacter = cs.reverse :=
    List.takeWhile_eq_self_iff.mpr fun c hc => hv c (List.mem_reverse.mp hc)
  have ha : cs.all fat32IsValidFilenameCharacter = true := List.all_eq_true.mpr hv
  simp [rowStep, h, ht, ha]

theorem rowStep_not_plain (b : List UInt8) (h : ¬ x.Plain) : (rowStep (b, true) x).2 = false := by
  unfold rowStep
  cases hx : x.chars with
  | none => simp
  | some cs =>
    have : ¬ ∀ c ∈ cs, fat32IsValidFilenameCharacter c = true := fun hv => h ⟨cs, hx, hv⟩
    simpa using this

theorem foldl_rowStep_invalid (b : List UInt8) : r.foldl rowStep (b, false) = (b, false) := by
  induction r with
  | nil => rfl
  | cons x r ih => exact ih

theorem foldl_rowStep (r : List FatEntry) (b : List UInt8) :
    ((∀ x ∈ r, x.Plain) ∧ r.foldl rowStep (b, true) = (b ++ r.flatMap fun x => (x.chars.getD []).reverse, true)) ∨
      (¬ ∀ x ∈ r, x.Plain) ∧ (r.foldl rowStep (b, true)).2 = false := by
  induction r generalizing b with
  | nil => exact .inl ⟨by simp, by simp⟩
  | cons x r ih =>
    rw [List.foldl_cons]
    by_cases hx : x.Plain
    · obtain ⟨cs, hcs, hv⟩ := hx
      rw [rowStep_plain b hcs hv]
      refine (ih (b ++ cs.reverse)).imp (fun h => ⟨?_, ?_⟩) fun h => ⟨?_, h.2⟩
      · exact List.forall_mem_cons.mpr ⟨⟨cs, hcs, hv⟩, h.1⟩
      · rw [h.2, List.flatMap_cons, hcs, List.append_assoc]
        rfl
      · exact fun hall => h.1 (List.forall_mem_cons.mp hall).2
    · refine .inr ⟨fun hall => hx (List.forall_mem_cons.mp hall).1, ?_⟩
      have hf := rowStep_not_plain b hx
      rw [show rowStep (b, true) x = ((rowStep (b, true) x).1, false) from Prod.ext rfl hf, foldl_rowStep_invalid]

/-! ## The context -/

variable {ctx : LongNameCtx}

def LongNameCtx.Sound (ctx : LongNameCtx) : Prop := lnameBufSize < ctx.lnameBuf.length → ctx.fault = true

theorem LongNameCtx.Sound.fault_eq (h : ctx.Sound) :
    (ctx.fault || decide (lnameBufSize < ctx.lnameBuf.length)) = ctx.fault := by
  by_cases hlt : lnameBufSize < ctx.lnameBuf.length
  · simp [h hlt]
  · simp [hlt]

theorem push_eq (h : ctx.Sound) (hv : ctx.isValid = true) (cs : List UInt8) :
    ctx.push cs = { ctx with
      lnameBuf := ctx.lnameBuf ++ cs.takeWhile fat32IsValidFilenameCharacter
      isValid := cs.all fat32IsValidFilenameCharacter
      fault := ctx.fault || lnameBufSize < (ctx.lnameBuf ++ cs.takeWhile fat32IsValidFilenameCharacter).length } := by
  induction cs generalizing ctx with
  | nil =>
    have hf := h.fault_eq
    cases ctx
    subst hv
    simpa [LongNameCtx.push] using hf.symm
  | cons c cs ih =>
    unfold LongNameCtx.push
    by_cases hc : fat32IsValidFilenameCharacter c = true
    · have hsound : ({ ctx with
          lnameBuf := ctx.lnameBuf ++ [c]
          fault := ctx.fault || lnameBufSize ≤ ctx.lnameBuf.length } : LongNameCtx).Sound := fun hlt => by
        simp only [List.length_append, List.length_singleton] at hlt
        simp [show lnameBufSize ≤ ctx.lnameBuf.length by omega]
      rw [if_neg (by simp [hc]), ih hsound hv]
      simp only [List.takeWhile_cons, hc, if_true, List.all_cons, Bool.true_and, List.append_assoc, List.singleton_append,
        LongNameCtx.mk.injEq, true_and]
      rw [Bool.or_assoc]
      congr 1
      simp only [List.length_append, List.length_cons, ← Bool.decide_or]
      congr 1
      exact propext ⟨fun h => by omega, fun h => by omega⟩
    · have hf := h.fault_eq
      simp [hc, hf]

theorem fatHandleLongDirEntry_eq (h : ctx.Sound) (x : FatEntry) {t : List UInt8 × Bool}
    (ht : rowStep ((ctx.restart x.ldirChksum).lnameBuf, (ctx.restart x.ldirChksum).isValid) x = t) :
    fatHandleLongDirEntry ctx x = ⟨t.2, t.1, some x.ldirChksum, ctx.fault || lnameBufSize < t.1.length⟩ := by
  have hr : (ctx.restart x.ldirChksum).lnameChksum = some x.ldirChksum ∧ (ctx.restart x.ldirChksum).Sound ∧
      (ctx.restart x.ldirChksum).fault = ctx.fault := by
    unfold LongNameCtx.restart
    split_ifs with hc
    · exact ⟨rfl, fun hlt => (by simp [lnameBufSize] at hlt), rfl⟩
    · exact ⟨not_not.mp hc, h, rfl⟩
  have hdef : fatHandleLongDirEntry ctx x =
      if (ctx.restart x.ldirChksum).isValid = false then ctx.restart x.ldirChksum
      else match x.chars with
        | none => { ctx.restart x.ldirChksum with isValid := false }
        | some cs => (ctx.restart x.ldirChksum).push cs.reverse := rfl
  rw [hdef]
  generalize ctx.restart x.ldirChksum = ctx' at hr ht
  obtain ⟨hchk, hs, hfault⟩ := hr
  have hf := hs.fault_eq
  rw [← hfault, ← hchk, ← ht]
  unfold rowStep
  by_cases hv : ctx'.isValid = false
  · simp only [hv, if_true]
    cases ctx'
    simp only at hv hf
    simp [hv, hf]
  · rw [if_neg hv, if_neg hv]
    cases x.chars with
    | none => simp [hf]
    | some cs => simp [push_eq hs (by simpa using hv)]

structure LongNameCtx.Fresh (ctx : LongNameCtx) : Prop where
  buf : ctx.lnameBuf = []
  chksum : ctx.lnameChksum = none
  fault : ctx.fault = false

def LongNameCtx.after (ctx : LongNameCtx) (l : List FatEntry) : LongNameCtx := l.foldl fatHandleLongDirEntry ctx

/-- No row of entries has more characters than the buffer has room for. -/
def RowsFit (l : List FatEntry) : Prop := ∀ p, p <+: l → ∀ c, (rowText (row c p)).1.length ≤ lnameBufSize

theorem rowsFit_concat :
    RowsFit (l ++ [x]) ↔ RowsFit l ∧ (rowText (row x.ldirChksum (l ++ [x]))).1.length ≤ lnameBufSize := by
  constructor
  · exact fun h => ⟨fun p hp => h p (hp.trans (List.prefix_append l [x])), h _ List.prefix_rfl _⟩
  · rintro ⟨h, hx⟩ p hp c
    rcases List.prefix_concat_iff.mp hp with rfl | hp
    · by_cases hc : x.ldirChksum = c
      · exact hc ▸ hx
      · rw [row_concat_of_ne hc]
        exact Nat.zero_le _
    · exact h p hp c

/-- What the context is after some long entries: the checksum of the last one, the text of the row at the end, and a fault if a
row did not fit. -/
theorem LongNameCtx.Fresh.after (h : ctx.Fresh) (l : List FatEntry) :
    (ctx.after l).Sound ∧ (ctx.after l).lnameChksum = l.getLast?.map FatEntry.ldirChksum ∧
      (∀ c, (ctx.after l).lnameChksum = some c → ((ctx.after l).lnameBuf, (ctx.after l).isValid) = rowText (row c l)) ∧
      ((ctx.after l).lnameChksum = none → (ctx.after l).lnameBuf = []) ∧ ((ctx.after l).fault = false ↔ RowsFit l) := by
  induction l using List.reverseRecOn with
  | nil =>
    refine ⟨fun hlt => ?_, h.chksum, fun c hc => ?_, fun _ => h.buf, fun _ p hp c => ?_, fun _ => h.fault⟩
    · simp [LongNameCtx.after, h.buf] at hlt
    · exact absurd (h.chksum.symm.trans hc) (by simp)
    · rw [List.prefix_nil.mp hp]
      exact Nat.zero_le _
  | append_singleton l x ih =>
    obtain ⟨hs, hchk, htext, hnone, hfit⟩ := ih
    have hstep : ctx.after (l ++ [x]) = fatHandleLongDirEntry (ctx.after l) x := by simp [LongNameCtx.after]
    have hrow : rowStep (((ctx.after l).restart x.ldirChksum).lnameBuf, ((ctx.after l).restart x.ldirChksum).isValid) x =
        rowText (row x.ldirChksum (l ++ [x])) := by
      rw [row_concat_of_eq rfl]
      unfold LongNameCtx.restart rowText
      rw [List.foldl_append]
      split_ifs with hc
      · rw [row_eq_nil (hchk ▸ hc)]
        rfl
      · rw [htext _ (not_not.mp hc)]
        rfl
    rw [hstep, fatHandleLongDirEntry_eq hs x hrow, rowsFit_concat]
    refine ⟨?_, ?_, ?_, ?_, ?_⟩
    · intro hlt
      simp only at hlt
      simp [hlt]
    · simp
    · rintro c hc
      obtain rfl := Option.some.inj hc
      rfl
    · simp
    · rw [← hfit]
      simp

def nameAt (c : UInt8) (l : List FatEntry) : Option (List UInt8) :=
  if (rowText (row c l)).1 ≠ [] ∧ (rowText (row c l)).2 = true then some (rowText (row c l)).1.reverse else none

theorem LongNameCtx.Fresh.nameOf (h : ctx.Fresh) (l : List FatEntry) (e : FatEntry) :
    ((ctx.after l).nameOf e).2 = nameAt e.checksum l ∧
      ((ctx.after l).nameOf e).1.fault =
        ((ctx.after l).fault || (nameAt e.checksum l).any fun n => lnameBufSize ≤ n.length) := by
  obtain ⟨-, hchk, htext, hnone, -⟩ := h.after l
  by_cases hc : (ctx.after l).lnameChksum = some e.checksum
  · have ht := htext _ hc
    have hb : (ctx.after l).lnameBuf = (rowText (row e.checksum l)).1 := congrArg Prod.fst ht
    have hv : (ctx.after l).isValid = (rowText (row e.checksum l)).2 := congrArg Prod.snd ht
    unfold LongNameCtx.nameOf finalizeLongName nameAt
    rw [hb, hv, show shortnameChecksum e.dirName = e.checksum from rfl, if_pos hc]
    simp only [List.length_pos_iff]
    split_ifs <;> simp
  · have hrow : row e.checksum l = [] := row_eq_nil (hchk ▸ hc)
    have hn : nameAt e.checksum l = none := by simp [nameAt, hrow, rowText]
    unfold LongNameCtx.nameOf finalizeLongName
    rw [show shortnameChecksum e.dirName = e.checksum from rfl, if_neg hc, hn]
    simp

/-! ## Names -/

def Spells (r : List FatEntry) : Prop := (∀ x ∈ r, x.Plain) ∧ ∃ x ∈ r, x.chars ≠ some []

theorem flatMap_eq_nil_of_plain (h : ∀ x ∈ r, x.Plain) :
    (r.flatMap fun x => (x.chars.getD []).reverse) = [] ↔ ∀ x ∈ r, x.chars = some [] := by
  rw [List.flatMap_eq_nil_iff]
  refine forall₂_congr fun x hx => ?_
  obtain ⟨cs, hcs, -⟩ := h x hx
  simp [hcs]

theorem nameAt_eq_none : nameAt c l = none ↔ ¬ Spells (row c l) := by
  unfold nameAt Spells rowText
  rcases foldl_rowStep (row c l) [] with ⟨hp, ht⟩ | ⟨hp, ht⟩
  · have hnil := flatMap_eq_nil_of_plain hp
    rw [ht, List.nil_append]
    simp only [ne_eq, and_true, ite_eq_right_iff, reduceCtorEq, imp_false, not_not, hnil]
    push Not
    exact ⟨fun h _ => h, fun h => h hp⟩
  · simp [ht, hp]

theorem flatMap_parts (m : Nat) (cs : List UInt8) (h : cs.length ≤ 13 * m) :
    ((List.range m).reverse.flatMap fun k => ((cs.drop (13 * k)).take 13).reverse) = cs.reverse := by
  induction m generalizing cs with
  | zero => simp [List.eq_nil_of_length_eq_zero (by omega : cs.length = 0)]
  | succ m ih =>
    have hlast : (cs.drop (13 * m)).take 13 = cs.drop (13 * m) := List.take_of_length_le (by simp; omega)
    have hinit : ((List.range m).reverse.flatMap fun k => ((cs.drop (13 * k)).take 13).reverse) =
        (cs.take (13 * m)).reverse := by
      rw [← ih (cs.take (13 * m)) (List.length_take_le _ _)]
      refine List.flatMap_congr fun k hk => ?_
      have hk : k < m := by simpa using hk
      rw [List.drop_take, List.take_take, Nat.min_eq_left (by omega)]
    rw [List.range_succ, List.reverse_append, List.reverse_singleton, List.singleton_append, List.flatMap_cons, hlast, hinit,
      ← List.reverse_append, List.take_append_drop]

variable {n : LongName}

theorem LongName.mem_longEntries (hx : x ∈ n.longEntries c) :
    x.isLongNameEntry = true ∧ x.ldirChksum = c ∧ ∃ k, x.chars = some ((n.chars.drop (13 * k)).take 13) := by
  obtain ⟨k, -, rfl⟩ := List.mem_map.mp hx
  refine ⟨isLongNameEntry_longEntry .., rfl, k, chars_longEntry _ _ (List.length_take_le _ _) fun c hc => ?_⟩
  exact n.legal c (List.mem_of_mem_drop (List.mem_of_mem_take hc))

theorem LongName.flatMap_longEntries (n : LongName) (c : UInt8) :
    ((n.longEntries c).flatMap fun x => (x.chars.getD []).reverse) = n.chars.reverse := by
  unfold LongName.longEntries
  rw [List.flatMap_map, ← flatMap_parts n.count n.chars (by unfold LongName.count; omega)]
  refine List.flatMap_congr fun k _ => ?_
  rw [chars_longEntry _ _ (List.length_take_le _ _) fun c hc => n.legal c (List.mem_of_mem_drop (List.mem_of_mem_take hc))]
  rfl

theorem LongName.plain_longEntries (n : LongName) (c : UInt8) :
    (∀ x ∈ n.longEntries c, x.Plain) ↔ ∀ ch ∈ n.chars, ch ≠ 32 ∧ ch ≠ 33 := by
  constructor
  · intro h ch hch
    rw [← List.mem_reverse, ← n.flatMap_longEntries c, List.mem_flatMap] at hch
    obtain ⟨x, hx, hch⟩ := hch
    obtain ⟨cs, hcs, hv⟩ := h x hx
    rw [hcs, Option.getD_some, List.mem_reverse] at hch
    exact (valid_iff.mp (hv ch hch)).2
  · intro h x hx
    obtain ⟨-, -, k, hcs⟩ := LongName.mem_longEntries hx
    refine ⟨_, hcs, fun ch hch => ?_⟩
    have hmem := List.mem_of_mem_drop (List.mem_of_mem_take hch)
    exact valid_iff.mpr ⟨n.legal ch hmem, h ch hmem⟩

theorem nameAt_longEntries : nameAt c (l ++ n.longEntries c) = some n.chars ↔
    (∀ x ∈ row c l, x.chars = some []) ∧ ∀ ch ∈ n.chars, ch ≠ 32 ∧ ch ≠ 33 := by
  have hrow : row c (l ++ n.longEntries c) = row c l ++ n.longEntries c :=
    row_append fun x hx => (LongName.mem_longEntries hx).2.1
  have hall : (∀ x ∈ row c l ++ n.longEntries c, x.Plain) ↔
      (∀ x ∈ row c l, x.Plain) ∧ ∀ ch ∈ n.chars, ch ≠ 32 ∧ ch ≠ 33 := by
    rw [List.forall_mem_append, LongName.plain_longEntries]
  unfold nameAt rowText
  rw [hrow]
  rcases foldl_rowStep (row c l ++ n.longEntries c) [] with ⟨hp, ht⟩ | ⟨hp, ht⟩
  · obtain ⟨hp, hch⟩ := hall.mp hp
    rw [ht, List.nil_append, List.flatMap_append, n.flatMap_longEntries, if_pos ⟨by simp [n.ne_nil], rfl⟩, Option.some_inj,
      List.reverse_append, List.reverse_reverse, List.append_right_eq_self, List.reverse_eq_nil_iff,
      flatMap_eq_nil_of_plain hp]
    exact ⟨fun h => ⟨h, hch⟩, fun h => h.1⟩
  · rw [if_neg fun h => by rw [ht] at h; exact absurd h.2 (by decide)]
    refine iff_of_false (by simp) fun h => hp (hall.mpr ⟨fun x hx => ⟨[], h.1 x hx, by simp⟩, h.2⟩)

end

end Usax.Fat
