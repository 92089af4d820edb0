import Usax.Bintree.Avl
import Usax.Fs.Ramfs

/-!
# The name buffers of ramfs

`ramfs_dir_get_entry_by_name` and `ramfs_dir_add_entry` with the bytes of the names. The name of an entry is an array of
`RAMFS_ENTRY_MAX_LEN` bytes, and so is the buffer that a component is copied to before it is looked up. An entry in a
directory has its terminator inside its array (`NameBuf`), so that `strcmp` of two entries stays in them.

- `strcmp_ok`, `eq_of_strcmp`: what is compared up to the terminators;
- `getEntryByName_spec`, `addEntry_spec`: the two functions;
- `entryNames_exact`: neither leaves a buffer, nor finds or makes another name than the one it is given.
-/

namespace Usax.Fs.EntryNames

open Common

/-- An access outside a name, or to the stack of slots of the tree behind its end. -/
inductive Fault
  | nameBuf | pathStack
deriving DecidableEq, Repr

/-! ## Bytes -/

def memcpy (buf src : List UInt8) : Except Fault (List UInt8) :=
  if src.length ≤ buf.length then .ok (src ++ buf.drop src.length) else .error .nameBuf

/-- `buf[i] = c`. -/
def store (buf : List UInt8) (i : Nat) (c : UInt8) : Except Fault (List UInt8) :=
  if i < buf.length then .ok (buf.set i c) else .error .nameBuf

/-- `buf[i]`. -/
def load (buf : List UInt8) (i : Nat) : Except Fault UInt8 :=
  if i < buf.length then .ok (buf.getD i 0) else .error .nameBuf

/-- `strcmp`, with signed characters. -/
def strcmp : List UInt8 → List UInt8 → Except Fault Int
  | a :: s1, b :: s2 => if a ≠ 0 ∧ a = b then strcmp s1 s2 else .ok (a.toInt8.toInt - b.toInt8.toInt)
  | _, _ => .error .nameBuf

def cstr (buf : List UInt8) : List UInt8 := buf.takeWhile (· ≠ 0)

theorem cstr_append {s : List UInt8} (hs : 0 ∉ s) (rest : List UInt8) : cstr (s ++ 0 :: rest) = s := by
  have hall : ∀ c ∈ s, decide (c ≠ 0) = true := fun c hc => decide_eq_true fun h => hs (h ▸ hc)
  rw [cstr, List.takeWhile_append_of_pos hall, List.takeWhile_cons_of_neg (by simp), List.append_nil]

theorem strcmp_ok {a b : List UInt8} (ha : 0 ∈ a) (hb : 0 ∈ b) : ∃ d, strcmp a b = .ok d := by
  induction a generalizing b with
  | nil => simp at ha
  | cons x a ih =>
    cases b with
    | nil => simp at hb
    | cons y b =>
      rw [strcmp]
      by_cases hxy : x ≠ 0 ∧ x = y
      · obtain ⟨hx, rfl⟩ := hxy
        rw [if_pos ⟨hx, rfl⟩]
        exact ih ((List.mem_cons.mp ha).resolve_left (Ne.symm hx)) ((List.mem_cons.mp hb).resolve_left (Ne.symm hx))
      · exact ⟨_, if_neg hxy⟩

theorem eq_of_toInt8 {x y : UInt8} (h : x.toInt8.toInt - y.toInt8.toInt = 0) : x = y := by
  have hint : x.toInt8 = y.toInt8 := Int8.toInt_inj.mp (by omega)
  simpa using congrArg Int8.toUInt8 hint

theorem eq_of_strcmp {a b : List UInt8} (h : strcmp a b = .ok 0) : cstr a = cstr b := by
  induction a generalizing b with
  | nil => exact nomatch h
  | cons x a ih =>
    cases b with
    | nil => exact nomatch h
    | cons y b =>
      rw [strcmp] at h
      by_cases hxy : x ≠ 0 ∧ x = y
      · obtain ⟨hx, rfl⟩ := hxy
        rw [if_pos ⟨hx, rfl⟩] at h
        have hrest := ih h
        simp only [cstr] at hrest ⊢
        rw [List.takeWhile_cons_of_pos (by simpa using hx), List.takeWhile_cons_of_pos (by simpa using hx), hrest]
      · rw [if_neg hxy] at h
        obtain rfl : x = y := eq_of_toInt8 (Except.ok.inj h)
        have hx : x = 0 := by
          by_contra hne
          exact hxy ⟨hne, rfl⟩
        rw [cstr, cstr, hx, List.takeWhile_cons_of_neg (by simp), List.takeWhile_cons_of_neg (by simp)]

section
variable [Machine]

/-! ## Entries -/

abbrev Buf := { bytes : List UInt8 // bytes.length = ramfsEntryMaxLen }

structure NameBuf where
  bytes : List UInt8
  size : bytes.length = ramfsEntryMaxLen
  terminated : 0 ∈ bytes

def NameBuf.str (n : NameBuf) : List UInt8 := cstr n.bytes

/-- `strcmp` of two names, which both end in their arrays. -/
def NameBuf.cmp (a b : NameBuf) : Int := (strcmp a.bytes b.bytes).toOption.getD 0

structure RamfsEntry where
  inode : Nat
  nameLen : UInt8
  name : NameBuf

/-- A directory's `entries_tree_root`. -/
abbrev Dir := Bintree.Tree RamfsEntry

/-- A name that is compared has to end in its array. -/
def nameOf (bytes : List UInt8) : Except Fault NameBuf :=
  if h : bytes.length = ramfsEntryMaxLen ∧ 0 ∈ bytes then .ok ⟨bytes, h.1, h.2⟩ else .error .nameBuf

def findEntry (searched : List UInt8) : Dir → Except Fault (Option RamfsEntry)
  | .nil => .ok none
  | .node e _ l r =>
    (strcmp e.name.bytes searched).bind fun d =>
    if d = 0 then .ok (some e) else if d < 0 then findEntry searched r else findEntry searched l

/-- `ramfs_dir_get_entry_by_name`, with what is on the stack where the buffer is. -/
def ramfsDirGetEntryByName (idir : Dir) (name : List UInt8) (len : Nat) (stack : Buf) :
    Except Fault (Option RamfsEntry) := do
  let buf ← memcpy stack.val (name.take len)
  let buf ← store buf len 0
  findEntry buf idir

/-- `ramfs_dir_add_entry`, with the array in the object that `kalloc_obj` returns, if it does. -/
def ramfsDirAddEntry (idir : Dir) (iname : List UInt8) (ie : Nat) (obj : Option Buf) : Except Fault (Option Errno × Dir) :=
  let enl := iname.length + 1
  if enl = 1 then .ok (some .enoent, idir)
  else if enl > ramfsEntryMaxLen then .ok (some .enametoolong, idir)
  else match obj with
  | none => .ok (some .enospc, idir)
  | some array => do
    let bytes ← memcpy array.val (iname ++ [0])
    let last ← load bytes (enl - 2)
    let bytes ← (if last = 47 then store bytes (enl - 2) 0 else .ok bytes)
    let name ← nameOf bytes
    let e : RamfsEntry := ⟨ie, UInt8.ofNat (if last = 47 then enl - 1 else enl), name⟩
    match Bintree.insert (fun x => x.name.cmp e.name) e idir with
    | none => .error .pathStack
    | some (idir, _) => .ok (none, idir)

/-- `ramfs_dir_remove_entry`: what it does to the tree. -/
def ramfsDirRemoveEntry (idir : Dir) (e : RamfsEntry) : Except Fault Dir :=
  match Bintree.remove (fun x => x.name.cmp e.name) idir with
  | none => .error .pathStack
  | some (idir, _) => .ok idir

/-! ## Looking up -/

theorem findEntry_spec (searched : List UInt8) (h : 0 ∈ searched) (idir : Dir) :
    ∃ r, findEntry searched idir = .ok r ∧ ∀ e, r = some e → e ∈ idir.toList ∧ e.name.str = cstr searched := by
  induction idir with
  | nil => exact ⟨none, rfl, nofun⟩
  | node e _ l r ihl ihr =>
    obtain ⟨d, hd⟩ := strcmp_ok e.name.terminated h
    rw [findEntry, hd]
    show ∃ res, (if d = 0 then _ else _) = _ ∧ _
    split_ifs with hzero hneg
    · refine ⟨some e, rfl, fun e' he' => ?_⟩
      obtain rfl := Option.some.inj he'
      exact ⟨by simp [Bintree.Tree.toList], eq_of_strcmp (hzero ▸ hd)⟩
    · obtain ⟨res, hres, hin⟩ := ihr
      exact ⟨res, hres, fun e' he' => ⟨by simp [Bintree.Tree.toList, (hin e' he').1], (hin e' he').2⟩⟩
    · obtain ⟨res, hres, hin⟩ := ihl
      exact ⟨res, hres, fun e' he' => ⟨by simp [Bintree.Tree.toList, (hin e' he').1], (hin e' he').2⟩⟩

theorem getEntryByName_spec (idir : Dir) {comp : List UInt8} (hcomp : 0 ∉ comp) (hlen : comp.length < ramfsEntryMaxLen)
    (rest : List UInt8) (stack : Buf) :
    ∃ r, ramfsDirGetEntryByName idir (comp ++ rest) comp.length stack = .ok r ∧
      ∀ e, r = some e → e ∈ idir.toList ∧ e.name.str = comp := by
  have hbuf : (comp ++ stack.val.drop comp.length).length = ramfsEntryMaxLen := by
    rw [List.length_append, List.length_drop, stack.property]
    omega
  obtain ⟨c, tail, htail⟩ : ∃ c tail, stack.val.drop comp.length = c :: tail :=
    List.exists_cons_of_ne_nil (by rw [Ne, List.drop_eq_nil_iff, stack.property]; omega)
  have hset : (comp ++ stack.val.drop comp.length).set comp.length 0 = comp ++ 0 :: tail := by
    rw [htail, List.set_append_right _ _ le_rfl, Nat.sub_self, List.set_cons_zero]
  obtain ⟨r, hr, hin⟩ := findEntry_spec (comp ++ 0 :: tail) (by simp) idir
  refine ⟨r, ?_, fun e he => ⟨(hin e he).1, (hin e he).2.trans (cstr_append hcomp tail)⟩⟩
  have hcopy : memcpy stack.val ((comp ++ rest).take comp.length) = .ok (comp ++ stack.val.drop comp.length) := by
    rw [List.take_left, memcpy, if_pos (by rw [stack.property]; omega)]
  have hstore : store (comp ++ stack.val.drop comp.length) comp.length 0 = .ok (comp ++ 0 :: tail) := by
    rw [store, if_pos (by rw [hbuf]; exact hlen), hset]
  simp only [ramfsDirGetEntryByName, hcopy, hstore, bind, Except.bind, hr]

theorem getEntryByName_behind (idir : Dir) {comp : List UInt8} (hlen : ramfsEntryMaxLen ≤ comp.length)
    (rest : List UInt8) (stack : Buf) :
    ramfsDirGetEntryByName idir (comp ++ rest) comp.length stack = .error .nameBuf := by
  rw [ramfsDirGetEntryByName, List.take_left, memcpy, stack.property]
  by_cases hfit : comp.length ≤ ramfsEntryMaxLen
  · have hend : ¬ comp.length < (comp ++ stack.val.drop comp.length).length := by
      rw [List.length_append, List.length_drop, stack.property]
      omega
    rw [if_pos hfit]
    simp only [bind, Except.bind, store, if_neg hend]
  · rw [if_neg hfit]
    rfl

/-! ## Adding -/

def dropSlash (iname : List UInt8) : List UInt8 := if iname.getLast? = some 47 then iname.dropLast else iname

theorem stored_spec (idir : Dir) {iname : List UInt8} (hname : 0 ∉ iname) (hne : iname ≠ [])
    (hlen : iname.length + 1 ≤ ramfsEntryMaxLen) (ie : Nat) (array : Buf) :
    ∃ e : RamfsEntry, e.name.str = dropSlash iname ∧ e.nameLen.toNat = (dropSlash iname).length + 1 ∧
      ramfsDirAddEntry idir iname ie (some array) =
        match Bintree.insert (fun x => x.name.cmp e.name) e idir with
        | none => .error .pathStack
        | some (idir, _) => .ok (none, idir) := by
  obtain ⟨init, c, rfl⟩ := List.eq_nil_or_concat' iname |>.resolve_left hne
  have hinit : 0 ∉ init := fun h => hname (List.mem_append_left _ h)
  have hmax : ramfsEntryMaxLen < 256 := by
    unfold ramfsEntryMaxLen
    omega
  rw [List.length_append, List.length_singleton] at hlen
  obtain ⟨tail, htail⟩ : ∃ tail, array.val.drop (init.length + 2) = tail := ⟨_, rfl⟩
  have htaillen : init.length + 2 + tail.length = ramfsEntryMaxLen := by
    rw [← htail, List.length_drop, array.property]
    omega
  have hcopy : memcpy array.val (init ++ [c] ++ [0]) = .ok (init ++ c :: 0 :: tail) := by
    rw [memcpy, if_pos (by simp [array.property]; omega)]
    simp [htail]
  have hload : load (init ++ c :: 0 :: tail) init.length = .ok c := by
    rw [load, if_pos (by simp), List.getD_append_right _ _ _ _ le_rfl, Nat.sub_self]
    rfl
  have hstore : store (init ++ c :: 0 :: tail) init.length 0 = .ok (init ++ 0 :: 0 :: tail) := by
    rw [store, if_pos (by simp), List.set_append_right _ _ le_rfl, Nat.sub_self, List.set_cons_zero]
  have hrun : ∀ name : NameBuf, nameOf (if c = 47 then init ++ 0 :: 0 :: tail else init ++ c :: 0 :: tail) = .ok name →
      ramfsDirAddEntry idir (init ++ [c]) ie (some array) =
        match Bintree.insert (fun x => x.name.cmp name)
          ⟨ie, UInt8.ofNat (if c = 47 then init.length + 1 else init.length + 2), name⟩ idir with
        | none => .error .pathStack
        | some (idir, _) => .ok (none, idir) := by
    intro name hof
    have hone : ¬ (init.length + 1 + 1 = 1) := by omega
    have htwo : ¬ (init.length + 1 + 1 > ramfsEntryMaxLen) := by omega
    have hidx : init.length + 1 + 1 - 2 = init.length := by omega
    have hstore' : (if c = 47 then store (init ++ c :: 0 :: tail) init.length 0 else .ok (init ++ c :: 0 :: tail))
        = .ok (if c = 47 then init ++ 0 :: 0 :: tail else init ++ c :: 0 :: tail) := by
      split_ifs
      · exact hstore
      · rfl
    simp only [ramfsDirAddEntry, List.length_append, List.length_singleton, if_neg hone, if_neg htwo, hcopy, hidx, hload,
      hstore', bind, Except.bind, hof]
    rfl
  by_cases hc : c = 47
  · have hdrop : dropSlash (init ++ [c]) = init := by simp [dropSlash, hc]
    rw [if_pos hc] at hrun
    have hsize : (init ++ 0 :: 0 :: tail).length = ramfsEntryMaxLen := by
      simp only [List.length_append, List.length_cons]
      omega
    have hmem : (0 : UInt8) ∈ init ++ 0 :: 0 :: tail := by simp
    refine ⟨⟨ie, _, ⟨_, hsize, hmem⟩⟩, (cstr_append hinit _).trans hdrop.symm, ?_, hrun _ (dif_pos ⟨hsize, hmem⟩)⟩
    rw [hdrop, if_pos hc, UInt8.toNat_ofNat', Nat.mod_eq_of_lt (by omega)]
  · have hdrop : dropSlash (init ++ [c]) = init ++ [c] := by simp [dropSlash, hc]
    rw [if_neg hc] at hrun
    have hsize : (init ++ c :: 0 :: tail).length = ramfsEntryMaxLen := by
      simp only [List.length_append, List.length_cons]
      omega
    have hmem : (0 : UInt8) ∈ init ++ c :: 0 :: tail := by simp
    have hstr : cstr (init ++ c :: 0 :: tail) = init ++ [c] := by
      rw [List.append_cons]
      exact cstr_append hname tail
    refine ⟨⟨ie, _, ⟨_, hsize, hmem⟩⟩, hstr.trans hdrop.symm, ?_, hrun _ (dif_pos ⟨hsize, hmem⟩)⟩
    rw [hdrop, if_neg hc, UInt8.toNat_ofNat', Nat.mod_eq_of_lt (by omega), List.length_append]
    rfl

theorem addEntry_spec (idir : Dir) {iname : List UInt8} (hname : 0 ∉ iname) (ie : Nat) (obj : Option Buf) :
    ramfsDirAddEntry idir iname ie obj ≠ .error .nameBuf ∧
      (ramfsEntryMaxLen ≤ iname.length → ramfsDirAddEntry idir iname ie obj = .ok (some .enametoolong, idir)) ∧
      ∀ rc idir', ramfsDirAddEntry idir iname ie obj = .ok (rc, idir') → ∀ e ∈ idir'.toList,
        e ∈ idir.toList ∨ rc = none ∧ e.name.str = dropSlash iname ∧ e.nameLen.toNat = (dropSlash iname).length + 1 := by
  -- an error leaves the directory as it is
  have hfail : ∀ err, ramfsDirAddEntry idir iname ie obj = .ok (some err, idir) →
      ramfsDirAddEntry idir iname ie obj ≠ .error .nameBuf ∧
        ∀ rc idir', ramfsDirAddEntry idir iname ie obj = .ok (rc, idir') → ∀ e ∈ idir'.toList,
          e ∈ idir.toList ∨ rc = none ∧ e.name.str = dropSlash iname ∧ e.nameLen.toNat = (dropSlash iname).length + 1 := by
    intro err heq
    rw [heq]
    refine ⟨nofun, fun rc idir' h e he => .inl ?_⟩
    rwa [(Prod.mk.inj (Except.ok.inj h)).2]
  have hpos : 0 < ramfsEntryMaxLen := by
    unfold ramfsEntryMaxLen
    rcases Machine.supported with h | h <;> rw [h] <;> decide
  by_cases hnil : iname = []
  · obtain ⟨hok, hin⟩ := hfail .enoent (by simp [ramfsDirAddEntry, hnil])
    refine ⟨hok, fun hlong => ?_, hin⟩
    rw [hnil, List.length_nil] at hlong
    omega
  have hone : ¬ (iname.length + 1 = 1) := by simpa using hnil
  by_cases hlong : iname.length + 1 > ramfsEntryMaxLen
  · have heq : ramfsDirAddEntry idir iname ie obj = .ok (some .enametoolong, idir) := by
      simp only [ramfsDirAddEntry, if_neg hone, if_pos hlong]
    obtain ⟨hok, hin⟩ := hfail _ heq
    exact ⟨hok, fun _ => heq, hin⟩
  cases obj with
  | none =>
    obtain ⟨hok, hin⟩ := hfail .enospc (by simp only [ramfsDirAddEntry, if_neg hone, if_neg hlong])
    exact ⟨hok, fun h => absurd h (by omega), hin⟩
  | some array =>
    obtain ⟨e, hstr, hlen, heq⟩ := stored_spec idir hname hnil (by omega) ie array
    rw [heq]
    cases hins : Bintree.insert (fun x => x.name.cmp e.name) e idir with
    | none => exact ⟨nofun, fun h => absurd h (by omega), nofun⟩
    | some r =>
      refine ⟨nofun, fun h => absurd h (by omega), fun rc idir' h e' he' => ?_⟩
      obtain ⟨rfl, rfl⟩ := Prod.mk.inj (Except.ok.inj h)
      obtain rfl | hold := Bintree.mem_of_insert hins he'
      · exact .inr ⟨rfl, hstr, hlen⟩
      · exact .inl hold

/-- **The names are exact.** A component is looked up without leaving the buffer, and an entry that is found has its name,
exactly if it is shorter than the buffer. A name of any length is added without leaving the array of the entry: as it is,
without one slash at its end, or if it is too long not at all. To remove an entry leaves no array either. -/
theorem entryNames_exact (idir : Dir) (comp rest : List UInt8) (stack : Buf) (iname : List UInt8) (ie : Nat)
    (obj : Option Buf) (removed : RamfsEntry) (hcomp : 0 ∉ comp) (hname : 0 ∉ iname) :
    ((∃ r, ramfsDirGetEntryByName idir (comp ++ rest) comp.length stack = .ok r ∧
      ∀ e, r = some e → e ∈ idir.toList ∧ e.name.str = comp) ↔ comp.length < ramfsEntryMaxLen) ∧
    ramfsDirAddEntry idir iname ie obj ≠ .error .nameBuf ∧
    (ramfsEntryMaxLen ≤ iname.length → ramfsDirAddEntry idir iname ie obj = .ok (some .enametoolong, idir)) ∧
    (∀ rc idir', ramfsDirAddEntry idir iname ie obj = .ok (rc, idir') → ∀ e ∈ idir'.toList,
      e ∈ idir.toList ∨ rc = none ∧ e.name.str = dropSlash iname ∧ e.nameLen.toNat = (dropSlash iname).length + 1) ∧
    ramfsDirRemoveEntry idir removed ≠ .error .nameBuf := by
  obtain ⟨hok, hlong, hin⟩ := addEntry_spec idir hname ie obj
  refine ⟨⟨fun ⟨r, hr, _⟩ => ?_, fun hlen => getEntryByName_spec idir hcomp hlen rest stack⟩, hok, hlong, hin, ?_⟩
  · by_contra hlen
    cases (getEntryByName_behind idir (not_lt.mp hlen) rest stack).symm.trans hr
  unfold ramfsDirRemoveEntry
  cases Bintree.remove (fun x => x.name.cmp removed.name) idir <;> exact nofun

end

def emptyDir [Machine] : Dir := .nil

def zeros [Machine] : Buf := ⟨List.replicate ramfsEntryMaxLen 0, List.length_replicate⟩

def entryA : @RamfsEntry machine32 :=
  letI := machine32
  ⟨4, 2, ⟨zeros.val.set 0 97, List.length_set.trans zeros.property, by decide⟩⟩

/-- A directory with `a`: `a/` is looked up, and `b/` is added, on a machine of 32 bits. -/
theorem entryNames_exact_short : letI := machine32
    (∃ r, ramfsDirGetEntryByName (.node entryA 0 .nil .nil) [97, 47] 1 zeros = .ok r ∧
      ∀ e, r = some e → e ∈ [entryA] ∧ e.name.str = [97]) ∧
    ramfsDirAddEntry (.node entryA 0 .nil .nil) [98, 47] 5 (some zeros) ≠ .error .nameBuf :=
  letI := machine32
  have h := entryNames_exact (.node entryA 0 .nil .nil) [97] [47] zeros [98, 47] 5 (some zeros) entryA (by decide)
    (by decide)
  ⟨h.1.mpr (by decide), h.2.1⟩

/-- A component of 231 characters on a machine of 32 bits: its terminator is written behind the buffer. -/
theorem getEntryByName_overruns : letI := machine32
    ramfsDirGetEntryByName emptyDir (List.replicate 231 97) 231 zeros = .error .nameBuf := by
  have hmax : @ramfsEntryMaxLen machine32 = 231 := rfl
  have hlen : (List.replicate 231 (97 : UInt8)).length = 231 := List.length_replicate
  have hbehind := @getEntryByName_behind machine32 (@emptyDir machine32) _ (hmax.trans hlen.symm).le [] (@zeros machine32)
  rwa [hlen, List.append_nil] at hbehind

end Usax.Fs.EntryNames
