import Usax.Fs.Getdents
import Usax.Fs.Ramfs
import Usax.Lib.Cursor
import Usax.Lib.Runs

/-!
# The handles of a ramfs directory

A directory of ramfs with its open handles: `dir_entries.c.h`, `getdents.c.h`, `ramfs_dir_seek` of `rw_ops.c.h`, and what
`open.c.h`, `ramfs.c` and `vfs_dup` do to handles. A handle stands at an entry of the list (`dpos`); the removal of an entry
moves on the handles that stand at it, if they are in `handles_list`.

`vfs_getdents64`, the addition and the removal of an entry hold the lock of the file system, and each is one step here. A seek
holds the lock of the inode only: its loop is taken in steps, and other calls may come between them. A handle that `vfs_dup`
made is not in `handles_list`, but has a copy of the links of the other one: its close would unlink the neighbours that the
other one had, and has no outcome here.
-/

namespace Usax.Fs

open Common Lib

/-! ## Model -/

/-- `struct ramfs_entry`, with the number and the type of its inode. -/
structure RamfsEntry where
  addr : Nat
  ino : Nat
  type : VfsType
  name : List Char
deriving DecidableEq, Repr

structure DirSeek where
  pos : Option Nat
  off : Nat
  target : Nat
deriving DecidableEq, Repr

/-- `struct ramfs_handle` of a directory. `linked` says that it is in `handles_list`. -/
structure DirHandle where
  dpos : Option Nat
  dirPos : Nat
  linked : Bool
  closed : Bool
  seeking : Option DirSeek
deriving DecidableEq, Repr

/-- A directory; `fault` is a use of an entry that was freed. -/
structure RamfsDir where
  entries : List RamfsEntry
  mode : Nat
  handles : List DirHandle
  fault : Bool
deriving DecidableEq, Repr

/-- The entry as the callback gets it; `name_len` is a `u8` and counts the final NUL. -/
def RamfsEntry.dent (e : RamfsEntry) : VfsDent64 := ⟨e.ino, e.type, (e.name.length + 1) % 2 ^ 8, e.name⟩

namespace RamfsDir

section

variable [Machine]

def pending (s : RamfsDir) (dpos : Option Nat) : List RamfsEntry := Cursor.rest RamfsEntry.addr s.entries dpos

def atEntry (s : RamfsDir) (dpos : Option Nat) : Bool := dpos.all fun a => s.entries.any fun e => e.addr = a

def setHandle (s : RamfsDir) (i : Nat) (x : DirHandle) : RamfsDir := { s with handles := s.handles.set i x }

/-- What a call of `vfs_getdents64` does: the new state, what it returns, the entries for the user, and those the handle has
passed. -/
structure Listing where
  dir : RamfsDir
  rc : Int
  copied : List LinuxDirent64
  passed : List RamfsEntry

/-- `vfs_getdents64` with `ramfs_getdents`, for the handle `x` at `i`. -/
def getdents (s : RamfsDir) (i : Nat) (x : DirHandle) (bufSize accessible : Nat) : Listing :=
  if s.mode &&& 0o400 ≠ 0o400 then ⟨s, -Errno.eacces.code, [], []⟩
  else if ¬ s.atEntry x.dpos then ⟨{ s with fault := true }, 0, [], []⟩
  else
    let l := s.pending x.dpos
    let r := walkCb (getdentsCtx false x.dirPos bufSize accessible) (l.map RamfsEntry.dent)
    let n := l.length - r.2.2.length
    ⟨s.setHandle i { x with dpos := (l.drop n).head?.map RamfsEntry.addr, dirPos := r.1.dirPos },
      getdentsRc r.2.1 r.1, r.1.copied, l.take n⟩

def dirAddEntry (s : RamfsDir) (e : RamfsEntry) : RamfsDir := { s with entries := s.entries ++ [e] }

def dirRemoveEntry (s : RamfsDir) (a : Nat) : RamfsDir :=
  { s with
    handles := s.handles.map fun x =>
      if x.linked = true ∧ x.dpos = some a then { x with dpos := Cursor.next RamfsEntry.addr s.entries a } else x
    entries := Cursor.remove RamfsEntry.addr s.entries a }

def first (s : RamfsDir) : Option Nat := s.entries.head?.map RamfsEntry.addr

/-- A round of the loop of `ramfs_dir_seek`, or its end. -/
def dirSeekRound (s : RamfsDir) (i : Nat) (x : DirHandle) (k : DirSeek) : RamfsDir :=
  match k.pos with
  | none => s.setHandle i { x with seeking := none }
  | some a =>
    if k.off = k.target then s.setHandle i { x with dirPos := k.off, dpos := some a, seeking := none }
    else if ¬ s.atEntry (some a) then { s with fault := true }
    else s.setHandle i { x with seeking := some ⟨Cursor.next RamfsEntry.addr s.entries a, k.off + 1, k.target⟩ }

inductive Ev
  | open
  | dup (i : Nat)
  | close (i : Nat)
  | add (e : RamfsEntry)
  | remove (a : Nat)
  | getdents (i bufSize accessible : Nat)
  | seek (i target : Nat)
  | seekStep (i : Nat)
  | chmod (mode : Nat)
deriving DecidableEq, Repr

def ready (s : RamfsDir) (i : Nat) : Option DirHandle := s.handles[i]?.filter fun x => !x.closed && x.seeking.isNone

/-- One event. A new entry has an address of its own, and a name of a legal length. -/
def exec (s : RamfsDir) : Ev → Option RamfsDir
  | .open => some { s with handles := s.handles ++ [⟨s.first, 0, true, false, none⟩] }
  | .dup i => (s.ready i).map fun x => { s with handles := s.handles ++ [{ x with linked := false }] }
  | .close i => (s.ready i).bind fun x =>
    if x.linked then some (s.setHandle i { x with closed := true, linked := false }) else none
  | .add e =>
    if (s.entries.all fun x => x.addr ≠ e.addr) ∧ e.name ≠ [] ∧ e.name.length + 1 ≤ ramfsEntryMaxLen then
      some (s.dirAddEntry e) else none
  | .remove a => if s.atEntry (some a) then some (s.dirRemoveEntry a) else none
  | .getdents i bufSize accessible => (s.ready i).map fun x => (s.getdents i x bufSize accessible).dir
  | .seek i target => (s.ready i).map fun x => s.setHandle i { x with seeking := some ⟨s.first, 0, target⟩ }
  | .seekStep i => (s.handles[i]?.filter fun x => !x.closed).bind fun x => x.seeking.map fun k => s.dirSeekRound i x k
  | .chmod mode => some { s with mode := mode }

/-- The entries that an event copies to the user by the handle at `i`: none if the call returns an error. -/
def returned (s : RamfsDir) (i : Nat) : Ev → List RamfsEntry
  | .getdents j bufSize accessible =>
    if j = i then (s.ready i).elim [] fun x =>
      let r := s.getdents i x bufSize accessible
      if r.rc < 0 then [] else r.passed.take r.copied.length
    else []
  | _ => []

def returnedBy (i : Nat) : RamfsDir → List Ev → List RamfsEntry
  | _, [] => []
  | s, e :: es => s.returned i e ++ (s.exec e).elim [] fun s' => returnedBy i s' es

def empty : RamfsDir := ⟨[], 0o777, [], false⟩

/-! ## Positions -/

variable {s s' : RamfsDir} {i j : Nat} {x x' : DirHandle} {p : Option Nat} {a b : Nat} {e : Ev} {y : RamfsEntry}

omit [Machine] in
theorem atEntry_iff : s.atEntry p = true ↔ Cursor.Valid RamfsEntry.addr s.entries p := by
  unfold atEntry Cursor.Valid
  cases p <;> simp

/-- The entries have addresses of their own and legal names; the handles, and the seeks under way, stand at entries. -/
structure Good (s : RamfsDir) : Prop where
  nodup : (s.entries.map RamfsEntry.addr).Nodup
  names : ∀ e ∈ s.entries, e.name.length + 1 ≤ ramfsEntryMaxLen
  pos : ∀ x ∈ s.handles, x.closed = false → Cursor.Valid RamfsEntry.addr s.entries x.dpos
  seeks : ∀ x ∈ s.handles, x.closed = false → ∀ k ∈ x.seeking, Cursor.Valid RamfsEntry.addr s.entries k.pos
  fault : s.fault = false

/-- No handle that a removal would miss stands at the entry, and no seek does; a handle that is closed is in the list; the
buffer of the user is there. -/
def Ok (s : RamfsDir) : Ev → Prop
  | .close i => ∀ x ∈ s.handles[i]?, x.closed = false → x.linked = true
  | .remove a => ∀ x ∈ s.handles, x.closed = false → (x.dpos = some a → x.linked = true) ∧ ∀ k ∈ x.seeking, k.pos ≠ some a
  | .getdents _ bufSize accessible => bufSize ≤ accessible ∧ bufSize < 2 ^ 31
  | _ => True

instance : ∀ e : Ev, Decidable (s.Ok e)
  | .close i => inferInstanceAs (Decidable (∀ x ∈ s.handles[i]?, _ → _))
  | .remove _ => inferInstanceAs (Decidable (∀ x ∈ s.handles, _))
  | .getdents .. => inferInstanceAs (Decidable (_ ∧ _))
  | .open | .dup _ | .add _ | .seek .. | .seekStep _ | .chmod _ => .isTrue trivial

omit [Machine] in
theorem ready_iff : s.ready i = some x ↔ s.handles[i]? = some x ∧ x.closed = false ∧ x.seeking = none := by
  simp [ready, Option.filter_eq_some_iff]

theorem Good.setHandle (h : s.Good) (hp : x.closed = false → Cursor.Valid RamfsEntry.addr s.entries x.dpos)
    (hk : x.closed = false → ∀ k ∈ x.seeking, Cursor.Valid RamfsEntry.addr s.entries k.pos) : (s.setHandle i x).Good where
  nodup := h.nodup
  names := h.names
  pos y hy := by
    rcases List.mem_or_eq_of_mem_set hy with hy | rfl
    · exact h.pos y hy
    · exact hp
  seeks y hy := by
    rcases List.mem_or_eq_of_mem_set hy with hy | rfl
    · exact h.seeks y hy
    · exact hk
  fault := h.fault

theorem Good.addHandle (h : s.Good) (hp : x.closed = false → Cursor.Valid RamfsEntry.addr s.entries x.dpos)
    (hk : x.seeking = none) : ({ s with handles := s.handles ++ [x] } : RamfsDir).Good where
  nodup := h.nodup
  names := h.names
  pos y hy := by
    rcases List.mem_append.mp hy with hy | hy
    · exact h.pos y hy
    · exact List.mem_singleton.mp hy ▸ hp
  seeks y hy := by
    rcases List.mem_append.mp hy with hy | hy
    · exact h.seeks y hy
    · rw [List.mem_singleton.mp hy, hk]
      exact fun _ k hk => nomatch hk
  fault := h.fault

omit [Machine] in
theorem valid_first (s : RamfsDir) : Cursor.Valid RamfsEntry.addr s.entries s.first := Cursor.valid_head fun _ hx => hx

/-! ## Calls of `vfs_getdents64` -/

theorem getdents_passes (s : RamfsDir) (i : Nat) (x : DirHandle) (bufSize accessible : Nat) (hv : s.atEntry x.dpos = true)
    (hm : s.mode &&& 0o400 = 0o400) : ∃ l dirPos, s.pending x.dpos = (s.getdents i x bufSize accessible).passed ++ l ∧
      (s.getdents i x bufSize accessible).dir =
        s.setHandle i { x with dpos := l.head?.map RamfsEntry.addr, dirPos := dirPos } := by
  unfold getdents
  rw [if_neg (not_not.mpr hm), if_neg (not_not.mpr hv)]
  exact ⟨_, _, (List.take_append_drop _ _).symm, rfl⟩

theorem Good.getdents {bufSize accessible : Nat} (h : s.Good) (hx : s.ready i = some x) :
    (s.getdents i x bufSize accessible).dir.Good := by
  obtain ⟨hx, hc, hk⟩ := ready_iff.mp hx
  have hv := h.pos x (List.mem_of_getElem? hx) hc
  by_cases hm : s.mode &&& 0o400 = 0o400
  · obtain ⟨l, dirPos, hl, hd⟩ := getdents_passes s i x bufSize accessible (atEntry_iff.mpr hv) hm
    rw [hd]
    refine h.setHandle (fun _ => Cursor.valid_head fun y hy => ?_) fun _ k hk' => ?_
    · exact (Cursor.rest_isSuffix x.dpos).subset (hl ▸ List.mem_append_right _ hy)
    · rw [show ({ x with dpos := l.head?.map RamfsEntry.addr, dirPos := dirPos } : DirHandle).seeking = none from hk] at hk'
      cases hk'
  · unfold RamfsDir.getdents
    rw [if_pos hm]
    exact h

theorem ramfsEntryMaxLen_lt : ramfsEntryMaxLen < 256 := by
  unfold ramfsEntryMaxLen
  rcases Machine.supported with h | h <;> omega

theorem getdents_fill {bufSize accessible : Nat} {l : List RamfsEntry} {f : List VfsDent64 × List VfsDent64}
    (hok : bufSize ≤ accessible ∧ bufSize < 2 ^ 31) (hv : s.atEntry x.dpos = true) (hm : s.mode &&& 0o400 = 0o400)
    (hl : s.pending x.dpos = l) (hf : fill bufSize 0 (l.map RamfsEntry.dent) = f) :
    s.getdents i x bufSize accessible =
      ⟨s.setHandle i { x with dpos := (l.drop f.1.length).head?.map RamfsEntry.addr, dirPos := x.dirPos + f.1.length },
        listRc f, userEnts x.dirPos f.1, l.take f.1.length⟩ := by
  have hplain : (getdentsCtx false x.dirPos bufSize accessible).Plain := ⟨Nat.zero_le _, hok.1, hok.2, nofun⟩
  have hlen : ∀ vde ∈ l.map RamfsEntry.dent, vde.nameLen < 256 := by
    intro vde hv
    obtain ⟨e, -, rfl⟩ := List.mem_map.mp hv
    exact Nat.mod_lt _ (by decide)
  have hcount : l.length - f.2.length = f.1.length := by
    have happ : f.1 ++ f.2 = l.map RamfsEntry.dent := hf ▸ fill_append 0 (l.map RamfsEntry.dent)
    have := congrArg List.length happ
    rw [List.length_append, List.length_map] at this
    omega
  obtain ⟨hctx, hleft, hrc⟩ := walkCb_call hplain rfl hlen
  rw [show (getdentsCtx false x.dirPos bufSize accessible).bufSize = bufSize from rfl, hf] at hctx hleft hrc
  unfold getdents
  rw [if_neg (not_not.mpr hm), if_neg (not_not.mpr hv), hl]
  rw [hctx] at hrc
  simp only [hctx, hrc, hleft, hcount]
  rfl

theorem passed_of_error {bufSize accessible : Nat} (hok : bufSize ≤ accessible ∧ bufSize < 2 ^ 31)
    (hrc : (s.getdents i x bufSize accessible).rc < 0) : (s.getdents i x bufSize accessible).passed = [] := by
  by_cases hm : s.mode &&& 0o400 = 0o400
  · by_cases hv : s.atEntry x.dpos = true
    · rw [getdents_fill hok hv hm rfl rfl] at hrc ⊢
      simp only [listRc] at hrc ⊢
      split_ifs at hrc with hnil
      · rw [hnil.1, List.length_nil, List.take_zero]
      · omega
    · unfold getdents
      rw [if_neg (not_not.mpr hm), if_pos hv]
  · unfold getdents
    rw [if_pos hm]

/-- What the handle passes is copied. -/
theorem length_copied {bufSize accessible : Nat} (hok : bufSize ≤ accessible ∧ bufSize < 2 ^ 31) :
    (s.getdents i x bufSize accessible).copied.length = (s.getdents i x bufSize accessible).passed.length := by
  by_cases hm : s.mode &&& 0o400 = 0o400
  · by_cases hv : s.atEntry x.dpos = true
    · have happ := congrArg List.length (@fill_append _ bufSize 0 ((s.pending x.dpos).map RamfsEntry.dent))
      rw [List.length_append, List.length_map] at happ
      rw [getdents_fill hok hv hm rfl rfl, length_userEnts, List.length_take]
      omega
    · unfold getdents
      rw [if_neg (not_not.mpr hm), if_pos hv]
      rfl
  · unfold getdents
    rw [if_pos hm]
    rfl

/-! ## Steps -/

theorem Good.dirRemoveEntry (h : s.Good) (hok : s.Ok (.remove a)) (ha : s.atEntry (some a) = true) :
    (s.dirRemoveEntry a).Good where
  nodup := Cursor.nodup_remove h.nodup a
  names e he := h.names e (Cursor.mem_remove.mp he).1
  pos y hy hc := by
    obtain ⟨x, hx, rfl⟩ := List.mem_map.mp hy
    split_ifs at hc ⊢ with hat
    · exact (Cursor.rest_remove_next h.nodup (atEntry_iff.mp ha a rfl)).2
    · exact Cursor.valid_remove (h.pos x hx hc) fun hd => hat ⟨(hok x hx hc).1 hd, hd⟩
  seeks y hy hc k hk := by
    obtain ⟨x, hx, rfl⟩ := List.mem_map.mp hy
    have hck : x.closed = false ∧ k ∈ x.seeking := by split_ifs at hc hk <;> exact ⟨hc, hk⟩
    exact Cursor.valid_remove (h.seeks x hx hck.1 k hck.2) ((hok x hx hck.1).2 k hck.2)
  fault := h.fault

theorem Good.dirAddEntry {e : RamfsEntry} (h : s.Good) (hf : ∀ x ∈ s.entries, x.addr ≠ e.addr)
    (hn : e.name.length + 1 ≤ ramfsEntryMaxLen) : (s.dirAddEntry e).Good where
  nodup := by
    rw [RamfsDir.dirAddEntry, List.map_append, List.nodup_append]
    refine ⟨h.nodup, List.nodup_singleton _, fun a ha b hb => ?_⟩
    obtain ⟨x, hx, rfl⟩ := List.mem_map.mp ha
    rw [List.mem_singleton.mp hb]
    exact hf x hx
  names x hx := by
    rcases List.mem_append.mp hx with hx | hx
    · exact h.names x hx
    · exact List.mem_singleton.mp hx ▸ hn
  pos x hx hc := Cursor.valid_append (h.pos x hx hc) [e]
  seeks x hx hc k hk := Cursor.valid_append (h.seeks x hx hc k hk) [e]
  fault := h.fault

theorem Good.dirSeekRound {k : DirSeek} (h : s.Good) (hx : s.handles[i]? = some x) (hc : x.closed = false)
    (hk : k ∈ x.seeking) : (s.dirSeekRound i x k).Good := by
  have hpos := h.pos x (List.mem_of_getElem? hx) hc
  have hv := h.seeks x (List.mem_of_getElem? hx) hc k hk
  unfold RamfsDir.dirSeekRound
  cases hp : k.pos with
  | none => exact h.setHandle (fun _ => hpos) fun _ _ hk => nomatch hk
  | some a =>
    rw [hp] at hv
    simp only [atEntry_iff.mpr hv, not_true_eq_false, if_false]
    split_ifs with ht
    · exact h.setHandle (fun _ => hv) fun _ _ hk => nomatch hk
    · refine h.setHandle (fun _ => hpos) fun _ k' hk' => ?_
      obtain rfl := Option.some.inj hk'
      exact Cursor.valid_next s.entries a

theorem Good.exec (h : s.Good) (hok : s.Ok e) (he : s.exec e = some s') : s'.Good := by
  cases e with
  | «open» =>
    cases he
    exact h.addHandle (fun _ => valid_first s) rfl
  | dup i =>
    obtain ⟨x, hx, rfl⟩ := Option.map_eq_some_iff.mp he
    obtain ⟨hx, hc, hk⟩ := ready_iff.mp hx
    exact h.addHandle (h.pos x (List.mem_of_getElem? hx)) hk
  | close i =>
    obtain ⟨x, hx, he⟩ := Option.bind_eq_some_iff.mp he
    obtain ⟨-, he⟩ := Option.ite_none_right_eq_some.mp he
    cases he
    exact h.setHandle (fun hc => nomatch hc) fun hc => nomatch hc
  | add e =>
    obtain ⟨⟨hf, -, hn⟩, he⟩ := Option.ite_none_right_eq_some.mp he
    cases he
    exact h.dirAddEntry (fun x hx => by simpa using List.all_eq_true.mp hf x hx) hn
  | remove a =>
    obtain ⟨ha, he⟩ := Option.ite_none_right_eq_some.mp he
    cases he
    exact h.dirRemoveEntry hok ha
  | getdents i bufSize accessible =>
    obtain ⟨x, hx, rfl⟩ := Option.map_eq_some_iff.mp he
    exact h.getdents hx
  | seek i target =>
    obtain ⟨x, hx, rfl⟩ := Option.map_eq_some_iff.mp he
    obtain ⟨hx, hc, -⟩ := ready_iff.mp hx
    refine h.setHandle (h.pos x (List.mem_of_getElem? hx)) fun _ k hk => ?_
    obtain rfl := Option.some.inj hk
    exact valid_first s
  | seekStep i =>
    obtain ⟨x, hx, he⟩ := Option.bind_eq_some_iff.mp he
    obtain ⟨k, hk, rfl⟩ := Option.map_eq_some_iff.mp he
    obtain ⟨hx, hc⟩ := Option.filter_eq_some_iff.mp hx
    exact h.dirSeekRound hx (by simpa using hc) hk
  | chmod mode =>
    cases he
    exact ⟨h.nodup, h.names, h.pos, h.seeks, h.fault⟩

/-! ## Passes -/

/-- The event leaves the handle at `i` where it is, unless it lists the directory. -/
def Keeps (i : Nat) : Ev → Prop
  | .close j | .seek j _ | .seekStep j => j ≠ i
  | _ => True

def left (s : RamfsDir) (i : Nat) : List RamfsEntry := s.handles[i]?.elim [] fun x => s.pending x.dpos

omit [Machine] in
theorem left_of (hx : s.handles[i]? = some x) : s.left i = s.pending x.dpos := by
  rw [left, hx]
  rfl

omit [Machine] in
theorem left_congr (hi : s'.handles[i]? = s.handles[i]?) (he : s'.entries = s.entries) : s'.left i = s.left i := by
  unfold left pending
  rw [hi, he]

omit [Machine] in
theorem count_remove (l : List RamfsEntry) (hyb : y.addr ≠ b) :
    (Cursor.remove RamfsEntry.addr l b).count y = l.count y := by
  unfold Cursor.remove
  exact List.count_filter (by simpa using hyb)

theorem Good.left_remove (h : s.Good) (hok : s.Ok (.remove b)) (hb : s.atEntry (some b) = true) (hx : s.handles[i]? = some x)
    (hc : x.closed = false) : (s.dirRemoveEntry b).left i = Cursor.remove RamfsEntry.addr (s.left i) b := by
  have hmem := List.mem_of_getElem? hx
  have hx' : (s.dirRemoveEntry b).handles[i]? = some (if x.linked = true ∧ x.dpos = some b then
      { x with dpos := Cursor.next RamfsEntry.addr s.entries b } else x) := by
    unfold RamfsDir.dirRemoveEntry
    rw [List.getElem?_map, hx]
    rfl
  rw [left_of hx', left_of hx]
  unfold pending
  by_cases hat : x.dpos = some b
  · rw [if_pos ⟨(hok x hmem hc).1 hat, hat⟩, hat]
    exact (Cursor.rest_remove_next h.nodup (atEntry_iff.mp hb b rfl)).1
  · rw [if_neg fun hh => hat hh.2]
    cases hd : x.dpos with
    | none => rfl
    | some p =>
      rw [hd] at hat
      exact Cursor.rest_remove h.nodup (h.pos x hmem hc p hd) fun hp => hat (congrArg some hp)

theorem Good.left_add (h : s.Good) (n : RamfsEntry) (hx : s.handles[i]? = some x) (hc : x.closed = false) :
    (s.dirAddEntry n).left i = s.left i ∨ (s.dirAddEntry n).left i = s.left i ++ [n] := by
  rw [left_of (s := s.dirAddEntry n) hx, left_of hx]
  unfold pending
  cases hd : x.dpos with
  | none => exact .inl rfl
  | some p => exact .inr (Cursor.rest_append (h.pos x (List.mem_of_getElem? hx) hc p hd) [n])

theorem getdents_dir (s : RamfsDir) (hx : s.handles[i]? = some x) (bufSize accessible : Nat) :
    (s.getdents i x bufSize accessible).dir.entries = s.entries ∧
      (∀ j, i ≠ j → (s.getdents i x bufSize accessible).dir.handles[j]? = s.handles[j]?) ∧
      ∃ x', (s.getdents i x bufSize accessible).dir.handles[i]? = some x' ∧ x'.closed = x.closed := by
  unfold getdents
  split_ifs
  · exact ⟨rfl, fun _ _ => rfl, x, hx, rfl⟩
  · exact ⟨rfl, fun _ hij => List.getElem?_set_ne hij, _, List.getElem?_set_self (List.getElem?_eq_some_iff.mp hx).1, rfl⟩
  · exact ⟨rfl, fun _ _ => rfl, x, hx, rfl⟩

omit [Machine] in
theorem dirSeekRound_others (s : RamfsDir) (i : Nat) (x : DirHandle) (k : DirSeek) :
    (s.dirSeekRound i x k).entries = s.entries ∧ ∀ j, i ≠ j → (s.dirSeekRound i x k).handles[j]? = s.handles[j]? := by
  unfold dirSeekRound
  split
  · exact ⟨rfl, fun _ hij => List.getElem?_set_ne hij⟩
  · split_ifs
    · exact ⟨rfl, fun _ hij => List.getElem?_set_ne hij⟩
    · exact ⟨rfl, fun _ hij => List.getElem?_set_ne hij⟩
    · exact ⟨rfl, fun _ _ => rfl⟩

theorem Good.left_getdents {bufSize accessible : Nat} (h : s.Good) (hok : bufSize ≤ accessible ∧ bufSize < 2 ^ 31)
    (hx : s.ready i = some x) :
    s.left i = s.returned i (.getdents i bufSize accessible) ++ (s.getdents i x bufSize accessible).dir.left i := by
  obtain ⟨hx', hc, -⟩ := ready_iff.mp hx
  have hv := h.pos x (List.mem_of_getElem? hx') hc
  have hlt := (List.getElem?_eq_some_iff.mp hx').1
  have hret : s.returned i (.getdents i bufSize accessible) = (s.getdents i x bufSize accessible).passed := by
    simp only [returned, if_true, hx, Option.elim_some]
    split_ifs with hrc
    · rw [passed_of_error hok hrc]
    · rw [length_copied hok, List.take_length]
  rw [hret]
  by_cases hm : s.mode &&& 0o400 = 0o400
  · obtain ⟨l, dirPos, hl, hd⟩ := getdents_passes s i x bufSize accessible (atEntry_iff.mpr hv) hm
    have hsuf : Cursor.rest RamfsEntry.addr s.entries (l.head?.map RamfsEntry.addr) = l := by
      have hn := h.nodup
      obtain ⟨l₀, hl₀⟩ : s.pending x.dpos <:+ s.entries := Cursor.rest_isSuffix x.dpos
      rw [← hl₀, hl, ← List.append_assoc] at hn ⊢
      exact Cursor.rest_suffix hn
    have hx'' : (s.setHandle i { x with dpos := l.head?.map RamfsEntry.addr, dirPos := dirPos }).handles[i]? =
        some { x with dpos := l.head?.map RamfsEntry.addr, dirPos := dirPos } := List.getElem?_set_self hlt
    rw [hd, left_of hx'', left_of hx', hl]
    exact congrArg _ hsuf.symm
  · have hg : s.getdents i x bufSize accessible = ⟨s, -Errno.eacces.code, [], []⟩ := if_pos hm
    rw [hg]
    rfl

/-- What a handle has still to return is what it returns now and what it has still to return then, for an entry that stays. -/
theorem Good.left_exec (h : s.Good) (hok : s.Ok e) (hk : Keeps i e) (hx : s.handles[i]? = some x) (hc : x.closed = false)
    (hy : y ∈ s.entries) (hne : e ≠ .remove y.addr) (he : s.exec e = some s') :
    (s.left i).count y = (s.returned i e).count y + (s'.left i).count y ∧
      (∃ x', s'.handles[i]? = some x' ∧ x'.closed = false) ∧ y ∈ s'.entries := by
  have hlt := (List.getElem?_eq_some_iff.mp hx).1
  have same : ∀ {s' : RamfsDir}, s'.handles[i]? = s.handles[i]? → s'.entries = s.entries →
      (s.left i).count y = 0 + (s'.left i).count y ∧ (∃ x', s'.handles[i]? = some x' ∧ x'.closed = false) ∧
        y ∈ s'.entries := fun hi he =>
    ⟨by rw [left_congr hi he, Nat.zero_add], ⟨x, hi.trans hx, hc⟩, he ▸ hy⟩
  cases e with
  | «open» =>
    cases he
    exact same (List.getElem?_append_left hlt) rfl
  | dup j =>
    obtain ⟨z, -, rfl⟩ := Option.map_eq_some_iff.mp he
    exact same (List.getElem?_append_left hlt) rfl
  | close j =>
    obtain ⟨z, -, he⟩ := Option.bind_eq_some_iff.mp he
    obtain ⟨-, he⟩ := Option.ite_none_right_eq_some.mp he
    cases he
    exact same (List.getElem?_set_ne hk) rfl
  | add n =>
    obtain ⟨⟨hf, -⟩, he⟩ := Option.ite_none_right_eq_some.mp he
    cases he
    have hnew : y.addr ≠ n.addr := by simpa using List.all_eq_true.mp hf y hy
    have hzero : [n].count y = 0 :=
      List.count_eq_zero.mpr fun hm => hnew (congrArg RamfsEntry.addr (List.mem_singleton.mp hm))
    refine ⟨?_, ⟨x, hx, hc⟩, List.mem_append_left _ hy⟩
    change _ = 0 + _
    rcases h.left_add n hx hc with hl | hl
    · rw [hl, Nat.zero_add]
    · rw [hl, List.count_append, hzero, Nat.add_zero, Nat.zero_add]
  | remove b =>
    obtain ⟨hb, he⟩ := Option.ite_none_right_eq_some.mp he
    cases he
    have hyb : y.addr ≠ b := fun hyb => hne (congrArg Ev.remove hyb.symm)
    refine ⟨?_, ?_, Cursor.mem_remove.mpr ⟨hy, hyb⟩⟩
    · rw [h.left_remove hok hb hx hc, count_remove _ hyb]
      exact (Nat.zero_add _).symm
    · refine ⟨_, List.getElem?_map.trans (congrArg _ hx), ?_⟩
      dsimp only
      split_ifs <;> exact hc
  | getdents j bufSize accessible =>
    obtain ⟨z, hz, rfl⟩ := Option.map_eq_some_iff.mp he
    by_cases hij : j = i
    · subst hij
      obtain rfl := Option.some.inj (hx.symm.trans (ready_iff.mp hz).1)
      obtain ⟨hent, -, x', hx', hc'⟩ := getdents_dir s hx bufSize accessible
      refine ⟨?_, ⟨x', hx', hc'.trans hc⟩, hent ▸ hy⟩
      rw [h.left_getdents hok hz, List.count_append]
    · obtain ⟨hent, hoth, -⟩ := getdents_dir s (ready_iff.mp hz).1 bufSize accessible
      have hret : s.returned i (.getdents j bufSize accessible) = [] := if_neg hij
      rw [hret]
      exact same (hoth i hij) hent
  | seek j target =>
    obtain ⟨z, -, rfl⟩ := Option.map_eq_some_iff.mp he
    exact same (List.getElem?_set_ne hk) rfl
  | seekStep j =>
    obtain ⟨z, -, he⟩ := Option.bind_eq_some_iff.mp he
    obtain ⟨k, -, rfl⟩ := Option.map_eq_some_iff.mp he
    obtain ⟨hent, hoth⟩ := dirSeekRound_others s j z k
    exact same (hoth i hk) hent
  | chmod mode =>
    cases he
    exact same rfl rfl

theorem Good.left_execs {evs : List Ev} (h : s.Good) (ha : Along RamfsDir.exec Ok s evs) (hk : ∀ e ∈ evs, Keeps i e)
    (hx : s.handles[i]? = some x) (hc : x.closed = false) (hy : y ∈ s.entries) (hne : Ev.remove y.addr ∉ evs)
    (he : execs RamfsDir.exec s evs = some s') :
    (s.left i).count y = (returnedBy i s evs).count y + (s'.left i).count y := by
  induction evs generalizing s x with
  | nil =>
    obtain rfl := Option.some.inj he
    exact (Nat.zero_add _).symm
  | cons e evs ih =>
    obtain ⟨u, hu, he⟩ := Option.bind_eq_some_iff.mp he
    obtain ⟨hok, ha⟩ := ha
    rw [hu] at ha
    obtain ⟨hcount, ⟨x', hx', hc'⟩, hy'⟩ :=
      h.left_exec hok (hk e List.mem_cons_self) hx hc hy (fun hey => hne (hey ▸ List.mem_cons_self)) hu
    have hrest := ih (h.exec hok hu) ha (fun e he => hk e (List.mem_cons_of_mem _ he)) hx' hc' hy'
      (fun hm => hne (List.mem_cons_of_mem _ hm)) he
    rw [returnedBy, hu, Option.elim_some, List.count_append, Nat.add_assoc, ← hrest]
    exact hcount

theorem Good.empty : empty.Good where
  nodup := List.nodup_nil
  names _ h := nomatch h
  pos _ h := nomatch h
  seeks _ h := nomatch h
  fault := rfl

/-- **Handles stand at entries, and a pass returns each entry once**: in every run in which no entry is removed at which a handle
that `vfs_dup` made or a seek stands, and whose buffers are there, every open handle stands at an entry of the directory or at
its end; and if a handle at the first entry comes to the end, it has returned each entry exactly once that was there at the
start and that was not removed. -/
theorem dir_handles (h : Reached (· = empty) exec Ok s) :
    (∀ x ∈ s.handles, x.closed = false → s.atEntry x.dpos = true) ∧ s.fault = false ∧
      ∀ i x evs s₁, s.handles[i]? = some x → x.closed = false → x.dpos = s.first → Along exec Ok s evs →
        (∀ e ∈ evs, Keeps i e) → execs exec s evs = some s₁ → s₁.handles[i]?.map DirHandle.dpos = some none →
        ∀ y ∈ s.entries, Ev.remove y.addr ∉ evs → (returnedBy i s evs).count y = 1 := by
  have hg : s.Good := h.invariant (fun _ h => h ▸ Good.empty) fun _ _ _ hg hok he => hg.exec hok he
  refine ⟨fun x hx hc => atEntry_iff.mpr (hg.pos x hx hc), hg.fault, ?_⟩
  intro i x evs s₁ hx hc hfirst ha hk he hend y hy hne
  have hstart : s.left i = s.entries := by
    rw [left_of hx, hfirst]
    exact Cursor.rest_head
  obtain ⟨x₁, hx₁, hend⟩ := Option.map_eq_some_iff.mp hend
  have hnil : s₁.left i = [] := by
    rw [left_of hx₁, hend]
    rfl
  have hcount := hg.left_execs ha hk hx hc hy hne he
  rw [hstart, hnil, List.count_nil, Nat.add_zero] at hcount
  rw [← hcount]
  exact List.count_eq_one_of_mem hg.nodup.of_map hy

end

section

attribute [local instance] machine32

def threeFiles : List Ev :=
  [.add ⟨1, 1, .file, ['a']⟩, .add ⟨2, 2, .file, ['b']⟩, .add ⟨3, 3, .file, ['c']⟩, .open]

def listed : RamfsDir where
  entries := [⟨1, 1, .file, ['a']⟩, ⟨2, 2, .file, ['b']⟩, ⟨3, 3, .file, ['c']⟩]
  mode := 0o777
  handles := [⟨some 1, 0, true, false, none⟩]
  fault := false

/-- A pass by small buffers; the entry at which the handle stands is removed, and another one is added. -/
def aPass : List Ev := [.getdents 0 30 30, .remove 2, .add ⟨4, 4, .file, ['d']⟩, .getdents 0 100 100, .getdents 0 30 30]

theorem dir_handles_pass : ∃ s, Reached (· = empty) exec Ok s ∧
    (returnedBy 0 s aPass).map RamfsEntry.addr = [1, 3, 4] ∧ (returnedBy 0 s aPass).count ⟨3, 3, .file, ['c']⟩ = 1 := by
  have hv : execs exec empty threeFiles = some listed := by decide
  have hend : (execs exec listed aPass).map (fun s => s.handles.map DirHandle.dpos) = some [none] := by decide
  obtain ⟨s₁, hs₁, hend⟩ := Option.map_eq_some_iff.mp hend
  have hreach : Reached (· = empty) exec Ok listed := Reached.execs (.start rfl) (by decide) hv
  refine ⟨listed, hreach, by decide, ?_⟩
  refine (dir_handles hreach).2.2 0 _ aPass s₁ rfl rfl rfl (by decide) (by simp [aPass, Keeps]) hs₁ ?_ _ ?_ ?_
  · rw [← List.getElem?_map, hend]
    rfl
  · decide
  · decide

/-! ## The gaps -/

/-- The entry at which a duplicated handle stands is removed, and the handle is used. -/
def dupAndRemove : List Ev := threeFiles ++ [.dup 0, .remove 1]

def seekAndRemove : List Ev := threeFiles ++ [.seek 0 1, .seekStep 0, .remove 2, .seekStep 0]

/-- **A handle at an entry that is freed**: one that `vfs_dup` made, and one that a seek has put there; a call on it uses the
entry. -/
theorem stale_handle :
    (execs exec empty dupAndRemove).map (fun s => (s.handles.map DirHandle.dpos, s.entries.map RamfsEntry.addr)) =
      some ([some 2, some 1], [2, 3]) ∧
    (execs exec empty seekAndRemove).map (fun s => (s.handles.map DirHandle.dpos, s.entries.map RamfsEntry.addr)) =
      some ([some 2], [1, 3]) ∧
    (execs exec empty (dupAndRemove ++ [.getdents 1 100 100])).map RamfsDir.fault = some true ∧
    (execs exec empty (seekAndRemove ++ [.getdents 0 100 100])).map RamfsDir.fault = some true := by
  refine ⟨?_, ?_, ?_, ?_⟩ <;> decide

end

end RamfsDir

end Usax.Fs
