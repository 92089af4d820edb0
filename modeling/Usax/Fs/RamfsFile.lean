import Usax.Common.Utils
import Usax.Lib.Runs
import Mathlib.Data.List.Sort
import Mathlib.Data.List.TakeWhile

/-!
# The data of a ramfs file

`kernel/fs/ramfs/blocks.c.h` and `rw_ops.c.h`: the data of a file is in blocks of one page each, in a tree by the offset of
the block. A block that is not there is a hole. `ramfs_read_nolock` and `ramfs_write_nolock` go from page to page; the latter
asserts that a position inside of a page has a block.

Positions and sizes are `offt`, 64 bits wide by default; the key of a block is a machine word, because `PAGE_MASK` is an
`unsigned long`. The tree is the list of the blocks by offset. Pages of memory are numbered, and their bytes are `mem`;
which page an allocation gets, if it gets one, is given with the call.

A write behind the end of a file leaves a hole that may start inside of a page, and so does `ramfs_inode_extend`. In the runs
without them every byte of a file is in a block, and the assertion holds (`write_finds_block`).
-/

namespace Usax.Fs

open Lib

def blockSize : Nat := 4096

/-- `struct ramfs_block`: `vaddr` is the number of a page. -/
structure Block where
  offset : Nat
  vaddr : Nat
deriving DecidableEq, Repr

/-- The fields of `struct ramfs_inode` for a file, and the memory. -/
structure FileData where
  fsize : Nat
  blocks : List Block
  mem : Nat → Nat → UInt8

namespace FileData

/-- `bintree_find_ptr` on the blocks. -/
def find (f : FileData) (page : Nat) : Option Block := f.blocks.find? fun b => b.offset = page

def memcpy (f : FileData) (b : Block) (pageOff : Nat) (buf : List UInt8) : FileData :=
  { f with mem := fun v i =>
      if v = b.vaddr ∧ pageOff ≤ i ∧ i < pageOff + buf.length then buf.getD (i - pageOff) 0 else f.mem v i }

def newBlock (f : FileData) (v : Nat) : FileData := { f with mem := fun v' i => if v' = v then 0 else f.mem v' i }

/-- `ramfs_append_new_block`: a block with the same key stays, and the new one is lost. -/
def appendNewBlock (f : FileData) (b : Block) : FileData :=
  match f.find b.offset with
  | some _ => f
  | none => { f with blocks := f.blocks.orderedInsert (fun a b => a.offset ≤ b.offset) b }

/-- The loop of `ramfs_inode_truncate` that removes the last block while it is past the end. -/
def dropBlocks (len : Nat) (blocks : List Block) : List Block :=
  (blocks.reverse.dropWhile fun b => len ≤ b.offset).reverse

/-- `ramfs_inode_truncate`, without what it does to mappings, for a length below the size. -/
def inodeTruncate (f : FileData) (len : Nat) : FileData := { f with fsize := len, blocks := dropBlocks len f.blocks }

def inodeExtend (f : FileData) (len : Nat) : FileData := { f with fsize := len }

/-- `ramfs_inode_truncate_safe` on a file with write permission. -/
def inodeTruncateSafe (f : FileData) (len : Nat) : FileData :=
  if len < f.fsize then f.inodeTruncate len else if f.fsize < len then f.inodeExtend len else f

variable [Machine]

/-- `*pos & PAGE_MASK`. -/
def pageOf (pos : Nat) : Nat := (pos - pos % blockSize) % 2 ^ Machine.nbits

/-- The byte at a position, as the loop of `ramfs_read_nolock` copies it. -/
def byte (f : FileData) (pos : Nat) : UInt8 :=
  match f.find (pageOf pos) with
  | some b => f.mem b.vaddr (pos % blockSize)
  | none => 0

/-- The loop of `ramfs_read_nolock`, for at most `fuel` pages: the bytes and the position after them. -/
def readLoop (f : FileData) : (fuel bufRem pos : Nat) → List UInt8 × Nat
  | 0, _, pos => ([], pos)
  | fuel + 1, bufRem, pos =>
    if bufRem = 0 ∨ f.fsize ≤ pos then ([], pos)
    else
      let pageOff := pos % blockSize
      let toRead := min (min (blockSize - pageOff) bufRem) (f.fsize - pos)
      let chunk := match f.find (pageOf pos) with
        | some b => (List.range toRead).map fun i => f.mem b.vaddr (pageOff + i)
        | none => List.replicate toRead 0
      let (rest, pos') := readLoop f fuel (bufRem - toRead) (pos + toRead)
      (chunk ++ rest, pos')

/-- `ramfs_read_nolock`. Every turn of the loop reads a byte at least. -/
def readNolock (f : FileData) (len pos : Nat) : List UInt8 × Nat := f.readLoop len len pos

/-- The copy of a turn of the loop of `ramfs_write_nolock`. -/
def writeBlock (f : FileData) (b : Block) (pos : Nat) (buf : List UInt8) : FileData :=
  let f := f.memcpy b (pos % blockSize) buf
  { f with fsize := max f.fsize (pos + buf.length) }

/-- The loop of `ramfs_write_nolock`, for at most `fuel` pages: the file, what was not written, and the position. There is no
result if the assertion fails that a position inside of a page has a block. -/
def writeLoop : (fuel : Nat) → FileData → List UInt8 → (pos : Nat) → (allocs : List (Option Nat)) →
    Option (FileData × List UInt8 × Nat)
  | 0, f, buf, pos, _ => some (f, buf, pos)
  | fuel + 1, f, buf, pos, allocs =>
    if buf = [] then some (f, buf, pos)
    else
      let page := pageOf pos
      let toWrite := min (blockSize - pos % blockSize) buf.length
      match f.find page with
      | some b => writeLoop fuel (f.writeBlock b pos (buf.take toWrite)) (buf.drop toWrite) (pos + toWrite) allocs
      | none =>
        if pos % blockSize ≠ 0 then none
        else match allocs with
          | some v :: allocs =>
            writeLoop fuel (((f.newBlock v).appendNewBlock ⟨page, v⟩).writeBlock ⟨page, v⟩ pos (buf.take toWrite))
              (buf.drop toWrite) (pos + toWrite) allocs
          | _ => some (f, buf, pos)

def writeNolock (f : FileData) (append : Bool) (buf : List UInt8) (pos : Nat) (allocs : List (Option Nat)) :
    Option (FileData × Nat) :=
  (writeLoop buf.length f buf (if append then f.fsize else pos) allocs).map fun r => (r.1, r.2.2)

variable {f f' : FileData} {b : Block} {pos x len v n : Nat} {buf : List UInt8}

theorem pageOf_add {i : Nat} (h : pos % blockSize + i < blockSize) :
    pageOf (pos + i) = pageOf pos ∧ (pos + i) % blockSize = pos % blockSize + i := by
  have hmod : (pos + i) % blockSize = pos % blockSize + i := by
    unfold blockSize at h ⊢
    omega
  refine ⟨?_, hmod⟩
  unfold pageOf
  rw [hmod]
  congr 1
  omega

/-! ## Reading -/

theorem readLoop_eq {fuel bufRem : Nat} (h : bufRem ≤ fuel) :
    f.readLoop fuel bufRem pos =
      ((List.range (min bufRem (f.fsize - pos))).map fun i => f.byte (pos + i), pos + min bufRem (f.fsize - pos)) := by
  induction fuel generalizing bufRem pos with
  | zero =>
    obtain rfl : bufRem = 0 := Nat.le_zero.mp h
    simp [readLoop]
  | succ fuel ih =>
    rw [readLoop]
    split_ifs with hend
    · have hzero : min bufRem (f.fsize - pos) = 0 := by omega
      simp [hzero]
    · have hmod : pos % blockSize < blockSize := Nat.mod_lt _ (by decide)
      obtain ⟨n, hn⟩ : ∃ n, n = min (min (blockSize - pos % blockSize) bufRem) (f.fsize - pos) := ⟨_, rfl⟩
      have hpos : 0 < n := by omega
      have hsum : n + min (bufRem - n) (f.fsize - (pos + n)) = min bufRem (f.fsize - pos) := by omega
      dsimp only
      rw [← hn, ih (by omega : bufRem - n ≤ fuel)]
      have hchunk : (match f.find (pageOf pos) with
          | some b => (List.range n).map fun i => f.mem b.vaddr (pos % blockSize + i)
          | none => List.replicate n 0) = (List.range n).map fun i => f.byte (pos + i) := by
        have hbyte : ∀ i < n, f.byte (pos + i) = match f.find (pageOf pos) with
            | some b => f.mem b.vaddr (pos % blockSize + i)
            | none => 0 := by
          intro i hi
          have hlt : pos % blockSize + i < blockSize := by omega
          obtain ⟨h₁, h₂⟩ := pageOf_add hlt
          unfold byte
          rw [h₁, h₂]
        cases hf : f.find (pageOf pos) with
        | none =>
          rw [hf] at hbyte
          refine (List.eq_replicate_iff.mpr ⟨by simp, ?_⟩).symm
          intro a ha
          obtain ⟨i, hi, rfl⟩ := List.mem_map.mp ha
          exact hbyte i (List.mem_range.mp hi)
        | some b =>
          rw [hf] at hbyte
          exact List.map_congr_left fun i hi => (hbyte i (List.mem_range.mp hi)).symm
      simp only [hchunk]
      rw [← hsum, List.range_add, List.map_append, List.map_map, Nat.add_assoc]
      simp [Function.comp_def, Nat.add_assoc]

/-- **`ramfs_read_nolock` returns the bytes from the position on, up to the end of the file.** -/
theorem readNolock_eq : f.readNolock len pos =
    ((List.range (min len (f.fsize - pos))).map fun i => f.byte (pos + i), pos + min len (f.fsize - pos)) :=
  readLoop_eq (Nat.le_refl _)

/-! ## Files without holes -/

/-- Every byte of the file is in a block. -/
def Dense (f : FileData) : Prop := ∀ x < f.fsize, (f.find (pageOf x)).isSome = true

theorem Dense.find (h : f.Dense) (hpos : pos ≤ f.fsize) (hoff : pos % blockSize ≠ 0) :
    (f.find (pageOf pos)).isSome = true := by
  have hlt : (pos - 1) % blockSize + 1 < blockSize := by
    unfold blockSize at hoff ⊢
    omega
  have hsucc : pos - 1 + 1 = pos := by
    have : pos ≠ 0 := fun h0 => hoff (by rw [h0]; rfl)
    omega
  rw [← hsucc, (pageOf_add hlt).1]
  exact h (pos - 1) (by omega)

omit [Machine] in
theorem find_append (f : FileData) (page page' v : Nat) :
    (((f.newBlock v).appendNewBlock ⟨page, v⟩).find page').isSome = true ↔
      page' = page ∨ (f.find page').isSome = true := by
  have hnew : ∀ p, (f.newBlock v).find p = f.find p := fun _ => rfl
  unfold appendNewBlock
  rw [hnew]
  cases hf : f.find page with
  | some b =>
    dsimp only
    rw [hnew]
    refine ⟨.inr, fun h => h.elim (fun he => ?_) id⟩
    rw [he, hf]
    rfl
  | none =>
    simp only [FileData.find, List.find?_isSome, List.mem_orderedInsert, decide_eq_true_eq]
    constructor
    · rintro ⟨b, rfl | hb, ho⟩
      · exact .inl ho.symm
      · exact .inr ⟨b, hb, ho⟩
    · rintro (rfl | ⟨b, hb, ho⟩)
      · exact ⟨⟨page', v⟩, .inl rfl, rfl⟩
      · exact ⟨b, .inr hb, ho⟩

theorem Dense.writeBlock (hold : ∀ x < f.fsize, (f.find (pageOf x)).isSome = true)
    (hpage : (f.find (pageOf pos)).isSome = true) (hpos : pos ≤ f.fsize)
    (hbuf : buf.length ≤ blockSize - pos % blockSize) : (f.writeBlock b pos buf).Dense := by
  intro x hx
  show (f.find (pageOf x)).isSome = true
  have hx : x < max f.fsize (pos + buf.length) := hx
  by_cases hlt : x < f.fsize
  · exact hold x hlt
  · obtain ⟨i, rfl⟩ : ∃ i, x = pos + i := ⟨x - pos, by omega⟩
    have hi : pos % blockSize + i < blockSize := by
      have := Nat.mod_lt pos (by decide : 0 < blockSize)
      omega
    rw [(pageOf_add hi).1]
    exact hpage

/-- **A write** that does not start behind the end finds its blocks, and leaves no hole. -/
theorem Dense.writeLoop : ∀ (fuel : Nat) {f : FileData} (buf : List UInt8) {pos : Nat} (allocs : List (Option Nat)),
    f.Dense → pos ≤ f.fsize → ∃ r, FileData.writeLoop fuel f buf pos allocs = some r ∧ r.1.Dense
  | 0, f, buf, pos, _, h, _ => ⟨(f, buf, pos), rfl, h⟩
  | fuel + 1, f, buf, pos, allocs, h, hpos => by
    rw [FileData.writeLoop]
    by_cases hnil : buf = []
    · exact ⟨_, if_pos hnil, h⟩
    rw [if_neg hnil]
    have htake : (buf.take (min (blockSize - pos % blockSize) buf.length)).length =
        min (blockSize - pos % blockSize) buf.length := by
      rw [List.length_take]
      omega
    have hend : ∀ (g : FileData) b, pos + min (blockSize - pos % blockSize) buf.length ≤
        (g.writeBlock b pos (buf.take (min (blockSize - pos % blockSize) buf.length))).fsize := fun g b => by
      show _ ≤ max _ _
      rw [htake]
      exact Nat.le_max_right ..
    dsimp only
    split
    · next b hb =>
      exact Dense.writeLoop fuel _ allocs (Dense.writeBlock h (by rw [hb]; rfl) hpos (by rw [htake]; omega)) (hend ..)
    · next hb =>
      split_ifs with hoff
      · have := h.find hpos hoff
        rw [hb] at this
        cases this
      split
      · next v allocs =>
        have hfsize : ((f.newBlock v).appendNewBlock ⟨pageOf pos, v⟩).fsize = f.fsize := by
          unfold appendNewBlock
          split <;> rfl
        refine Dense.writeLoop fuel _ allocs (Dense.writeBlock (fun x hx => ?_) ?_ (by rw [hfsize]; exact hpos)
          (by rw [htake]; omega)) (hend ..)
        · rw [hfsize] at hx
          exact (find_append ..).mpr (.inr (h x hx))
        · exact (find_append ..).mpr (.inl rfl)
      · exact ⟨_, rfl, h⟩

theorem Dense.truncate (h : f.Dense) (hlen : len ≤ f.fsize) : (f.inodeTruncateSafe len).Dense := by
  unfold inodeTruncateSafe
  split_ifs with hlt hgt
  · intro x hx
    have hx : x < len := hx
    obtain ⟨b, hb⟩ := Option.isSome_iff_exists.mp (h x (by omega))
    have hmem := List.mem_of_find?_eq_some hb
    have hoff : b.offset = pageOf x := by simpa using List.find?_some hb
    have hle : pageOf x ≤ x := Nat.le_trans (Nat.mod_le ..) (Nat.sub_le ..)
    show (List.find? _ (dropBlocks len f.blocks)).isSome = true
    refine List.find?_isSome.mpr ⟨b, ?_, by simpa using hoff⟩
    -- the blocks that are dropped are past the end
    have hsplit := List.takeWhile_append_dropWhile (p := fun b : Block => decide (len ≤ b.offset)) (l := f.blocks.reverse)
    have hmem' := List.mem_reverse.mpr hmem
    rw [← hsplit] at hmem'
    rcases List.mem_append.mp hmem' with hdrop | hkeep
    · have hpast : len ≤ b.offset := by simpa using List.mem_takeWhile_imp hdrop
      omega
    · exact List.mem_reverse.mpr hkeep
  · omega
  · exact h

end FileData

/-! ## Runs -/

structure OpenFile where
  file : FileData
  fpos : Nat → Nat

inductive Whence
  | seekSet | seekCur | seekEnd
deriving DecidableEq, Repr

inductive FileCall
  | seek (h : Nat) (off : Int) (whence : Whence)
  | read (h len : Nat)
  | write (h : Nat) (append : Bool) (buf : List UInt8) (allocs : List (Option Nat))
  /-- `ramfs_truncate`, which may also extend -/
  | truncate (len : Nat)

namespace OpenFile

variable [Machine] (s : OpenFile)

/-- `ramfs_seek_nolock`: a position that is negative becomes zero. -/
def seek (h : Nat) (off : Int) (whence : Whence) : OpenFile :=
  let pos := match whence with
    | .seekSet => off
    | .seekCur => s.fpos h + off
    | .seekEnd => s.file.fsize + off
  { s with fpos := Function.update s.fpos h pos.toNat }

/-- A call; there is no result if the assertion of a write fails. -/
def exec : FileCall → Option OpenFile
  | .seek h off whence => some (s.seek h off whence)
  | .read h len => some { s with fpos := Function.update s.fpos h (s.file.readNolock len (s.fpos h)).2 }
  | .write h append buf allocs => (s.file.writeNolock append buf (s.fpos h) allocs).map fun r =>
    ⟨r.1, Function.update s.fpos h r.2⟩
  | .truncate len => some { s with file := s.file.inodeTruncateSafe len }

def Initial : Prop := s.file.fsize = 0

/-- A write starts at the end or before it, and the file is not extended. -/
def Allowed : FileCall → Prop
  | .write h append _ _ => append = true ∨ s.fpos h ≤ s.file.fsize
  | .truncate len => len ≤ s.file.fsize
  | _ => True

instance (c : FileCall) : Decidable (s.Allowed c) := by
  cases c <;> unfold Allowed <;> infer_instance

variable {s s' : OpenFile}

/-- **A call** that is allowed has a result, and leaves no hole. -/
theorem dense_exec {c : FileCall} (h : s.file.Dense) (ha : s.Allowed c) : ∃ s', s.exec c = some s' ∧ s'.file.Dense := by
  cases c with
  | seek | read => exact ⟨_, rfl, h⟩
  | truncate len => exact ⟨_, rfl, h.truncate ha⟩
  | write i append buf allocs =>
    have hpos : (if append then s.file.fsize else s.fpos i) ≤ s.file.fsize := by
      split_ifs with happ
      · exact Nat.le_refl _
      · exact ha.resolve_left happ
    obtain ⟨r, hr, hd⟩ := FileData.Dense.writeLoop buf.length buf allocs h hpos
    refine ⟨⟨r.1, Function.update s.fpos i r.2.2⟩, ?_, hd⟩
    simp only [exec, FileData.writeNolock, hr, Option.map_some]

theorem dense_reached (h : Reached Initial exec Allowed s) : s.file.Dense := by
  refine h.invariant (I := fun s => s.file.Dense) (fun s h0 x hx => ?_) fun s c s' h ha he => ?_
  · rw [Initial] at h0
    omega
  · obtain ⟨s'', he', hd⟩ := dense_exec h ha
    exact Option.some.inj (he'.symm.trans he) ▸ hd

/-- **A write finds its block.** In the runs whose writes start at the end of the file or before it, and that do not extend the
file, the assertion of `ramfs_write_nolock` holds at each write, and every byte of the file is in a block. -/
theorem write_finds_block {s : OpenFile} (h : Reached Initial exec Allowed s) :
    (∀ x < s.file.fsize, (s.file.find (FileData.pageOf x)).isSome = true) ∧
    ∀ i append buf allocs, append = true ∨ s.fpos i ≤ s.file.fsize → (s.exec (.write i append buf allocs)).isSome = true := by
  have hd := dense_reached h
  refine ⟨hd, fun i append buf allocs ha => ?_⟩
  obtain ⟨s', he, -⟩ := dense_exec (c := .write i append buf allocs) hd ha
  rw [he]
  rfl

def sample : OpenFile := ⟨⟨0, [], fun _ _ => 0⟩, fun _ => 0⟩

end OpenFile

open OpenFile

/-- Five bytes, two of them taken back, and a write inside of the page. -/
theorem write_finds_block_sample : ∃ s, execs (@OpenFile.exec machine32) sample
      [.write 0 false [1, 2, 3, 4, 5] [some 7], .truncate 3, .seek 0 1 .seekSet, .read 0 1] = some s ∧
    (@OpenFile.exec machine32 s (.write 0 false [9] [])).isSome = true := by
  have hsome : (execs (@OpenFile.exec machine32) sample [.write 0 false [1, 2, 3, 4, 5] [some 7], .truncate 3,
      .seek 0 1 .seekSet, .read 0 1]).map (fun s => (s.fpos 0, s.file.fsize)) = some (2, 3) := by decide
  obtain ⟨s, hs, hpos⟩ := Option.map_eq_some_iff.mp hsome
  obtain ⟨hpos, hsize⟩ := Prod.mk.inj hpos
  have hr : Reached Initial (@OpenFile.exec machine32) Allowed sample := .start rfl
  refine ⟨s, hs, (@write_finds_block machine32 s (hr.execs (by decide) hs)).2 0 false [9] [] (.inr ?_)⟩
  rw [hpos, hsize]
  decide

/-- A write behind the end of a new file that does not start with a page, and a write to the hole of a file that was extended. -/
theorem write_to_hole :
    execs (@OpenFile.exec machine32) sample [.seek 0 1 .seekSet, .write 0 false [65] [some 7]] = none ∧
    execs (@OpenFile.exec machine32) sample [.truncate 10, .seek 0 5 .seekSet, .write 0 false [65] [some 7]] = none :=
  ⟨rfl, rfl⟩

end Usax.Fs
