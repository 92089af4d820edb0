import Mathlib

/-!
# FAT volumes

`fat32_base.h` and the part of `fat32_base.c` that walks a directory. A volume is the memory after its header; the fields of
the header are a record of their own. A directory entry is 32 bytes, which are read as a `fat_entry` or as a `fat_long_entry`.

`fat_walk` is generic in its callback, and in what the callback keeps: the volume is a part of that, since a callback may write
to it. A long name is put together in a buffer of 256 bytes; a write after its end is a `fault`. The chain of clusters is
followed with fuel. `walkDentries_eq` and `walkChain_eq` say what a walk is when the volume stays as it is: one pass over the
entries of all clusters (`walkSlots`).
-/

namespace Usax.Fat

def u32 (n : Nat) : Nat := n % 2 ^ 32

/-! ## Entries -/

/-- The 32 bytes of a directory entry. -/
structure FatEntry where
  bytes : Vector UInt8 32
deriving DecidableEq, Repr

namespace FatEntry

variable (e : FatEntry)

def dirName : List UInt8 := e.bytes.toList.take 11

/-- The byte of the attributes, in both kinds of entries. -/
def attr : UInt8 := e.bytes[11]

def readonly : Bool := e.attr &&& 1 ≠ 0
def hidden : Bool := e.attr &&& 2 ≠ 0
def system : Bool := e.attr &&& 4 ≠ 0
def volumeId : Bool := e.attr &&& 8 ≠ 0
def directory : Bool := e.attr &&& 16 ≠ 0

/-- The first byte of the name says that the entry was freed. -/
def available : Bool := e.bytes[0] = 0xE5

/-- The first byte of the name says that there are no more entries. -/
def last : Bool := e.bytes[0] = 0

def isLongNameEntry : Bool := e.readonly && e.hidden && e.system && e.volumeId

def ldirChksum : UInt8 := e.bytes[13]

/-- `LDIR_Name1`, by units of two bytes. -/
def ldirName1 : List (UInt8 × UInt8) :=
  [(e.bytes[1], e.bytes[2]), (e.bytes[3], e.bytes[4]), (e.bytes[5], e.bytes[6]), (e.bytes[7], e.bytes[8]),
    (e.bytes[9], e.bytes[10])]

def ldirName2 : List (UInt8 × UInt8) :=
  [(e.bytes[14], e.bytes[15]), (e.bytes[16], e.bytes[17]), (e.bytes[18], e.bytes[19]), (e.bytes[20], e.bytes[21]),
    (e.bytes[22], e.bytes[23]), (e.bytes[24], e.bytes[25])]

def ldirName3 : List (UInt8 × UInt8) := [(e.bytes[28], e.bytes[29]), (e.bytes[30], e.bytes[31])]

end FatEntry

def shortnameChecksum (shortname : List UInt8) : UInt8 :=
  shortname.foldl (fun sum b => (if sum &&& 1 ≠ 0 then (0x80 : UInt8) else 0) + (sum >>> 1) + b) 0

/-- `fat32_is_valid_filename_character`, by the table `fat32_valid_chars`. -/
def fat32IsValidFilenameCharacter (c : UInt8) : Bool :=
  34 < c && c < 127 && !([42, 47, 58, 60, 62, 63, 92, 124] : List UInt8).contains c

/-! ## Long names -/

/-- `struct fat_walk_long_name_ctx`: the first `lname_sz` bytes of `lname_buf`, and the checksum, if it is not -1. -/
structure LongNameCtx where
  isValid : Bool
  lnameBuf : List UInt8
  lnameChksum : Option UInt8
  fault : Bool
deriving DecidableEq, Repr

def lnameBufSize : Nat := 256

/-- The loops over the three parts of the name in `fat_handle_long_dir_entry`: the characters, or nothing if there is one that
is not ASCII. -/
def entryChars : List (UInt8 × UInt8) → Option (List UInt8)
  | [] => some []
  | (c, hi) :: us => if hi ≠ 0 then none else if c = 0 ∨ c = 0xFF then some [] else (entryChars us).map (c :: ·)

/-- The last loop of `fat_handle_long_dir_entry`, over the characters from the last one on. -/
def LongNameCtx.push (ctx : LongNameCtx) : List UInt8 → LongNameCtx
  | [] => ctx
  | c :: cs =>
    if fat32IsValidFilenameCharacter c = false then { ctx with isValid := false }
    else LongNameCtx.push
      { ctx with lnameBuf := ctx.lnameBuf ++ [c], fault := ctx.fault || lnameBufSize ≤ ctx.lnameBuf.length } cs

/-- The start of `fat_handle_long_dir_entry`: another checksum starts another name. -/
def LongNameCtx.restart (ctx : LongNameCtx) (chksum : UInt8) : LongNameCtx :=
  if ctx.lnameChksum ≠ some chksum then { ctx with lnameBuf := [], lnameChksum := some chksum, isValid := true } else ctx

def fatHandleLongDirEntry (ctx : LongNameCtx) (le : FatEntry) : LongNameCtx :=
  let ctx := ctx.restart le.ldirChksum
  if ctx.isValid = false then ctx
  else match entryChars (le.ldirName1 ++ le.ldirName2 ++ le.ldirName3) with
    | none => { ctx with isValid := false }
    | some cs => ctx.push cs.reverse

def finalizeLongName (ctx : LongNameCtx) (e : FatEntry) : LongNameCtx × Option (List UInt8) :=
  if ctx.lnameChksum = some (shortnameChecksum e.dirName) then
    ({ ctx with fault := ctx.fault || lnameBufSize ≤ ctx.lnameBuf.length }, some ctx.lnameBuf.reverse)
  else (ctx, none)

def LongNameCtx.init : LongNameCtx := ⟨false, [], none, false⟩

def LongNameCtx.clear (ctx : LongNameCtx) : LongNameCtx := { ctx with lnameBuf := [], lnameChksum := none }

def LongNameCtx.nameOf (ctx : LongNameCtx) (e : FatEntry) : LongNameCtx × Option (List UInt8) :=
  if 0 < ctx.lnameBuf.length ∧ ctx.isValid = true then finalizeLongName ctx e else (ctx, none)

/-! ## Volumes -/

inductive FatType
  | fat16
  | fat32
deriving DecidableEq, Repr

/-- The value of the enumerator: the bytes of an entry of the FAT. -/
def FatType.size : FatType → Nat
  | .fat16 => 2
  | .fat32 => 4

/-- The fields of `struct fat_hdr`, and of `struct fat32_header2`, that are used. -/
structure FatHdr where
  bytsPerSec : Nat
  secPerClus : Nat
  rsvdSecCnt : Nat
  numFATs : Nat
  rootEntCnt : Nat
  totSec16 : Nat
  totSec32 : Nat
  fatSz16 : Nat
  fatSz32 : Nat
  rootClus : Nat
deriving DecidableEq, Repr

/-- A volume: the header, and the memory from its address on. -/
structure FatVol where
  hdr : FatHdr
  mem : Nat → UInt8

namespace FatHdr

variable (h : FatHdr)

def getFATSz : Nat := if h.fatSz16 ≠ 0 then h.fatSz16 else h.fatSz32

def getRootDirSectors : Nat := (h.rootEntCnt * 32 + (h.bytsPerSec - 1)) / h.bytsPerSec

def getFirstDataSector : Nat := u32 (h.rsvdSecCnt + h.numFATs * h.getFATSz + h.getRootDirSectors)

def getSectorForCluster (n : Nat) : Nat := u32 ((n + 2 ^ 32 - 2) * h.secPerClus + h.getFirstDataSector)

/-- `fat_get_pointer_to_cluster_data`, as an offset. -/
def getPointerToClusterData (n : Nat) : Nat := u32 (h.getSectorForCluster n * h.bytsPerSec)

def getClusterSize : Nat := h.bytsPerSec * h.secPerClus

def getDirEntriesPerCluster : Nat := u32 (h.bytsPerSec * h.secPerClus) / 32

/-- `fat_get_rootdir`: the offset of the root directory, and its cluster. -/
def getRootdir : FatType → Nat × Nat
  | .fat16 => (u32 (h.bytsPerSec * u32 (h.rsvdSecCnt + h.numFATs * h.fatSz16)), 0)
  | .fat32 => (u32 (h.bytsPerSec * h.getSectorForCluster h.rootClus), h.rootClus)

/-- `fat_get_entry_ptr`, as an offset. -/
def getEntryPtr (ft : FatType) (fatN clu : Nat) : Nat :=
  let fatOffset := u32 (clu * ft.size)
  u32 (u32 (fatN * h.getFATSz + h.rsvdSecCnt + fatOffset / h.bytsPerSec) * h.bytsPerSec) + fatOffset % h.bytsPerSec

end FatHdr

namespace FatVol

variable (v : FatVol)

def dentry (off : Nat) : FatEntry := ⟨Vector.ofFn fun i => v.mem (off + i)⟩

def read (off : Nat) : (n : Nat) → Nat
  | 0 => 0
  | n + 1 => (v.mem off).toNat + 256 * read (off + 1) n

def readFatEntry (ft : FatType) (fatN clu : Nat) : Nat :=
  match ft with
  | .fat16 => v.read (v.hdr.getEntryPtr ft fatN clu) 2
  | .fat32 => v.read (v.hdr.getEntryPtr ft fatN clu) 4 &&& 0x0FFFFFFF

end FatVol

def fatIsEndOfClusterchain (ft : FatType) (val : Nat) : Bool :=
  match ft with
  | .fat16 => 0xFFF8 ≤ val
  | .fat32 => 0x0FFFFFF0 ≤ val && val ≠ 0x0FFFFFF7

def fatIsBadCluster (ft : FatType) (val : Nat) : Bool :=
  match ft with
  | .fat16 => val = 0xFFF7
  | .fat32 => val = 0x0FFFFFF7

/-! ## Walks -/

section

variable {σ : Type} (vol : σ → FatVol) (cb : σ → Nat → Option (List UInt8) → σ × Bool)

/-- The loop of `fat_walk` over `n` entries from an offset on; it also says if the walk is over. -/
def walkDentries : (n off : Nat) → Option LongNameCtx × σ → (Option LongNameCtx × σ) × Bool
  | 0, _, st => (st, false)
  | n + 1, off, (ctx, arg) =>
    let e := (vol arg).dentry off
    if ctx.isSome ∧ e.isLongNameEntry then walkDentries n (off + 32) (ctx.map (fatHandleLongDirEntry · e), arg)
    else if e.volumeId ∨ e.available then walkDentries n (off + 32) (ctx, arg)
    else if e.last then ((ctx, arg), true)
    else
      let name := ctx.bind fun c => (c.nameOf e).2
      let r := cb arg off name
      let st := (ctx.map fun c => (c.nameOf e).1.clear, r.1)
      if r.2 then (st, true) else walkDentries n (off + 32) st

/-- The outer loop of `fat_walk`: the entries stay at `ptr` if there is no cluster. No result means that the fuel is not
enough, or that the assertion about bad clusters fails. -/
def walkChain (ft : FatType) : (ptr perCluster fuel cluster : Nat) → Option LongNameCtx × σ → Option (Option LongNameCtx × σ)
  | _, _, 0, _, _ => none
  | ptr, perCluster, fuel + 1, cluster, st =>
    let ptr := if cluster ≠ 0 then (vol st.2).hdr.getPointerToClusterData cluster else ptr
    let r := walkDentries vol cb perCluster ptr st
    if r.2 then some r.1
    else if cluster = 0 then some r.1
    else
      let val := (vol r.1.2).readFatEntry ft 0 cluster
      if fatIsEndOfClusterchain ft val then some r.1
      else if fatIsBadCluster ft val then none
      else walkChain ft ptr perCluster fuel val r.1

/-- `fat_walk`, with a context for long names or without; what it returns is always 0. -/
def fatWalk (ft : FatType) (fuel cluster : Nat) (ctx : Bool) (arg : σ) : Option (Option LongNameCtx × σ) :=
  let h := (vol arg).hdr
  walkChain vol cb ft (h.getRootdir ft).1 h.getDirEntriesPerCluster fuel
    (if cluster = 0 then (h.getRootdir ft).2 else cluster) (if ctx then some .init else none, arg)

end

section

variable {σ : Type} {vol : σ → FatVol} {cb : σ → Nat → Option (List UInt8) → σ × Bool} {P : σ → Prop}

theorem walkDentries_keeps (hcb : ∀ arg off name, P arg → P (cb arg off name).1) :
    ∀ (n off : Nat) (st : Option LongNameCtx × σ), P st.2 → P (walkDentries vol cb n off st).1.2
  | 0, _, _, h => h
  | n + 1, off, (ctx, arg), h => by
    simp only [walkDentries]
    split_ifs
    · exact walkDentries_keeps hcb n _ _ h
    · exact walkDentries_keeps hcb n _ _ h
    · exact h
    · exact hcb _ _ _ h
    · exact walkDentries_keeps hcb n _ _ (hcb _ _ _ h)

theorem walkChain_keeps (hcb : ∀ arg off name, P arg → P (cb arg off name).1) {ft : FatType} {per : Nat}
    {r : Option LongNameCtx × σ} : ∀ (fuel ptr cluster : Nat) (st : Option LongNameCtx × σ), P st.2 →
      walkChain vol cb ft ptr per fuel cluster st = some r → P r.2
  | 0, _, _, _, _, hr => nomatch hr
  | fuel + 1, ptr, cluster, st, h, hr => by
    have hd : ∀ p, P (walkDentries vol cb per p st).1.2 := fun p => walkDentries_keeps hcb per p st h
    rw [walkChain] at hr
    dsimp only at hr
    generalize (if cluster ≠ 0 then (vol st.2).hdr.getPointerToClusterData cluster else ptr) = p at hr
    split_ifs at hr
    · exact Option.some.inj hr ▸ hd p
    · exact Option.some.inj hr ▸ hd p
    · exact Option.some.inj hr ▸ hd p
    · exact walkChain_keeps hcb fuel _ _ _ (hd p) hr

end

/-! ## Walks that leave the volume alone -/

section

variable {σ : Type} (cb : σ → Nat → Option (List UInt8) → σ × Bool)

/-- The offsets of entries, and the entries. -/
abbrev Slot := Nat × FatEntry

def FatVol.slots (v : FatVol) (off n : Nat) : List Slot := (List.range n).map fun i => (off + 32 * i, v.dentry (off + 32 * i))

def walkSlots : List Slot → LongNameCtx × σ → (LongNameCtx × σ) × Bool
  | [], st => (st, false)
  | (off, e) :: l, (ctx, arg) =>
    if e.isLongNameEntry then walkSlots l (fatHandleLongDirEntry ctx e, arg)
    else if e.volumeId ∨ e.available then walkSlots l (ctx, arg)
    else if e.last then ((ctx, arg), true)
    else
      let r := cb arg off (ctx.nameOf e).2
      let st := ((ctx.nameOf e).1.clear, r.1)
      if r.2 then (st, true) else walkSlots l st

theorem FatVol.slots_succ (v : FatVol) (off n : Nat) : v.slots off (n + 1) = (off, v.dentry off) :: v.slots (off + 32) n := by
  simp only [slots, List.range_succ_eq_map, List.map_cons, List.map_map, Nat.mul_zero, Nat.add_zero]
  congr 1
  refine List.map_congr_left fun i _ => ?_
  simp only [Function.comp_apply, Nat.mul_succ, Nat.add_assoc, Nat.add_comm 32]

def inCtx (r : (LongNameCtx × σ) × Bool) : (Option LongNameCtx × σ) × Bool := ((some r.1.1, r.1.2), r.2)

theorem walkDentries_eq (v : FatVol) : ∀ (n off : Nat) (ctx : LongNameCtx) (arg : σ),
    walkDentries (fun _ => v) cb n off (some ctx, arg) = inCtx (walkSlots cb (v.slots off n) (ctx, arg))
  | 0, _, _, _ => rfl
  | n + 1, off, ctx, arg => by
    have ih := walkDentries_eq v n (off + 32)
    rw [FatVol.slots_succ]
    simp only [walkDentries, walkSlots, Option.isSome_some, true_and, Option.map_some, Option.bind_some, ih]
    split_ifs <;> rfl

theorem walkSlots_append (l m : List Slot) (st : LongNameCtx × σ) :
    walkSlots cb (l ++ m) st =
      if (walkSlots cb l st).2 then walkSlots cb l st else walkSlots cb m (walkSlots cb l st).1 := by
  induction l generalizing st with
  | nil => rfl
  | cons s l ih =>
    obtain ⟨off, e⟩ := s
    obtain ⟨ctx, arg⟩ := st
    simp only [List.cons_append, walkSlots, ih]
    split_ifs <;> first | rfl | contradiction

inductive Chain (v : FatVol) (ft : FatType) : Nat → List Nat → Prop
  | last {c : Nat} : c ≠ 0 → fatIsEndOfClusterchain ft (v.readFatEntry ft 0 c) = true → Chain v ft c [c]
  | next {c n : Nat} {cs : List Nat} : c ≠ 0 → v.readFatEntry ft 0 c = n → fatIsEndOfClusterchain ft n = false →
      fatIsBadCluster ft n = false → Chain v ft n cs → Chain v ft c (c :: cs)

def FatVol.fileBytes (v : FatVol) (cs : List Nat) : List UInt8 :=
  cs.flatMap fun c => (List.range v.hdr.getClusterSize).map fun k => v.mem (v.hdr.getPointerToClusterData c + k)

def FatVol.chainSlots (v : FatVol) (cs : List Nat) : List Slot :=
  cs.flatMap fun c => v.slots (v.hdr.getPointerToClusterData c) v.hdr.getDirEntriesPerCluster

theorem walkChain_eq {v : FatVol} {ft : FatType} {c fuel : Nat} {cs : List Nat} (h : Chain v ft c cs)
    (hf : cs.length ≤ fuel) (ptr : Nat) (ctx : LongNameCtx) (arg : σ) :
    walkChain (fun _ => v) cb ft ptr v.hdr.getDirEntriesPerCluster fuel c (some ctx, arg) =
      some (inCtx (walkSlots cb (v.chainSlots cs) (ctx, arg))).1 := by
  induction h generalizing fuel ptr ctx arg with
  | last h0 hend =>
    obtain ⟨fuel, rfl⟩ : ∃ n, fuel = n + 1 := ⟨fuel - 1, by simp only [List.length_singleton] at hf; omega⟩
    simp only [walkChain, h0, ne_eq, not_false_eq_true, if_true, walkDentries_eq, hend, inCtx, FatVol.chainSlots,
      List.flatMap_cons, List.flatMap_nil, List.append_nil, ite_self]
  | next h0 hn hend hbad _ ih =>
    obtain ⟨fuel, rfl⟩ : ∃ n, fuel = n + 1 := ⟨fuel - 1, by simp only [List.length_cons] at hf; omega⟩
    have hf' := Nat.le_of_succ_le_succ hf
    simp only [walkChain, h0, ne_eq, not_false_eq_true, if_true, walkDentries_eq, if_false, hn, hend, hbad, inCtx,
      Bool.false_eq_true, ih hf']
    simp only [FatVol.chainSlots, List.flatMap_cons, walkSlots_append]
    split_ifs <;> rfl

theorem walkChain_root (v : FatVol) (ft : FatType) (fuel ptr n : Nat) (ctx : LongNameCtx) (arg : σ) :
    walkChain (fun _ => v) cb ft ptr n (fuel + 1) 0 (some ctx, arg) =
      some (inCtx (walkSlots cb (v.slots ptr n) (ctx, arg))).1 := by
  simp only [walkChain, ne_eq, not_true_eq_false, if_false, walkDentries_eq, if_true, ite_self]

end

end Usax.Fat
