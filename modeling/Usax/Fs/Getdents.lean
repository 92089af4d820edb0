import Mathlib.Data.BitVec
import Usax.Common.Utils
import Usax.Fs.Resolve

/-!
# Listing a directory

`vfs_getdents.c.h`: the callback that copies an entry to the buffer of the user, and the call. The file system calls it for its
entries one after the other until it answers something else than 0 (`walkCb`). How much of the buffer can be written is
`accessible`.

`walkCb_skip` says what the callback does with the entries that were returned by an earlier call, if it is the one to skip them,
and `walkCb_fill` that the others are copied as long as there is room: `fill` has the entries that fit.
-/

namespace Usax.Fs

open Common

/-! ## Model -/

def toInt (n : Nat) : Int := (BitVec.ofNat 32 n).toInt

theorem toInt_eq {n : Nat} (h : n < 2 ^ 31) : toInt n = n := by
  unfold toInt
  rw [BitVec.toInt_eq_toNat_of_lt (by rw [BitVec.toNat_ofNat]; omega), BitVec.toNat_ofNat, Nat.mod_eq_of_lt (by omega)]

/-- `struct vfs_dent64`; the name has no final NUL here, and `nameLen` is what the file system says. -/
structure VfsDent64 where
  ino : Nat
  type : VfsType
  nameLen : Nat
  name : List Char
deriving DecidableEq, Repr

/-- `struct linux_dirent64`, with the bytes that are copied to `d_name`. -/
structure LinuxDirent64 where
  dIno : Nat
  dOff : Nat
  dReclen : Nat
  dType : Nat
  dName : List Char
deriving DecidableEq, Repr

/-- `struct vfs_getdents_ctx`, with the position of the handle and what was copied so far. -/
structure GetdentsCtx where
  bufSize : Nat
  offset : Nat
  deSkip : Bool
  off : Nat
  dirPos : Nat
  accessible : Nat
  copied : List LinuxDirent64
deriving DecidableEq, Repr

def VfsType.toLinuxDirentType : VfsType → Nat
  | .none => 0
  | .file => 8
  | .dir => 4
  | .symlink => 10
  | .charDev => 2
  | .blockDev => 6
  | .pipe => 1

variable [Machine]

/-- `sizeof(struct linux_dirent64)`: `d_name` is at 19, and the size is a multiple of the alignment of a `u64`. -/
def sizeofDirent : Nat := if Machine.nbits = 32 then 20 else 24

def entrySize (vde : VfsDent64) : Nat := (sizeofDirent + vde.nameLen) % 2 ^ 16

def userEnt (off : Nat) (vde : VfsDent64) : LinuxDirent64 where
  dIno := vde.ino
  dOff := off + 1
  dReclen := entrySize vde
  dType := vde.type.toLinuxDirentType
  dName := (vde.name ++ [Char.ofNat 0]).take vde.nameLen

def vfsGetdentsCb (ctx : GetdentsCtx) (vde : VfsDent64) : GetdentsCtx × Int :=
  if ctx.deSkip = true ∧ ctx.off < ctx.dirPos then ({ ctx with off := ctx.off + 1 }, 0)
  else if ctx.bufSize < (ctx.offset + entrySize vde) % 2 ^ 32 then
    (ctx, if ctx.offset = 0 then -Errno.einval.code else toInt ctx.offset)
  else if ctx.accessible < ctx.offset + sizeofDirent ∨ ctx.accessible < ctx.offset + 19 + vde.nameLen then
    (ctx, -Errno.efault.code)
  else
    ({ ctx with
        offset := (ctx.offset + entrySize vde) % 2 ^ 32
        off := ctx.off + 1
        dirPos := ctx.dirPos + 1
        copied := ctx.copied ++ [userEnt ctx.off vde] }, 0)

/-- The callback for one entry after the other, until it answers something else than 0; with the entries that are left, from
the one it was called for last. -/
def walkCb (ctx : GetdentsCtx) : List VfsDent64 → GetdentsCtx × Int × List VfsDent64
  | [] => (ctx, 0, [])
  | vde :: l =>
    let r := vfsGetdentsCb ctx vde
    if r.2 = 0 then walkCb r.1 l else (r.1, r.2, vde :: l)

def getdentsCtx (deSkip : Bool) (dirPos bufSize accessible : Nat) : GetdentsCtx where
  bufSize := bufSize
  offset := 0
  deSkip := deSkip
  off := if deSkip then 0 else dirPos
  dirPos := dirPos
  accessible := accessible
  copied := []

/-- The end of `vfs_getdents64`: `rc` is what the file system returned. -/
def getdentsRc (rc : Int) (ctx : GetdentsCtx) : Int := if rc = 0 then toInt ctx.offset else rc

/-! ## What is copied -/

/-- The entries that fit in a buffer after `offset` bytes, and the others. -/
def fill (bufSize : Nat) : (offset : Nat) → List VfsDent64 → List VfsDent64 × List VfsDent64
  | _, [] => ([], [])
  | offset, vde :: l =>
    if bufSize < offset + entrySize vde then ([], vde :: l)
    else ((vde :: (fill bufSize (offset + entrySize vde) l).1), (fill bufSize (offset + entrySize vde) l).2)

def totalSize (l : List VfsDent64) : Nat := (l.map entrySize).sum

def userEnts : (off : Nat) → List VfsDent64 → List LinuxDirent64
  | _, [] => []
  | off, vde :: l => userEnt off vde :: userEnts (off + 1) l

theorem length_userEnts (off : Nat) (l : List VfsDent64) : (userEnts off l).length = l.length := by
  induction l generalizing off with
  | nil => rfl
  | cons vde l ih => rw [userEnts, List.length_cons, List.length_cons, ih]

variable {ctx : GetdentsCtx} {bufSize offset : Nat} {l : List VfsDent64}

theorem fill_append : ∀ (offset : Nat) (l : List VfsDent64), (fill bufSize offset l).1 ++ (fill bufSize offset l).2 = l
  | _, [] => rfl
  | offset, vde :: l => by
    unfold fill
    split_ifs
    · rfl
    · exact congrArg (vde :: ·) (fill_append _ l)

theorem totalSize_fill : ∀ (offset : Nat) (l : List VfsDent64), offset ≤ bufSize →
    offset + totalSize (fill bufSize offset l).1 ≤ bufSize
  | _, [], h => h
  | offset, vde :: l, h => by
    unfold fill
    split_ifs with hf
    · exact h
    · have := totalSize_fill (offset + entrySize vde) l (by omega)
      simp only [totalSize, List.map_cons, List.sum_cons] at this ⊢
      omega

def GetdentsCtx.after (ctx : GetdentsCtx) (l : List VfsDent64) : GetdentsCtx :=
  { ctx with
    offset := ctx.offset + totalSize l
    off := ctx.off + l.length
    dirPos := ctx.dirPos + l.length
    copied := ctx.copied ++ userEnts ctx.off l }

/-- The buffer is all there, and its size is an `int`. -/
structure GetdentsCtx.Plain (ctx : GetdentsCtx) : Prop where
  room : ctx.offset ≤ ctx.bufSize
  accessible : ctx.bufSize ≤ ctx.accessible
  size : ctx.bufSize < 2 ^ 31
  noSkip : ctx.deSkip = true → ctx.dirPos ≤ ctx.off

theorem sizeofDirent_bounds : 20 ≤ sizeofDirent ∧ sizeofDirent ≤ 24 := by
  unfold sizeofDirent
  split_ifs <;> omega

theorem entrySize_eq {vde : VfsDent64} (h : vde.nameLen < 256) : entrySize vde = sizeofDirent + vde.nameLen := by
  have := sizeofDirent_bounds
  exact Nat.mod_eq_of_lt (by omega)

theorem vfsGetdentsCb_fits {vde : VfsDent64} (h : ctx.Plain) (hn : vde.nameLen < 256)
    (hf : ctx.offset + entrySize vde ≤ ctx.bufSize) : vfsGetdentsCb ctx vde = (ctx.after [vde], 0) := by
  obtain ⟨-, hacc, hsize, hskip⟩ := h
  have hes := entrySize_eq hn
  have hsz := sizeofDirent_bounds
  have hmod : (ctx.offset + entrySize vde) % 2 ^ 32 = ctx.offset + entrySize vde := Nat.mod_eq_of_lt (by omega)
  unfold vfsGetdentsCb
  rw [if_neg fun hs => by have := hskip hs.1; omega, hmod, if_neg (by omega), if_neg (by omega)]
  simp [GetdentsCtx.after, totalSize, userEnts]

theorem vfsGetdentsCb_stops {vde : VfsDent64} (h : ctx.Plain) (hn : vde.nameLen < 256)
    (hf : ctx.bufSize < ctx.offset + entrySize vde) :
    vfsGetdentsCb ctx vde = (ctx, if ctx.offset = 0 then -(Errno.einval.code : Int) else toInt ctx.offset) := by
  obtain ⟨hroom, -, hsize, hskip⟩ := h
  have hes := entrySize_eq hn
  have hsz := sizeofDirent_bounds
  have hmod : (ctx.offset + entrySize vde) % 2 ^ 32 = ctx.offset + entrySize vde := Nat.mod_eq_of_lt (by omega)
  unfold vfsGetdentsCb
  rw [if_neg fun hs => by have := hskip hs.1; omega, hmod, if_pos hf]

theorem GetdentsCtx.after_append (l m : List VfsDent64) : (ctx.after l).after m = ctx.after (l ++ m) := by
  have hu : ∀ (off : Nat) (l : List VfsDent64), userEnts off (l ++ m) = userEnts off l ++ userEnts (off + l.length) m := by
    intro off l
    induction l generalizing off with
    | nil => simp [userEnts]
    | cons v l ih => simp [userEnts, ih, Nat.add_comm 1, Nat.add_assoc]
  simp [GetdentsCtx.after, totalSize, hu, Nat.add_assoc]

theorem walkCb_skip : ∀ (l : List VfsDent64) {c : GetdentsCtx}, c.deSkip = true → c.off ≤ c.dirPos →
    c.dirPos ≤ c.off + l.length → walkCb c l = walkCb { c with off := c.dirPos } (l.drop (c.dirPos - c.off))
  | l, c, hs, hle, hlen => by
    by_cases hlt : c.off < c.dirPos
    · cases l with
      | nil => exact absurd hlen (by simpa using hlt)
      | cons vde l =>
        have hcb : vfsGetdentsCb c vde = ({ c with off := c.off + 1 }, 0) := if_pos ⟨hs, hlt⟩
        have hlen' : c.dirPos ≤ c.off + 1 + l.length := by
          rw [List.length_cons] at hlen
          omega
        rw [show c.dirPos - c.off = (c.dirPos - (c.off + 1)) + 1 by omega, List.drop_succ_cons]
        simp only [walkCb, hcb, if_true]
        exact walkCb_skip l (c := { c with off := c.off + 1 }) hs hlt hlen'
    · have he : c.off = c.dirPos := by omega
      have hc : ({ c with off := c.dirPos } : GetdentsCtx) = c := by
        cases c
        exact congrArg (fun off => (⟨_, _, _, off, _, _, _⟩ : GetdentsCtx)) he.symm
      rw [hc, he, Nat.sub_self, List.drop_zero]

/-- What the callback answers when the entries `l` are left: 0 if there are none, an error if nothing was copied, and how much
was copied otherwise. -/
def stopRc (offset : Nat) (l : List VfsDent64) : Int :=
  if l = [] then 0 else if offset = 0 then -Errno.einval.code else offset

theorem walkCb_fill : ∀ (l : List VfsDent64) {ctx : GetdentsCtx}, ctx.Plain → (∀ vde ∈ l, vde.nameLen < 256) →
    walkCb ctx l = (ctx.after (fill ctx.bufSize ctx.offset l).1,
      stopRc (ctx.offset + totalSize (fill ctx.bufSize ctx.offset l).1) (fill ctx.bufSize ctx.offset l).2,
      (fill ctx.bufSize ctx.offset l).2)
  | [], ctx, _, _ => by simp [walkCb, fill, stopRc, GetdentsCtx.after, totalSize, userEnts]
  | vde :: l, ctx, h, hn => by
    obtain ⟨hv, hn⟩ := List.forall_mem_cons.mp hn
    by_cases hf : ctx.bufSize < ctx.offset + entrySize vde
    · have hcb := vfsGetdentsCb_stops h hv hf
      have hrc : (if ctx.offset = 0 then -(Errno.einval.code : Int) else toInt ctx.offset) ≠ 0 := by
        have := h.room
        have := h.size
        split_ifs with h0
        · decide
        · rw [toInt_eq (by omega)]
          exact_mod_cast h0
      simp only [walkCb, hcb, if_neg hrc, fill, if_pos hf]
      simp only [stopRc, GetdentsCtx.after, totalSize, userEnts, List.map_nil, List.sum_nil, Nat.add_zero, List.length_nil,
        List.append_nil, reduceCtorEq, if_false]
      have := h.room
      have := h.size
      rw [toInt_eq (by omega)]
    · have hcb := vfsGetdentsCb_fits h hv (Nat.not_lt.mp hf)
      have hplain : (ctx.after [vde]).Plain := by
        obtain ⟨-, hacc, hsize, hskip⟩ := h
        refine ⟨?_, hacc, hsize, fun hs => ?_⟩
        · simpa [GetdentsCtx.after, totalSize] using Nat.not_lt.mp hf
        · have := hskip hs
          simp only [GetdentsCtx.after, List.length_singleton]
          omega
      have hoff : (ctx.after [vde]).offset = ctx.offset + entrySize vde := by simp [GetdentsCtx.after, totalSize]
      simp only [walkCb, hcb, if_true]
      rw [walkCb_fill l hplain hn, show (ctx.after [vde]).bufSize = ctx.bufSize from rfl, hoff, GetdentsCtx.after_append]
      simp only [fill, if_neg hf]
      simp [totalSize, Nat.add_assoc]

/-- What the call returns when the entries are cut so: an error if not even one fits, and else how much was copied. -/
def listRc (f : List VfsDent64 × List VfsDent64) : Int :=
  if f.1 = [] ∧ f.2 ≠ [] then -Errno.einval.code else totalSize f.1

theorem totalSize_eq_zero (hn : ∀ vde ∈ l, vde.nameLen < 256) : totalSize l = 0 ↔ l = [] := by
  cases l with
  | nil => simp [totalSize]
  | cons vde l =>
    have := sizeofDirent_bounds
    have := entrySize_eq (hn vde List.mem_cons_self)
    simp only [totalSize, List.map_cons, List.sum_cons, reduceCtorEq, iff_false]
    omega

theorem walkCb_call (h : ctx.Plain) (h0 : ctx.offset = 0) (hn : ∀ vde ∈ l, vde.nameLen < 256) :
    (walkCb ctx l).1 = ctx.after (fill ctx.bufSize 0 l).1 ∧ (walkCb ctx l).2.2 = (fill ctx.bufSize 0 l).2 ∧
      getdentsRc (walkCb ctx l).2.1 (walkCb ctx l).1 = listRc (fill ctx.bufSize 0 l) := by
  rw [walkCb_fill l h hn, h0, Nat.zero_add]
  refine ⟨rfl, rfl, ?_⟩
  have happ : (fill ctx.bufSize 0 l).1 ++ (fill ctx.bufSize 0 l).2 = l := fill_append 0 l
  have hle : 0 + totalSize (fill ctx.bufSize 0 l).1 ≤ ctx.bufSize := totalSize_fill 0 l (Nat.zero_le _)
  have hsize := h.size
  have hzero : totalSize (fill ctx.bufSize 0 l).1 = 0 ↔ (fill ctx.bufSize 0 l).1 = [] :=
    totalSize_eq_zero fun vde hv => hn vde (happ ▸ List.mem_append_left _ hv)
  have hint : toInt (ctx.after (fill ctx.bufSize 0 l).1).offset = totalSize (fill ctx.bufSize 0 l).1 := by
    simp only [GetdentsCtx.after, h0, Nat.zero_add]
    exact toInt_eq (by omega)
  unfold getdentsRc listRc stopRc
  by_cases hnil : (fill ctx.bufSize 0 l).2 = []
  · simp [hnil, hint]
  · by_cases hz : (fill ctx.bufSize 0 l).1 = []
    · simp [hnil, hz, totalSize, Errno.code]
    · have hne : ¬ totalSize (fill ctx.bufSize 0 l).1 = 0 := fun h => hz (hzero.mp h)
      simp [hnil, hz, hne]

end Usax.Fs
