import Usax.Common.Errno
import Usax.Lib.Runs
import Usax.Fat.Base

/-!
# The position in a file

`fat_read` and `fat_seek` of `fat32.c`: a handle has a position and the cluster it is in, which are moved forward by going
along the chain and back by starting again.

* `moveLoop`: the loop of `fat_read` and of `fat_seek_forward`, which both go on to the next cluster at the end of one.
* `posixSeek`, `posixRead`: what a file handle is to do.
* `Inside`: the cluster of the handle is the one of its position. Every call that is `Allowed` keeps it and gives the answer
  it is to give (`fileCall_spec`).
-/

namespace Usax.Fat

open Common

/-! ## The functions -/

def offt (x : Int) : Int := x.bmod (2 ^ 64)

def offtMax : Int := 2 ^ 63 - 1

/-- A file of a volume: `fat_get_first_cluster` and `DIR_FileSize` of its entry. -/
structure FatFile where
  vol : FatVol
  type : FatType
  firstCluster : Nat
  fileSize : Nat

/-- `struct fatfs_handle`: `h_fpos` and `curr_cluster`. -/
structure FileHandle where
  fpos : Int
  currCluster : Nat
deriving DecidableEq, Repr

/-- A part of a cluster: the cluster, the offset in it and the length. -/
structure Piece where
  cluster : Nat
  off : Int
  len : Int
deriving DecidableEq, Repr

variable (f : FatFile)

/-- The loop of `fat_read` and of `fat_seek_forward`: `rem` is what is left of the buffer or of the distance. It says also
which parts of clusters it goes over. No result means that the fuel is not enough, or that an assertion fails. -/
def moveLoop : (fuel : Nat) → FileHandle → (rem : Int) → Option (List Piece × FileHandle)
  | 0, _, _ => none
  | fuel + 1, h, rem =>
    let fileRem := f.fileSize - h.fpos
    let clusterOff := h.fpos.tmod f.vol.hdr.getClusterSize
    let clusterRem := f.vol.hdr.getClusterSize - clusterOff
    let toMove := min clusterRem (min rem fileRem)
    let piece := { cluster := h.currCluster, off := clusterOff, len := toMove }
    let h' := { h with fpos := offt (h.fpos + toMove) }
    if toMove < 0 then none
    else if toMove < clusterRem then some ([piece], h')
    else
      let fatval := f.vol.readFatEntry f.type 0 h.currCluster
      if fatIsEndOfClusterchain f.type fatval then if h'.fpos = f.fileSize then some ([piece], h') else none
      else if fatIsBadCluster f.type fatval then none
      else (moveLoop fuel { h' with currCluster := fatval } (rem - toMove)).map fun r => (piece :: r.1, r.2)

/-- What `memcpy` takes from a part of a cluster. -/
def Piece.bytes (p : Piece) : List UInt8 :=
  (List.range p.len.toNat).map fun k => f.vol.mem (f.vol.hdr.getPointerToClusterData p.cluster + p.off.toNat + k)

/-- `fat_read` of a file: the bytes that are put in the buffer. -/
def fatRead (fuel : Nat) (h : FileHandle) (bufsize : Nat) : Option (List UInt8 × FileHandle) :=
  if h.fpos ≥ f.fileSize then some ([], h)
  else (moveLoop f fuel h bufsize).map fun r => (r.1.flatMap (Piece.bytes f), r.2)

def fatRewind : FileHandle := { fpos := 0, currCluster := f.firstCluster }

def fatSeekForward (fuel : Nat) (h : FileHandle) (dist : Int) : Option (Int × FileHandle) :=
  if dist = 0 then some (h.fpos, h)
  else if offt (h.fpos + dist) > f.fileSize then
    some (offt (h.fpos + dist), { fpos := offt (h.fpos + dist), currCluster := 2 ^ 32 - 1 })
  else (moveLoop f fuel h dist).map fun r => (r.2.fpos, r.2)

def seekSet : Int := 0
def seekCur : Int := 1
def seekEnd : Int := 2

/-- `fat_seek` of a file. -/
def fatSeek (fuel : Nat) (h : FileHandle) (off whence : Int) : Option (Int × FileHandle) :=
  let einval := some (-(Errno.einval.code : Int), h)
  if whence = seekSet then
    if off < 0 then einval else fatSeekForward f fuel (fatRewind f) off
  else if whence = seekEnd then
    if off ≥ 0 then fatSeekForward f fuel h off
    else if offt (f.fileSize + off) < 0 then einval
    else fatSeekForward f fuel (fatRewind f) (offt (f.fileSize + off))
  else if whence = seekCur then
    if off < 0 then
      if offt (h.fpos + off) < 0 then einval else fatSeekForward f fuel (fatRewind f) (offt (h.fpos + off))
    else fatSeekForward f fuel h off
  else einval

/-! ## Files -/

/-- A file of a well-formed volume: the chain of its clusters has room for its bytes; an empty file need not have one. -/
structure FileOf (cs : List Nat) : Prop where
  clusterSize : 0 < f.vol.hdr.getClusterSize
  chain : 0 < f.fileSize → Chain f.vol f.type f.firstCluster cs
  size : f.fileSize ≤ cs.length * f.vol.hdr.getClusterSize
  u32 : f.fileSize < 2 ^ 32

def FatFile.content (cs : List Nat) : List UInt8 := (f.vol.fileBytes cs).take f.fileSize

variable {f} {cs : List Nat}

theorem Chain.next_or_last {v : FatVol} {ft : FatType} {c : Nat} {cs : List Nat} (h : Chain v ft c cs) {i x : Nat}
    (hx : cs[i]? = some x) :
    (i + 1 = cs.length ∧ fatIsEndOfClusterchain ft (v.readFatEntry ft 0 x) = true) ∨
      (cs[i + 1]? = some (v.readFatEntry ft 0 x) ∧ fatIsEndOfClusterchain ft (v.readFatEntry ft 0 x) = false ∧
        fatIsBadCluster ft (v.readFatEntry ft 0 x) = false) := by
  induction h generalizing i with
  | last h0 hend =>
    obtain ⟨hi, rfl⟩ := List.getElem?_eq_some_iff.mp hx
    simp only [List.length_singleton] at hi
    obtain rfl : i = 0 := by omega
    exact .inl ⟨rfl, hend⟩
  | @next c n cs h0 hn hend hbad hchain ih =>
    cases i with
    | zero =>
      obtain rfl : c = x := by simpa using hx
      refine .inr ⟨?_, hn ▸ hend, hn ▸ hbad⟩
      rw [hn]
      cases hchain <;> rfl
    | succ i =>
      rw [List.getElem?_cons_succ] at hx
      simpa using ih hx

theorem fileBytes_getElem? (v : FatVol) {p x : Nat} (hsize : 0 < v.hdr.getClusterSize)
    (hx : cs[p / v.hdr.getClusterSize]? = some x) :
    (v.fileBytes cs)[p]? = some (v.mem (v.hdr.getPointerToClusterData x + p % v.hdr.getClusterSize)) := by
  induction cs generalizing p with
  | nil => simp at hx
  | cons c cs ih =>
    have hlen : ((List.range v.hdr.getClusterSize).map fun k => v.mem (v.hdr.getPointerToClusterData c + k)).length =
        v.hdr.getClusterSize := by simp
    rw [FatVol.fileBytes, List.flatMap_cons]
    rcases Nat.lt_or_ge p v.hdr.getClusterSize with hlt | hge
    · rw [Nat.div_eq_of_lt hlt, List.getElem?_cons_zero] at hx
      obtain rfl := Option.some.inj hx
      rw [List.getElem?_append_left (by omega), Nat.mod_eq_of_lt hlt]
      simp [hlt]
    · obtain ⟨q, rfl⟩ : ∃ q, p = q + v.hdr.getClusterSize := ⟨p - v.hdr.getClusterSize, by omega⟩
      rw [Nat.add_div_right _ hsize, List.getElem?_cons_succ] at hx
      rw [List.getElem?_append_right (by omega), hlen, Nat.add_sub_cancel, Nat.add_mod_right]
      exact ih hx

theorem div_mod_add {p k n : Nat} (hn : 0 < n) (hk : p % n + k < n) : (p + k) / n = p / n ∧ (p + k) % n = p % n + k := by
  have hsplit : p + k = n * (p / n) + (p % n + k) := by
    rw [← Nat.add_assoc, Nat.div_add_mod]
  constructor
  · rw [hsplit, Nat.mul_add_div hn, Nat.div_eq_of_lt hk, Nat.add_zero]
  · rw [hsplit, Nat.mul_add_mod, Nat.mod_eq_of_lt hk]

theorem div_mod_next {p n : Nat} (hn : 0 < n) : (p + (n - p % n)) / n = p / n + 1 ∧ (p + (n - p % n)) % n = 0 := by
  have hlt := Nat.mod_lt p hn
  have hsplit : p + (n - p % n) = n * (p / n + 1) := by
    have := Nat.div_add_mod p n
    rw [Nat.mul_add, Nat.mul_one]
    omega
  rw [hsplit]
  exact ⟨Nat.mul_div_cancel_left _ hn, Nat.mul_mod_right _ _⟩

theorem piece_bytes {p x n : Nat} (hsize : 0 < f.vol.hdr.getClusterSize)
    (hx : cs[p / f.vol.hdr.getClusterSize]? = some x)
    (hn : p % f.vol.hdr.getClusterSize + n ≤ f.vol.hdr.getClusterSize) :
    Piece.bytes f ⟨x, (p % f.vol.hdr.getClusterSize : Nat), n⟩ = ((f.vol.fileBytes cs).drop p).take n := by
  apply List.ext_getElem?
  intro k
  rcases Nat.lt_or_ge k n with hk | hk
  · obtain ⟨hdiv, hmod⟩ := div_mod_add hsize (by omega : p % f.vol.hdr.getClusterSize + k < f.vol.hdr.getClusterSize)
    rw [List.getElem?_take_of_lt hk, List.getElem?_drop, fileBytes_getElem? f.vol hsize (by rw [hdiv]; exact hx), hmod]
    simp only [Piece.bytes, Int.toNat_natCast, Nat.add_assoc]
    simp [hk]
  · rw [List.getElem?_eq_none (by simp [Piece.bytes]; omega), List.getElem?_take_eq_none hk]

/-! ## The loop -/

theorem offt_of_le {x : Int} (h : -2 ^ 63 ≤ x) (h' : x < 2 ^ 63) : offt x = x :=
  Int.bmod_eq_of_le_mul_two (by omega) (by omega)

theorem moveLoop_succ (hf : FileOf f cs) {p r clu fuel : Nat} (hp : p ≤ f.fileSize) {t : Nat}
    (ht : t = min (f.vol.hdr.getClusterSize - p % f.vol.hdr.getClusterSize) (min r (f.fileSize - p))) :
    moveLoop f (fuel + 1) ⟨p, clu⟩ r =
      if t < f.vol.hdr.getClusterSize - p % f.vol.hdr.getClusterSize then
        some ([⟨clu, (p % f.vol.hdr.getClusterSize : Nat), t⟩], ⟨(p + t : Nat), clu⟩)
      else if fatIsEndOfClusterchain f.type (f.vol.readFatEntry f.type 0 clu) then
        if p + t = f.fileSize then some ([⟨clu, (p % f.vol.hdr.getClusterSize : Nat), t⟩], ⟨(p + t : Nat), clu⟩) else none
      else if fatIsBadCluster f.type (f.vol.readFatEntry f.type 0 clu) then none
      else (moveLoop f fuel ⟨(p + t : Nat), f.vol.readFatEntry f.type 0 clu⟩ (r - t : Nat)).map fun x =>
        (⟨clu, (p % f.vol.hdr.getClusterSize : Nat), t⟩ :: x.1, x.2) := by
  have hlt := Nat.mod_lt p hf.clusterSize
  have hsize := hf.u32
  have hmod : (p : Int).tmod f.vol.hdr.getClusterSize = (p % f.vol.hdr.getClusterSize : Nat) := by
    rw [Int.tmod_eq_emod_of_nonneg (by omega)]
    rfl
  have hmin : min ((f.vol.hdr.getClusterSize : Int) - (p % f.vol.hdr.getClusterSize : Nat))
      (min (r : Int) (f.fileSize - p)) = t := by
    omega
  have hpos : offt ((p : Int) + t) = (p + t : Nat) := by
    rw [offt_of_le (by omega) (by omega)]
    rfl
  have hle : ¬ (t : Int) < 0 := by omega
  have hcond : ((t : Int) < f.vol.hdr.getClusterSize - (p % f.vol.hdr.getClusterSize : Nat)) =
      (t < f.vol.hdr.getClusterSize - p % f.vol.hdr.getClusterSize) := by
    apply propext
    omega
  have hrem : (r : Int) - t = (r - t : Nat) := by omega
  have hend : (((p + t : Nat) : Int) = f.fileSize) = (p + t = f.fileSize) := by
    apply propext
    omega
  simp only [moveLoop, hmod, hmin, hpos, if_neg hle, hcond, hrem, hend]

/-- From a position in its cluster the loop goes on by the length, or to the end of the file, and over the bytes there. -/
theorem moveLoop_spec (hf : FileOf f cs) (hchain : Chain f.vol f.type f.firstCluster cs) {p r clu fuel n : Nat}
    (hp : p ≤ f.fileSize) (hclu : cs[p / f.vol.hdr.getClusterSize]? = some clu)
    (hfuel : cs.length - p / f.vol.hdr.getClusterSize ≤ fuel) (hn : n = min r (f.fileSize - p)) :
    ∃ ps clu', moveLoop f fuel ⟨p, clu⟩ r = some (ps, ⟨(p + n : Nat), clu'⟩) ∧
      ps.flatMap (Piece.bytes f) = ((f.vol.fileBytes cs).drop p).take n ∧
      (p + n < f.fileSize → cs[(p + n) / f.vol.hdr.getClusterSize]? = some clu') := by
  induction fuel generalizing p r clu n with
  | zero =>
    have := (List.getElem?_eq_some_iff.mp hclu).1
    omega
  | succ fuel ih =>
    have hlt := Nat.mod_lt p hf.clusterSize
    obtain ⟨t, ht⟩ : ∃ t, t = min (f.vol.hdr.getClusterSize - p % f.vol.hdr.getClusterSize) (min r (f.fileSize - p)) :=
      ⟨_, rfl⟩
    rw [moveLoop_succ hf hp ht]
    have hbytes := piece_bytes hf.clusterSize hclu (by omega : p % f.vol.hdr.getClusterSize + t ≤ f.vol.hdr.getClusterSize)
    by_cases hrest : t < f.vol.hdr.getClusterSize - p % f.vol.hdr.getClusterSize
    · -- the end is in this cluster
      obtain rfl : t = n := by omega
      obtain ⟨hdiv, -⟩ := div_mod_add hf.clusterSize (by omega : p % f.vol.hdr.getClusterSize + t < f.vol.hdr.getClusterSize)
      refine ⟨_, clu, if_pos hrest, ?_, fun _ => hdiv ▸ hclu⟩
      rw [List.flatMap_singleton, hbytes]
    · rw [if_neg hrest]
      have htc : t = f.vol.hdr.getClusterSize - p % f.vol.hdr.getClusterSize := by omega
      obtain ⟨hdiv, hmod⟩ := div_mod_next (p := p) hf.clusterSize
      rw [← htc] at hdiv hmod
      rcases hchain.next_or_last hclu with ⟨hlast, hend⟩ | ⟨hnext, hend, hbad⟩
      · -- the last cluster ends where the file does
        have hsize := hf.size
        have hpos : p + t = cs.length * f.vol.hdr.getClusterSize := by
          have := Nat.div_add_mod (p + t) f.vol.hdr.getClusterSize
          rw [hdiv, hmod, hlast, Nat.mul_comm] at this
          omega
        obtain rfl : t = n := by omega
        refine ⟨_, clu, ?_, by rw [List.flatMap_singleton, hbytes], fun h => by omega⟩
        rw [if_pos hend, if_pos (by omega)]
      · rw [if_neg (by rw [hend]; nofun), if_neg (by rw [hbad]; nofun)]
        obtain ⟨ps, clu', hrun, hps, hin⟩ := ih (by omega : p + t ≤ f.fileSize) (by rw [hdiv]; exact hnext)
          (by rw [hdiv]; omega) (rfl : min (r - t) (f.fileSize - (p + t)) = _)
        obtain ⟨k, hk⟩ : ∃ k, k = min (r - t) (f.fileSize - (p + t)) := ⟨_, rfl⟩
        rw [← hk] at hrun hps hin
        obtain rfl : n = t + k := by omega
        rw [← Nat.add_assoc]
        refine ⟨_, clu', by rw [hrun]; rfl, ?_, hin⟩
        rw [List.flatMap_cons, hbytes, hps, List.take_add, List.drop_drop]

/-! ## A handle is a position in the file -/

/-- `lseek` by POSIX, from the size of the file and the position: the result, and the position after it. -/
def posixSeek (size : Nat) (pos off whence : Int) : Int × Int :=
  let base := if whence = seekSet then some 0 else if whence = seekCur then some pos
    else if whence = seekEnd then some (size : Int) else none
  match base with
  | some base => if base + off < 0 then (-(Errno.einval.code : Int), pos) else (base + off, base + off)
  | none => (-(Errno.einval.code : Int), pos)

/-- `read` by POSIX: the bytes, and the position after it. -/
def posixRead (content : List UInt8) (pos : Int) (n : Nat) : List UInt8 × Int :=
  let bytes := (content.drop pos.toNat).take n
  (bytes, pos + bytes.length)

inductive FileCall where
  | seek (off : BitVec 64) (whence : Int)
  | read (bufsize : BitVec 32)
deriving DecidableEq, Repr

inductive FileAnswer where
  | pos (r : Int)
  | bytes (l : List UInt8)
deriving DecidableEq, Repr

def fileCall (f : FatFile) (fuel : Nat) (h : FileHandle) : FileCall → Option (FileAnswer × FileHandle)
  | .seek off whence => (fatSeek f fuel h off.toInt whence).map fun r => (.pos r.1, r.2)
  | .read bufsize => (fatRead f fuel h bufsize.toNat).map fun r => (.bytes r.1, r.2)

def posixCall (content : List UInt8) (pos : Int) : FileCall → FileAnswer × Int
  | .seek off whence => ((posixSeek content.length pos off.toInt whence).map .pos id)
  | .read bufsize => ((posixRead content pos bufsize.toNat).map .bytes id)

/-- The position is one of an `offt`, and when it is in the file then the cluster is the one of the position. -/
structure Inside (f : FatFile) (cs : List Nat) (h : FileHandle) : Prop where
  nonneg : 0 ≤ h.fpos
  le : h.fpos ≤ offtMax
  cluster : h.fpos < f.fileSize → cs[h.fpos.toNat / f.vol.hdr.getClusterSize]? = some h.currCluster

/-- The position after the call is one of an `offt`, and a seek from the end that does not go back is made at the end. -/
def Allowed (f : FatFile) (h : FileHandle) : FileCall → Prop
  | .seek off whence =>
    (whence = seekCur → h.fpos + off.toInt ≤ offtMax) ∧
      (whence = seekEnd → off.toInt < 0 ∨ h.fpos = f.fileSize ∧ f.fileSize + off.toInt ≤ offtMax)
  | .read _ => True

instance (f : FatFile) (h : FileHandle) : (c : FileCall) → Decidable (Allowed f h c)
  | .seek _ _ => inferInstanceAs (Decidable (_ ∧ _))
  | .read _ => inferInstanceAs (Decidable True)

theorem content_length (hf : FileOf f cs) : (f.content cs).length = f.fileSize := by
  have hlen : (f.vol.fileBytes cs).length = cs.length * f.vol.hdr.getClusterSize := by
    simp [FatVol.fileBytes, List.length_flatMap]
  have := hf.size
  rw [FatFile.content, List.length_take, hlen]
  omega

section

variable {fuel : Nat} {h : FileHandle} (hf : FileOf f cs) (hfuel : cs.length ≤ fuel)
include hf

theorem inside_rewind : Inside f cs (fatRewind f) := by
  refine ⟨Int.le_refl 0, (by decide : 0 ≤ offtMax), fun hpos => ?_⟩
  have hchain := hf.chain (by simpa [fatRewind] using hpos)
  cases hchain <;> simp [fatRewind]

include hfuel

theorem moveLoop_inside (hi : Inside f cs h) (hlt : h.fpos < f.fileSize) (r : Nat) {n : Nat}
    (hn : n = min r (f.fileSize - h.fpos.toNat)) :
    ∃ ps h', moveLoop f fuel h r = some (ps, h') ∧ h'.fpos = h.fpos + n ∧ Inside f cs h' ∧
      ps.flatMap (Piece.bytes f) = ((f.content cs).drop h.fpos.toNat).take r := by
  obtain ⟨pos, clu⟩ := h
  have hnonneg : 0 ≤ pos := hi.nonneg
  obtain ⟨p, rfl⟩ : ∃ p : Nat, pos = p := ⟨pos.toNat, by omega⟩
  have hclu := hi.cluster hlt
  simp only [Int.toNat_natCast] at hclu hn hlt ⊢
  have hsize := hf.u32
  have hp : p < f.fileSize := Int.ofNat_lt.mp hlt
  obtain ⟨ps, clu', hrun, hps, hin⟩ := moveLoop_spec hf (hf.chain (by omega)) (Nat.le_of_lt hp) hclu
    (Nat.le_trans (Nat.sub_le _ _) hfuel) hn
  refine ⟨ps, _, hrun, by simp, ⟨Int.natCast_nonneg _, ?_, fun h' => ?_⟩, ?_⟩
  · unfold offtMax
    dsimp only
    omega
  · rw [Int.toNat_natCast]
    exact hin (Int.ofNat_lt.mp h')
  · rw [hps, FatFile.content, hn, List.drop_take, List.take_take]

theorem fatSeekForward_spec (hi : Inside f cs h) {dist : Int} (hdist : 0 ≤ dist) (hle : h.fpos + dist ≤ offtMax) :
    ∃ h', fatSeekForward f fuel h dist = some (h.fpos + dist, h') ∧ h'.fpos = h.fpos + dist ∧ Inside f cs h' := by
  have hnonneg := hi.nonneg
  unfold offtMax at hle
  unfold fatSeekForward
  by_cases hzero : dist = 0
  · subst hzero
    exact ⟨h, by rw [if_pos rfl, Int.add_zero], by rw [Int.add_zero], hi⟩
  · rw [if_neg hzero, offt_of_le (by omega) (by omega)]
    by_cases hpast : h.fpos + dist > f.fileSize
    · refine ⟨_, if_pos hpast, rfl, ⟨?_, ?_, ?_⟩⟩
      · dsimp only
        omega
      · unfold offtMax
        dsimp only
        omega
      · intro h'
        dsimp only at h'
        omega
    · rw [if_neg hpast]
      obtain ⟨ps, h', hrun, hpos, hi', -⟩ := moveLoop_inside hf hfuel hi (by omega) dist.toNat rfl
      have hcast : ((dist.toNat : Nat) : Int) = dist := by omega
      have hend : h'.fpos = h.fpos + dist := by
        rw [hpos]
        omega
      rw [hcast] at hrun
      exact ⟨h', by rw [hrun, Option.map_some, hend], hend, hi'⟩

theorem fatSeek_spec (hi : Inside f cs h) {off : BitVec 64} {whence : Int} (ha : Allowed f h (.seek off whence)) :
    ∃ h', fatSeek f fuel h off.toInt whence = some ((posixSeek f.fileSize h.fpos off.toInt whence).1, h') ∧
      h'.fpos = (posixSeek f.fileSize h.fpos off.toInt whence).2 ∧ Inside f cs h' := by
  obtain ⟨hcur, hend⟩ := ha
  have hnonneg := hi.nonneg
  have hle := hi.le
  have hsize := hf.u32
  have hlo : -2 ^ 63 ≤ off.toInt := BitVec.le_toInt off
  have hhi : off.toInt < 2 ^ 63 := BitVec.toInt_lt
  unfold offtMax at hcur hend hle
  generalize off.toInt = o at *
  -- a seek back starts at the first cluster
  have hback : ∀ {d : Int}, 0 ≤ d → d < 2 ^ 63 → ∃ h', fatSeekForward f fuel (fatRewind f) d = some (d, h') ∧ h'.fpos = d ∧
      Inside f cs h' := by
    intro d hd hd'
    obtain ⟨h', hrun, hpos, hi'⟩ := fatSeekForward_spec hf hfuel (inside_rewind hf) hd (by
      unfold offtMax
      simp only [fatRewind]
      omega)
    simp only [fatRewind, Int.zero_add] at hrun hpos
    exact ⟨h', hrun, hpos, hi'⟩
  unfold fatSeek posixSeek
  by_cases hset : whence = seekSet
  · simp only [if_pos hset, Int.zero_add]
    by_cases hneg : o < 0
    · simp only [if_pos hneg]
      exact ⟨h, rfl, rfl, hi⟩
    · simp only [if_neg hneg]
      exact hback (by omega) hhi
  · simp only [if_neg hset]
    by_cases hwend : whence = seekEnd
    · have hne : whence ≠ seekCur := by rw [hwend]; decide
      simp only [if_pos hwend, if_neg hne]
      by_cases hneg : o ≥ 0
      · obtain hlt | ⟨hpos, hmax⟩ := hend hwend
        · omega
        · simp only [if_pos hneg, ← hpos, if_neg (by omega : ¬ h.fpos + o < 0)]
          exact fatSeekForward_spec hf hfuel hi hneg (by unfold offtMax; omega)
      · simp only [if_neg hneg, offt_of_le (by omega : -2 ^ 63 ≤ (f.fileSize : Int) + o) (by omega)]
        by_cases hback' : (f.fileSize : Int) + o < 0
        · simp only [if_pos hback']
          exact ⟨h, rfl, rfl, hi⟩
        · simp only [if_neg hback']
          exact hback (by omega) (by omega)
    · simp only [if_neg hwend]
      by_cases hwcur : whence = seekCur
      · simp only [if_pos hwcur]
        by_cases hneg : o < 0
        · simp only [if_pos hneg, offt_of_le (by omega : -2 ^ 63 ≤ h.fpos + o) (by omega)]
          by_cases hback' : h.fpos + o < 0
          · simp only [if_pos hback']
            exact ⟨h, rfl, rfl, hi⟩
          · simp only [if_neg hback']
            exact hback (by omega) (by omega)
        · simp only [if_neg hneg, if_neg (by omega : ¬ h.fpos + o < 0)]
          exact fatSeekForward_spec hf hfuel hi (by omega) (by unfold offtMax; exact hcur hwcur)
      · simp only [if_neg hwcur]
        exact ⟨h, rfl, rfl, hi⟩

theorem fatRead_spec (hi : Inside f cs h) (n : Nat) :
    ∃ h', fatRead f fuel h n = some ((posixRead (f.content cs) h.fpos n).1, h') ∧
      h'.fpos = (posixRead (f.content cs) h.fpos n).2 ∧ Inside f cs h' := by
  have hlen := content_length hf
  have hnonneg := hi.nonneg
  unfold fatRead posixRead
  by_cases hpast : h.fpos ≥ f.fileSize
  · have hempty : (f.content cs).drop h.fpos.toNat = [] := List.drop_eq_nil_of_le (by omega)
    exact ⟨h, by rw [if_pos hpast, hempty, List.take_nil], by simp [hempty], hi⟩
  · obtain ⟨ps, h', hrun, hpos, hi', hbytes⟩ := moveLoop_inside hf hfuel hi (by omega) n rfl
    refine ⟨h', by rw [if_neg hpast, hrun, Option.map_some, hbytes], ?_, hi'⟩
    dsimp only
    rw [hpos, List.length_take, List.length_drop, hlen]

theorem fileCall_spec (hi : Inside f cs h) {c : FileCall} (ha : Allowed f h c) :
    ∃ h', fileCall f fuel h c = some ((posixCall (f.content cs) h.fpos c).1, h') ∧
      h'.fpos = (posixCall (f.content cs) h.fpos c).2 ∧ Inside f cs h' := by
  cases c with
  | seek off whence =>
    obtain ⟨h', hrun, hpos, hi'⟩ := fatSeek_spec hf hfuel hi ha
    unfold posixCall
    rw [content_length hf]
    exact ⟨h', by rw [fileCall, hrun]; rfl, hpos, hi'⟩
  | read bufsize =>
    obtain ⟨h', hrun, hpos, hi'⟩ := fatRead_spec hf hfuel hi bufsize.toNat
    exact ⟨h', by rw [fileCall, hrun]; rfl, hpos, hi'⟩

end

/-! ## Runs -/

/-- The answers of calls on one handle. -/
def fileCalls (f : FatFile) (fuel : Nat) : FileHandle → List FileCall → Option (List FileAnswer × FileHandle)
  | h, [] => some ([], h)
  | h, c :: calls => do
    let (a, h) ← fileCall f fuel h c
    let (as, h) ← fileCalls f fuel h calls
    return (a :: as, h)

def posixCalls (content : List UInt8) : Int → List FileCall → List FileAnswer × Int
  | pos, [] => ([], pos)
  | pos, c :: calls =>
    let r := posixCall content pos c
    let rs := posixCalls content r.2 calls
    (r.1 :: rs.1, rs.2)

/-- The calls are all allowed in the states they are made in. -/
def AllAllowed (f : FatFile) (fuel : Nat) (h : FileHandle) (calls : List FileCall) : Prop :=
  Lib.Along (fun h c => (fileCall f fuel h c).map (·.2)) (Allowed f) h calls

instance (f : FatFile) (fuel : Nat) (h : FileHandle) (calls : List FileCall) : Decidable (AllAllowed f fuel h calls) :=
  Lib.Along.decidable h calls

theorem fileCalls_spec (hf : FileOf f cs) {fuel : Nat} (hfuel : cs.length ≤ fuel) {h : FileHandle} (hi : Inside f cs h)
    {calls : List FileCall} (ha : AllAllowed f fuel h calls) :
    ∃ h', fileCalls f fuel h calls = some ((posixCalls (f.content cs) h.fpos calls).1, h') ∧
      h'.fpos = (posixCalls (f.content cs) h.fpos calls).2 ∧ Inside f cs h' := by
  induction calls generalizing h with
  | nil => exact ⟨h, rfl, rfl, hi⟩
  | cons c calls ih =>
    obtain ⟨hok, ha⟩ := ha
    obtain ⟨h₁, hrun, hpos, hi₁⟩ := fileCall_spec hf hfuel hi hok
    simp only [hrun, Option.map_some, Option.elim_some] at ha
    obtain ⟨h₂, hruns, hpos₂, hi₂⟩ := ih hi₁ ha
    rw [hpos] at hruns hpos₂
    refine ⟨h₂, ?_, hpos₂, hi₂⟩
    rw [fileCalls, hrun]
    simp only [Option.bind_eq_bind, Option.bind_some, hruns]
    rfl

/-- **A new handle is a position in the file, for all reads and for all seeks that are allowed.** -/
theorem file_handle_cursor (f : FatFile) (cs : List Nat) (hf : FileOf f cs) (fuel : Nat) (hfuel : cs.length ≤ fuel)
    (calls : List FileCall) (ha : AllAllowed f fuel (fatRewind f) calls) :
    ∃ h', fileCalls f fuel (fatRewind f) calls = some ((posixCalls (f.content cs) 0 calls).1, h') ∧
      h'.fpos = (posixCalls (f.content cs) 0 calls).2 ∧ Inside f cs h' :=
  fileCalls_spec hf hfuel (inside_rewind hf) ha

/-- A FAT16 volume of 5000 clusters of 512 bytes, with a file of 600 bytes in the clusters 2 and 3. -/
def sampleFile : FatFile where
  vol := {
    hdr := { bytsPerSec := 512, secPerClus := 1, rsvdSecCnt := 1, numFATs := 1, rootEntCnt := 32, totSec16 := 5023,
             totSec32 := 0, fatSz16 := 20, fatSz32 := 0, rootClus := 0 }
    mem := fun x =>
      if x < 512 then 0
      else ([0xF8, 0xFF, 0xFF, 0xFF, 3, 0, 0xFF, 0xFF] : List UInt8).getD (x - 512) (UInt8.ofNat (x - 11776)) }
  type := .fat16
  firstCluster := 2
  fileSize := 600

theorem fileOf_sampleFile : FileOf sampleFile [2, 3] where
  clusterSize := by decide
  chain _ := .next (by decide) (by decide) (by decide) (by decide) (.last (by decide) (by decide))
  size := by decide
  u32 := by decide

def sampleCalls : List FileCall := [.seek 510 0, .read 4, .seek (-1) 2, .read 4]

/-- A read across the clusters, and one at the end of the file. -/
theorem file_handle_cursor_sample : FileOf sampleFile [2, 3] ∧
    ∃ h', fileCalls sampleFile 2 (fatRewind sampleFile) sampleCalls =
      some ([.pos 510, .bytes [254, 255, 0, 1], .pos 599, .bytes [87]], h') ∧ h'.fpos = 600 ∧
        Inside sampleFile [2, 3] h' := by
  have hposix : posixCalls (sampleFile.content [2, 3]) 0 sampleCalls =
      ([.pos 510, .bytes [254, 255, 0, 1], .pos 599, .bytes [87]], 600) := by decide +kernel
  obtain ⟨h', hcalls, hpos, hin⟩ :=
    file_handle_cursor sampleFile [2, 3] fileOf_sampleFile 2 (by decide) sampleCalls (by decide +kernel)
  rw [hposix] at hcalls hpos
  exact ⟨fileOf_sampleFile, h', hcalls, hpos, hin⟩

/-- A seek to the end of the file stays where it is. -/
theorem seek_end_stays :
    fileCalls sampleFile 2 (fatRewind sampleFile) [.seek 0 seekEnd] = some ([.pos 0], ⟨0, 2⟩) ∧
      posixCalls (sampleFile.content [2, 3]) 0 [.seek 0 seekEnd] = ([.pos 600], 600) := by
  decide +kernel

end Usax.Fat
