import Usax.Fat.Align
import Usax.Fat.Getdents

/-!
# Used bytes and compaction

`fat_calculate_used_bytes`, `fat_get_first_free_cluster_off` and `fat_compact_clusters`. Clusters are numbered from 2 on, but both
loops look at as many entries of the FAT as there are clusters, from 0 on: the last two clusters are not seen. The offset that
is returned is one sector after the end of the last cluster that was found.

The compaction walks the directories and moves the clusters of each file to the first free ones. It is followed with fuel; it is
`stuck` if the fuel is not enough.
-/

namespace Usax.Fat

/-! ## The first free cluster -/

/-- The loop over `n` entries of the FAT from `clu` on, up to the first free one. -/
def firstFree (ft : FatType) (v : FatVol) : (n clu : Nat) → Nat
  | 0, clu => clu
  | n + 1, clu => if v.readFatEntry ft 0 clu = 0 then clu else firstFree ft v n (clu + 1)

def fatGetFirstFreeClusterOff (ft : FatType) (v : FatVol) : Nat :=
  u32 ((v.hdr.getSectorForCluster (firstFree ft v v.hdr.getClusterCount 0) + 1) * v.hdr.bytsPerSec)

/-! ## Compaction -/

namespace FatVol

variable (v : FatVol)

/-- `n` bytes of a value at an offset, the lowest one first. -/
def write (off n val : Nat) : FatVol :=
  { v with mem := fun x => if off ≤ x ∧ x < off + n then UInt8.ofNat (val / 256 ^ (x - off)) else v.mem x }

/-- `fat_write_fat_entry` to the first FAT; the top bits of an entry of FAT32 stay. -/
def writeFatEntry (ft : FatType) (clu val : Nat) : FatVol :=
  let ptr := v.hdr.getEntryPtr ft 0 clu
  match ft with
  | .fat16 => v.write ptr 2 val
  | .fat32 => v.write ptr 4 (v.read ptr 4 &&& 0xF0000000 ||| val)

/-- `fat_set_first_cluster` of the directory entry at an offset. -/
def setFirstCluster (off clu : Nat) : FatVol := (v.write (off + 20) 2 (clu / 2 ^ 16)).write (off + 26) 2 clu

def copyCluster (dest src : Nat) : FatVol :=
  { v with mem := memmove v.mem (v.hdr.getPointerToClusterData dest) (v.hdr.getPointerToClusterData src) v.hdr.getClusterSize }

end FatVol

/-- The volume, `struct compact_ctx`, and whether the fuel was not enough. -/
structure CompactCtx where
  vol : FatVol
  ffc : Nat
  stuck : Bool

/-- The loop that moves `ffc` forward to a free cluster. -/
def moveFfc (ft : FatType) : (fuel : Nat) → CompactCtx → CompactCtx
  | 0, ctx => { ctx with stuck := true }
  | fuel + 1, ctx =>
    if ctx.vol.readFatEntry ft 0 ctx.ffc ≠ 0 then moveFfc ft fuel { ctx with ffc := u32 (ctx.ffc + 1) } else ctx

def FatVol.moveCluster (v : FatVol) (ft : FatType) (off firstClu clu lastClu nextClu ffc : Nat) : FatVol :=
  let v := v.copyCluster ffc clu
  let v := if clu = firstClu then v.setFirstCluster off ffc else v.writeFatEntry ft lastClu ffc
  (v.writeFatEntry ft ffc nextClu).writeFatEntry ft clu 0

/-- The loop of `fat_compact_walk_cb` over the clusters of a file, whose directory entry is at `off`. -/
def compactChain (ft : FatType) (off firstClu : Nat) : (fuel clu lastClu : Nat) → CompactCtx → CompactCtx
  | 0, _, _, ctx => { ctx with stuck := true }
  | fuel + 1, clu, lastClu, ctx =>
    let nextClu := ctx.vol.readFatEntry ft 0 clu
    let ctx := moveFfc ft fuel ctx
    let moved := ctx.ffc < clu
    let ctx' := if moved then
        { ctx with vol := ctx.vol.moveCluster ft off firstClu clu lastClu nextClu ctx.ffc, ffc := u32 (ctx.ffc + 1) }
      else ctx
    if fatIsEndOfClusterchain ft nextClu then ctx'
    else compactChain ft off firstClu fuel nextClu (if moved then ctx.ffc else clu) ctx'

def isDotOrDotdot (name : List UInt8) : Bool := name = [46] ∨ name = [46, 46]

/-- `fat_compact_walk_cb`, for directories up to a depth. -/
def fatCompactWalkCb (ft : FatType) (fuel : Nat) : (depth : Nat) → CompactCtx → Nat → Option (List UInt8) → CompactCtx × Bool
  | 0, ctx, _, _ => ({ ctx with stuck := true }, true)
  | depth + 1, ctx, off, _ =>
    let e := ctx.vol.dentry off
    if isDotOrDotdot e.getShortName then (ctx, false)
    else
      let ctx := compactChain ft off e.firstCluster fuel e.firstCluster 0 ctx
      if e.directory then
        match fatWalk CompactCtx.vol (fatCompactWalkCb ft fuel depth) ft fuel (ctx.vol.dentry off).firstCluster false ctx with
        | some r => (r.2, false)
        | none => ({ ctx with stuck := true }, false)
      else (ctx, false)

def fatCompactClusters (ft : FatType) (fuel : Nat) (v : FatVol) : Option FatVol :=
  match fatWalk CompactCtx.vol (fatCompactWalkCb ft fuel fuel) ft fuel 0 false
    ⟨v, firstFree ft v v.hdr.getClusterCount 0, false⟩ with
  | some r => if r.2.stuck then none else some r.2.vol
  | none => none

/-! ## The header stays -/

theorem moveFfc_hdr (ft : FatType) : ∀ (fuel : Nat) (ctx : CompactCtx), (moveFfc ft fuel ctx).vol.hdr = ctx.vol.hdr
  | 0, _ => rfl
  | fuel + 1, ctx => by
    rw [moveFfc]
    split_ifs
    · exact moveFfc_hdr ft fuel _
    · rfl

theorem write_hdr (v : FatVol) (off n val : Nat) : (v.write off n val).hdr = v.hdr := rfl

theorem writeFatEntry_hdr (v : FatVol) (ft : FatType) (clu val : Nat) : (v.writeFatEntry ft clu val).hdr = v.hdr := by
  cases ft <;> exact write_hdr ..

theorem copyCluster_hdr (v : FatVol) (dest src : Nat) : (v.copyCluster dest src).hdr = v.hdr := by
  rw [FatVol.copyCluster]

theorem moveCluster_hdr (v : FatVol) (ft : FatType) (off firstClu clu lastClu nextClu ffc : Nat) :
    (v.moveCluster ft off firstClu clu lastClu nextClu ffc).hdr = v.hdr := by
  refine (writeFatEntry_hdr ..).trans ((writeFatEntry_hdr ..).trans ?_)
  split_ifs
  · exact (write_hdr ..).trans ((write_hdr ..).trans (copyCluster_hdr ..))
  · exact (writeFatEntry_hdr ..).trans (copyCluster_hdr ..)

theorem compactChain_hdr (ft : FatType) (off firstClu : Nat) : ∀ (fuel clu lastClu : Nat) (ctx : CompactCtx),
    (compactChain ft off firstClu fuel clu lastClu ctx).vol.hdr = ctx.vol.hdr
  | 0, _, _, _ => rfl
  | fuel + 1, clu, lastClu, ctx => by
    rw [compactChain]
    split_ifs
    all_goals simp only [compactChain_hdr ft off firstClu fuel, moveCluster_hdr, moveFfc_hdr]

theorem fatCompactWalkCb_hdr (ft : FatType) (fuel : Nat) : ∀ (depth : Nat) (ctx : CompactCtx) (off : Nat)
    (name : Option (List UInt8)), (fatCompactWalkCb ft fuel depth ctx off name).1.vol.hdr = ctx.vol.hdr
  | 0, _, _, _ => rfl
  | depth + 1, ctx, off, name => by
    rw [fatCompactWalkCb]
    split_ifs
    · rfl
    · have hchain := compactChain_hdr ft off (ctx.vol.dentry off).firstCluster fuel (ctx.vol.dentry off).firstCluster 0 ctx
      dsimp only
      split
      · next r hr =>
        refine walkChain_keeps (P := fun c : CompactCtx => c.vol.hdr = ctx.vol.hdr) (fun arg off name h => ?_) _ _ _ _ hchain hr
        rw [fatCompactWalkCb_hdr ft fuel depth]
        exact h
      · exact hchain
    · exact compactChain_hdr ..

theorem fatCompactClusters_hdr {ft : FatType} {fuel : Nat} {v v' : FatVol} (h : fatCompactClusters ft fuel v = some v') :
    v'.hdr = v.hdr := by
  unfold fatCompactClusters at h
  split at h
  · next r hr =>
    split_ifs at h
    rw [← Option.some.inj h]
    refine walkChain_keeps (P := fun c : CompactCtx => c.vol.hdr = v.hdr) (fun arg off name h => ?_) _ _ _ _ rfl hr
    rw [fatCompactWalkCb_hdr]
    exact h
  · cases h

/-! ## Offsets -/

/-- The clusters up to `last` are the ones in use, and there is a free one that the loops look at. -/
structure Packed (ft : FatType) (v : FatVol) (last : Nat) : Prop where
  two_le : 2 ≤ last
  lt : last + 1 < v.hdr.getClusterCount
  used : ∀ c ≤ last, v.readFatEntry ft 0 c ≠ 0
  not_bad : fatIsBadCluster ft (v.readFatEntry ft 0 last) = false
  free : ∀ c, last < c → c < v.hdr.getClusterCount → v.readFatEntry ft 0 c = 0

variable {ft : FatType} {v : FatVol}

theorem lt_lastUsed {n c : Nat} (hc : c < n) (hne : v.readFatEntry ft 0 c ≠ 0)
    (hbad : ¬ fatIsBadCluster ft (v.readFatEntry ft 0 c)) : c < lastUsed ft v n := by
  induction n with
  | zero => omega
  | succ n ih =>
    simp only [lastUsed]
    split_ifs with hused
    · exact hc
    · rcases Nat.lt_succ_iff_lt_or_eq.mp hc with hlt | rfl
      · exact ih hlt
      · exact absurd ⟨hne, hbad⟩ hused

theorem firstFree_eq {n clu k : Nat} (hk : k < n) (hused : ∀ c, clu ≤ c → c < clu + k → v.readFatEntry ft 0 c ≠ 0)
    (hfree : v.readFatEntry ft 0 (clu + k) = 0) : firstFree ft v n clu = clu + k := by
  induction n generalizing clu k with
  | zero => omega
  | succ n ih =>
    rw [firstFree]
    rcases Nat.eq_zero_or_pos k with rfl | hpos
    · exact if_pos hfree
    · rw [if_neg (hused clu (Nat.le_refl _) (by omega)), ih (k := k - 1) (by omega) (fun c h₁ h₂ => hused c (by omega) (by omega))
        (by rw [show clu + 1 + (k - 1) = clu + k by omega]; exact hfree)]
      omega

theorem lastUsed_eq {n last : Nat} (hlast : last < n) (hne : v.readFatEntry ft 0 last ≠ 0)
    (hbad : fatIsBadCluster ft (v.readFatEntry ft 0 last) = false)
    (hfree : ∀ c, last < c → c < n → v.readFatEntry ft 0 c = 0) : lastUsed ft v n = last + 1 := by
  induction n with
  | zero => omega
  | succ n ih =>
    simp only [lastUsed]
    rcases Nat.lt_succ_iff_lt_or_eq.mp hlast with hlt | rfl
    · rw [if_neg (fun h => h.1 (hfree n hlt (Nat.lt_succ_self n)))]
      exact ih hlt fun c h₁ h₂ => hfree c h₁ (by omega)
    · rw [if_pos ⟨hne, by simp [hbad]⟩]

theorem WellFormed.end_add_sector (h : WellFormed ft v) {c : Nat} (hc : v.hdr.ValidCluster c) :
    v.hdr.getPointerToClusterData c + v.hdr.getClusterSize + v.hdr.bytsPerSec =
      (v.hdr.dataStart + (c + 1 - 2) * v.hdr.secPerClus + 1) * v.hdr.bytsPerSec := by
  have hc2 := hc.1
  rw [h.pointer hc, FatHdr.getClusterSize, show c + 1 - 2 = c - 2 + 1 by omega, Nat.add_mul (c - 2), Nat.one_mul,
    Nat.mul_comm v.hdr.bytsPerSec, ← Nat.add_mul, Nat.add_assoc, ← Nat.succ_mul]

theorem oneFile_packed : Packed .fat16 (oneFile 5000 20 2) 2 := by
  have hcount : (oneFile 5000 20 2).hdr.getClusterCount = 4927 := by decide
  refine ⟨Nat.le_refl 2, by rw [hcount]; decide, fun c hc => ?_, ?_, fun c h₁ h₂ => ?_⟩
  · rw [oneFile_readFatEntry (by omega), if_pos (by omega)]
    decide
  · rw [oneFile_readFatEntry (by decide), if_pos (.inr rfl)]
    decide
  · rw [hcount] at h₂
    rw [oneFile_readFatEntry (by omega), if_neg (by omega)]

theorem oneFile_compact : fatCompactClusters .fat16 1 (oneFile 5000 20 2) = some (oneFile 5000 20 2) := by
  rfl

theorem oneFile_lastUsed_before {totSec fatSz clu n : Nat} (htwo : 2 ≤ n) (hn : n ≤ clu) (hlt : n < 2 ^ 16) :
    lastUsed .fat16 (oneFile totSec fatSz clu) n = 2 := by
  refine lastUsed_eq (by omega) ?_ ?_ fun c h₁ h₂ => ?_
  · rw [oneFile_readFatEntry (by decide), if_pos (.inl (by decide))]
    decide
  · rw [oneFile_readFatEntry (by decide), if_pos (.inl (by decide))]
    decide
  · rw [oneFile_readFatEntry (by omega), if_neg (by omega)]

end Usax.Fat
