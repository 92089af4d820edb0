import Mathlib.Data.Nat.ModEq
import Usax.Common.Utils
import Usax.Fat.Base

/-!
# Aligning the first data sector

`fat_align_first_data_sector` moves what is after the reserved sectors by up to one page, so that the first data sector is at
the start of a page, and adds the sectors it has moved over to the reserved ones. How much there is to be moved is found by
`fat_calculate_used_bytes`.

The volume is `Preserved` if it `Fits` (`preserved_of_fits`). The other direction (`fits_of_preserved`) is for all volumes with
the header and the FATs of one (`SameLayout`), since a byte that is not moved can be equal to the one it is taken for.
-/

namespace Usax.Fat

open Common (pageSize)

/-! ## Geometry -/

namespace FatHdr

variable (h : FatHdr)

def getTotSec : Nat := if h.totSec16 ≠ 0 then h.totSec16 else h.totSec32

def getClusterCount : Nat :=
  u32 (2 ^ 32 + h.getTotSec - u32 (h.rsvdSecCnt + h.numFATs * h.getFATSz + h.getRootDirSectors)) / h.secPerClus

/-- `fat_get_type`; there is no result for FAT12, which is not supported. -/
def getType : Option FatType :=
  if h.getClusterCount < 4085 then none
  else if h.getClusterCount < 65525 then some .fat16
  else some .fat32

def isFirstDataSectorAligned (pageSize : Nat) : Bool := u32 (h.getFirstDataSector * h.bytsPerSec) % pageSize = 0

end FatHdr

/-! ## The functions -/

/-- The loop of `fat_calculate_used_bytes`, from a cluster down. -/
def lastUsed (ft : FatType) (v : FatVol) : (clu : Nat) → Nat
  | 0 => 0
  | clu + 1 =>
    let val := v.readFatEntry ft 0 clu
    if val ≠ 0 ∧ ¬ fatIsBadCluster ft val then clu + 1 else lastUsed ft v clu

def fatCalculateUsedBytes (ft : FatType) (v : FatVol) : Nat :=
  let clu := lastUsed ft v v.hdr.getClusterCount
  if clu = 0 then 0 else u32 ((v.hdr.getSectorForCluster clu + 1) * v.hdr.bytsPerSec)

/-- `rem`: how far the data is moved. -/
def FatHdr.alignRem (h : FatHdr) : Nat := pageSize - u32 (h.getFirstDataSector * h.bytsPerSec) % pageSize

def memmove (mem : Nat → UInt8) (dst src n : Nat) : Nat → UInt8 := fun x =>
  if dst ≤ x ∧ x < dst + n then mem (src + (x - dst)) else mem x

def bzero (mem : Nat → UInt8) (dst n : Nat) : Nat → UInt8 := fun x => if dst ≤ x ∧ x < dst + n then 0 else mem x

/-- `fat_align_first_data_sector` for pages of `PAGE_SIZE`. The number of reserved sectors is a `u16`. -/
def fatAlignFirstDataSector (ft : FatType) (v : FatVol) : FatVol :=
  let used := fatCalculateUsedBytes ft v
  let rem := v.hdr.alignRem
  let resData := v.hdr.rsvdSecCnt * v.hdr.bytsPerSec
  { hdr := { v.hdr with rsvdSecCnt := (v.hdr.rsvdSecCnt + rem / v.hdr.bytsPerSec) % 2 ^ 16 }
    mem := bzero (memmove v.mem (resData + rem) resData (u32 (2 ^ 32 + used - resData))) resData rem }

/-! ## Well-formed volumes -/

namespace FatHdr

variable (h : FatHdr)

/-- The first data sector, the reserved sectors and the FATs and the root directory before it. -/
def dataStart : Nat := h.rsvdSecCnt + h.numFATs * h.getFATSz + h.getRootDirSectors

def dataSectors : Nat := h.getTotSec - h.dataStart

/-- The numbers of the clusters of the volume. -/
def ValidCluster (c : Nat) : Prop := 2 ≤ c ∧ c < h.dataSectors / h.secPerClus + 2

end FatHdr

/-- A cluster that is in use. -/
def FatVol.Allocated (v : FatVol) (ft : FatType) (c : Nat) : Prop :=
  v.hdr.ValidCluster c ∧ v.readFatEntry ft 0 c ≠ 0 ∧ ¬ fatIsBadCluster ft (v.readFatEntry ft 0 c)

/-- A volume in memory: its parts follow one another and are in the image, the FAT has an entry for each cluster, and the
clusters in use make chains. -/
structure WellFormed (ft : FatType) (v : FatVol) : Prop where
  bytsPerSec : 512 ≤ v.hdr.bytsPerSec
  secPerClus : 0 < v.hdr.secPerClus
  rsvdSecCnt : 0 < v.hdr.rsvdSecCnt ∧ v.hdr.rsvdSecCnt < 2 ^ 16
  numFATs : 0 < v.hdr.numFATs
  fatSz16 : ft = .fat16 → v.hdr.fatSz16 ≠ 0
  inImage : v.hdr.dataStart ≤ v.hdr.getTotSec
  size : v.hdr.getTotSec * v.hdr.bytsPerSec < 2 ^ 32
  type : v.hdr.getType = some ft
  entries : (v.hdr.dataSectors / v.hdr.secPerClus + 2) * ft.size ≤ v.hdr.getFATSz * v.hdr.bytsPerSec
  mark : v.readFatEntry ft 0 1 ≠ 0 ∧ ¬ fatIsBadCluster ft (v.readFatEntry ft 0 1)
  chain : ∀ c, v.Allocated ft c → ∃ cs, Chain v ft c cs ∧ ∀ x ∈ cs, v.hdr.ValidCluster x

/-- The assertions of the function hold at its start, and there is memory for a page after the used bytes, as its comment
demands. -/
structure Accepts (ft : FatType) (v : FatVol) : Prop where
  dvd : pageSize % v.hdr.bytsPerSec = 0
  unaligned : v.hdr.isFirstDataSectorAligned pageSize = false
  room : fatCalculateUsedBytes ft v + pageSize ≤ 2 ^ 32

/-- What the call keeps. -/
structure Preserved (ft : FatType) (v : FatVol) : Prop where
  aligned : (fatAlignFirstDataSector ft v).hdr.isFirstDataSectorAligned pageSize = true
  type : (fatAlignFirstDataSector ft v).hdr.getType = v.hdr.getType
  fats : ∀ n < v.hdr.numFATs, ∀ k < v.hdr.getFATSz * v.hdr.bytsPerSec,
    (fatAlignFirstDataSector ft v).mem
        (((fatAlignFirstDataSector ft v).hdr.rsvdSecCnt + n * v.hdr.getFATSz) * v.hdr.bytsPerSec + k) =
      v.mem ((v.hdr.rsvdSecCnt + n * v.hdr.getFATSz) * v.hdr.bytsPerSec + k)
  root : ft = .fat16 → ∀ k < v.hdr.getRootDirSectors * v.hdr.bytsPerSec,
    (fatAlignFirstDataSector ft v).mem (((fatAlignFirstDataSector ft v).hdr.getRootdir ft).1 + k) =
      v.mem ((v.hdr.getRootdir ft).1 + k)
  files : ∀ c cs, Chain v ft c cs → (∀ x ∈ cs, v.hdr.ValidCluster x) →
    Chain (fatAlignFirstDataSector ft v) ft c cs ∧ (fatAlignFirstDataSector ft v).fileBytes cs = v.fileBytes cs

/-- The number of reserved sectors does not overflow, the number of clusters that are left is one of the same type, and the
clusters in use end within the used bytes. -/
structure Fits (ft : FatType) (v : FatVol) : Prop where
  rsvd : v.hdr.rsvdSecCnt + v.hdr.alignRem / v.hdr.bytsPerSec < 2 ^ 16
  fat16 : 4085 ≤ (v.hdr.dataSectors - v.hdr.alignRem / v.hdr.bytsPerSec) / v.hdr.secPerClus
  fat32 : 65525 ≤ v.hdr.dataSectors / v.hdr.secPerClus →
    65525 ≤ (v.hdr.dataSectors - v.hdr.alignRem / v.hdr.bytsPerSec) / v.hdr.secPerClus
  used : ∀ c, v.Allocated ft c → v.hdr.getPointerToClusterData c + v.hdr.getClusterSize ≤ fatCalculateUsedBytes ft v

/-! ## Numbers without overflow -/

theorem u32_of_lt {n : Nat} (hn : n < 2 ^ 32) : u32 n = n := Nat.mod_eq_of_lt hn

namespace FatHdr

variable {h : FatHdr}

theorem getFirstDataSector_eq (hlt : h.dataStart < 2 ^ 32) : h.getFirstDataSector = h.dataStart := u32_of_lt hlt

theorem getClusterCount_eq (hle : h.dataStart ≤ h.getTotSec) (hlt : h.getTotSec < 2 ^ 32) :
    h.getClusterCount = h.dataSectors / h.secPerClus := by
  have hds : u32 (h.rsvdSecCnt + h.numFATs * h.getFATSz + h.getRootDirSectors) = h.dataStart :=
    u32_of_lt (Nat.lt_of_le_of_lt hle hlt)
  unfold getClusterCount
  rw [hds]
  congr 1
  simp only [u32, dataSectors]
  omega

theorem getSectorForCluster_eq {c : Nat} (hc : 2 ≤ c) (hlt : h.dataStart + (c - 2) * h.secPerClus < 2 ^ 32) :
    h.getSectorForCluster c = h.dataStart + (c - 2) * h.secPerClus := by
  have hmul : (c + 2 ^ 32 - 2) * h.secPerClus = (c - 2) * h.secPerClus + 2 ^ 32 * h.secPerClus := by
    rw [← Nat.add_mul]
    congr 1
    omega
  unfold getSectorForCluster
  rw [getFirstDataSector_eq (by omega), hmul, u32]
  omega

theorem getPointerToClusterData_eq {c : Nat} (hc : 2 ≤ c) (hb : 0 < h.bytsPerSec)
    (hlt : (h.dataStart + (c - 2) * h.secPerClus) * h.bytsPerSec < 2 ^ 32) :
    h.getPointerToClusterData c = (h.dataStart + (c - 2) * h.secPerClus) * h.bytsPerSec := by
  have hle := Nat.le_mul_of_pos_right (h.dataStart + (c - 2) * h.secPerClus) hb
  unfold getPointerToClusterData
  rw [getSectorForCluster_eq hc (by omega), u32_of_lt hlt]

theorem getEntryPtr_eq {ft : FatType} {c : Nat} (hb : 0 < h.bytsPerSec)
    (hlt : h.rsvdSecCnt * h.bytsPerSec + c * ft.size < 2 ^ 32) :
    h.getEntryPtr ft 0 c = h.rsvdSecCnt * h.bytsPerSec + c * ft.size := by
  have hdiv := Nat.div_add_mod (c * ft.size) h.bytsPerSec
  have hmul : (h.rsvdSecCnt + c * ft.size / h.bytsPerSec) * h.bytsPerSec =
      h.rsvdSecCnt * h.bytsPerSec + h.bytsPerSec * (c * ft.size / h.bytsPerSec) := by
    rw [Nat.add_mul, Nat.mul_comm (c * ft.size / h.bytsPerSec)]
  have hle := Nat.le_mul_of_pos_right (h.rsvdSecCnt + c * ft.size / h.bytsPerSec) hb
  unfold getEntryPtr
  simp only [Nat.zero_mul, Nat.zero_add]
  rw [u32_of_lt (n := c * ft.size) (by omega), u32_of_lt (n := _ + _ / _) (by omega), u32_of_lt (by omega)]
  omega

end FatHdr

/-! ## What is moved -/

theorem lastUsed_le (ft : FatType) (v : FatVol) (n : Nat) : lastUsed ft v n ≤ n := by
  induction n with
  | zero => exact Nat.le_refl 0
  | succ n ih =>
    simp only [lastUsed]
    split
    · exact Nat.le_refl _
    · omega

section

variable {ft : FatType} {v : FatVol} (h : WellFormed ft v)
include h

theorem WellFormed.totSec_lt : v.hdr.getTotSec < 2 ^ 32 := by
  have hb := h.bytsPerSec
  have hle := Nat.le_mul_of_pos_right v.hdr.getTotSec (by omega : 0 < v.hdr.bytsPerSec)
  have hsize := h.size
  omega

theorem WellFormed.clusterCount : v.hdr.getClusterCount = v.hdr.dataSectors / v.hdr.secPerClus :=
  FatHdr.getClusterCount_eq h.inImage h.totSec_lt

theorem WellFormed.count_ge : 4085 ≤ v.hdr.dataSectors / v.hdr.secPerClus := by
  have htype := h.type
  unfold FatHdr.getType at htype
  rw [h.clusterCount] at htype
  split at htype
  · cases htype
  · omega

theorem WellFormed.sectors_le {c : Nat} (hc : c ≤ v.hdr.dataSectors / v.hdr.secPerClus) :
    v.hdr.dataStart + c * v.hdr.secPerClus ≤ v.hdr.getTotSec := by
  have hmul : c * v.hdr.secPerClus ≤ v.hdr.dataSectors := (Nat.le_div_iff_mul_le h.secPerClus).mp hc
  have := h.inImage
  unfold FatHdr.dataSectors at hmul
  omega

theorem WellFormed.pointer {c : Nat} (hc : v.hdr.ValidCluster c) :
    v.hdr.getPointerToClusterData c = (v.hdr.dataStart + (c - 2) * v.hdr.secPerClus) * v.hdr.bytsPerSec := by
  have hb := h.bytsPerSec
  have hle := Nat.mul_le_mul_right v.hdr.bytsPerSec (h.sectors_le (Nat.sub_le_iff_le_add.mpr (Nat.le_of_lt hc.2)))
  exact FatHdr.getPointerToClusterData_eq hc.1 (by omega) (Nat.lt_of_le_of_lt hle h.size)

theorem WellFormed.two_le_lastUsed {n : Nat} (hn : 2 ≤ n) : 2 ≤ lastUsed ft v n := by
  induction n with
  | zero => omega
  | succ n ih =>
    simp only [lastUsed]
    split
    · exact hn
    · rename_i hfree
      by_cases hn1 : n = 1
      · subst hn1
        exact (hfree h.mark).elim
      · exact ih (by omega)

theorem WellFormed.sector_off {clu : Nat} (htwo : 2 ≤ clu) (hle : clu ≤ v.hdr.dataSectors / v.hdr.secPerClus) :
    u32 ((v.hdr.getSectorForCluster clu + 1) * v.hdr.bytsPerSec) =
      (v.hdr.dataStart + (clu - 2) * v.hdr.secPerClus + 1) * v.hdr.bytsPerSec := by
  -- two clusters more are in the volume
  have hmul : (clu - 2) * v.hdr.secPerClus + 2 * v.hdr.secPerClus = clu * v.hdr.secPerClus := by
    rw [← Nat.add_mul, Nat.sub_add_cancel htwo]
  have hsec := h.sectors_le hle
  have hspc := h.secPerClus
  have htot := h.totSec_lt
  have hbytes := Nat.mul_le_mul_right v.hdr.bytsPerSec
    (by omega : v.hdr.dataStart + (clu - 2) * v.hdr.secPerClus + 1 ≤ v.hdr.getTotSec)
  rw [FatHdr.getSectorForCluster_eq htwo (by omega), u32_of_lt (Nat.lt_of_le_of_lt hbytes h.size)]

theorem WellFormed.used_eq : ∃ clu, 2 ≤ clu ∧ clu ≤ v.hdr.dataSectors / v.hdr.secPerClus ∧
    clu = lastUsed ft v (v.hdr.dataSectors / v.hdr.secPerClus) ∧
    fatCalculateUsedBytes ft v = (v.hdr.dataStart + (clu - 2) * v.hdr.secPerClus + 1) * v.hdr.bytsPerSec := by
  have htwo := h.two_le_lastUsed (Nat.le_trans (by decide) h.count_ge)
  have hle := lastUsed_le ft v (v.hdr.dataSectors / v.hdr.secPerClus)
  refine ⟨_, htwo, hle, rfl, ?_⟩
  unfold fatCalculateUsedBytes
  dsimp only
  rw [h.clusterCount, if_neg (by omega), h.sector_off htwo hle]

theorem WellFormed.resData_le_used : v.hdr.dataStart * v.hdr.bytsPerSec + v.hdr.bytsPerSec ≤ fatCalculateUsedBytes ft v ∧
    fatCalculateUsedBytes ft v ≤ v.hdr.getTotSec * v.hdr.bytsPerSec := by
  obtain ⟨clu, htwo, hle, -, hused⟩ := h.used_eq
  have hmul : (clu - 2) * v.hdr.secPerClus + 2 * v.hdr.secPerClus = clu * v.hdr.secPerClus := by
    rw [← Nat.add_mul, Nat.sub_add_cancel htwo]
  have hsec := h.sectors_le hle
  have hspc := h.secPerClus
  rw [hused, ← Nat.succ_mul]
  exact ⟨Nat.mul_le_mul_right _ (by omega), Nat.mul_le_mul_right _ (by omega)⟩

theorem WellFormed.align_mem (y : Nat) : (fatAlignFirstDataSector ft v).mem y =
    if v.hdr.rsvdSecCnt * v.hdr.bytsPerSec ≤ y ∧ y < v.hdr.rsvdSecCnt * v.hdr.bytsPerSec + v.hdr.alignRem then 0
    else if v.hdr.rsvdSecCnt * v.hdr.bytsPerSec + v.hdr.alignRem ≤ y ∧ y < fatCalculateUsedBytes ft v + v.hdr.alignRem
      then v.mem (y - v.hdr.alignRem)
    else v.mem y := by
  obtain ⟨hres, hused⟩ := h.resData_le_used
  have hsize := h.size
  have hle : v.hdr.rsvdSecCnt * v.hdr.bytsPerSec ≤ v.hdr.dataStart * v.hdr.bytsPerSec :=
    Nat.mul_le_mul_right _ (by unfold FatHdr.dataStart; omega)
  have hlen : u32 (2 ^ 32 + fatCalculateUsedBytes ft v - v.hdr.rsvdSecCnt * v.hdr.bytsPerSec) =
      fatCalculateUsedBytes ft v - v.hdr.rsvdSecCnt * v.hdr.bytsPerSec := by
    unfold u32
    omega
  simp only [fatAlignFirstDataSector, bzero, memmove, hlen]
  by_cases hzero : v.hdr.rsvdSecCnt * v.hdr.bytsPerSec ≤ y ∧ y < v.hdr.rsvdSecCnt * v.hdr.bytsPerSec + v.hdr.alignRem
  · rw [if_pos hzero, if_pos hzero]
  · rw [if_neg hzero, if_neg hzero]
    by_cases hmoved : v.hdr.rsvdSecCnt * v.hdr.bytsPerSec + v.hdr.alignRem ≤ y ∧
        y < fatCalculateUsedBytes ft v + v.hdr.alignRem
    · rw [if_pos hmoved, if_pos (by omega)]
      congr 1
      omega
    · rw [if_neg hmoved, if_neg (by omega)]

theorem WellFormed.mem_moved {x : Nat} (hx : v.hdr.rsvdSecCnt * v.hdr.bytsPerSec ≤ x)
    (hx' : x < fatCalculateUsedBytes ft v) :
    (fatAlignFirstDataSector ft v).mem (x + v.hdr.alignRem) = v.mem x := by
  rw [h.align_mem, if_neg (by omega), if_pos (by omega), Nat.add_sub_cancel]

theorem WellFormed.mem_before {x : Nat} (hx : x < v.hdr.rsvdSecCnt * v.hdr.bytsPerSec) :
    (fatAlignFirstDataSector ft v).mem x = v.mem x := by
  rw [h.align_mem, if_neg (by omega), if_neg (by omega)]

theorem WellFormed.mem_zero {x : Nat} (hx : v.hdr.rsvdSecCnt * v.hdr.bytsPerSec ≤ x)
    (hx' : x < v.hdr.rsvdSecCnt * v.hdr.bytsPerSec + v.hdr.alignRem) : (fatAlignFirstDataSector ft v).mem x = 0 := by
  rw [h.align_mem, if_pos ⟨hx, hx'⟩]

theorem WellFormed.mem_after {x : Nat} (hx : fatCalculateUsedBytes ft v + v.hdr.alignRem ≤ x) :
    (fatAlignFirstDataSector ft v).mem x = v.mem x := by
  have hused := h.resData_le_used.1
  have hle : v.hdr.rsvdSecCnt * v.hdr.bytsPerSec ≤ v.hdr.dataStart * v.hdr.bytsPerSec :=
    Nat.mul_le_mul_right _ (by unfold FatHdr.dataStart; omega)
  rw [h.align_mem, if_neg (by omega), if_neg (by omega)]

variable (ha : Accepts ft v)
include ha

theorem WellFormed.alignRem_eq : v.hdr.alignRem = v.hdr.alignRem / v.hdr.bytsPerSec * v.hdr.bytsPerSec ∧
    v.hdr.alignRem < pageSize ∧ (v.hdr.dataStart * v.hdr.bytsPerSec + v.hdr.alignRem) % pageSize = 0 ∧
    0 < v.hdr.alignRem := by
  have hbytes : v.hdr.dataStart * v.hdr.bytsPerSec < 2 ^ 32 :=
    Nat.lt_of_le_of_lt (Nat.mul_le_mul_right _ h.inImage) h.size
  have hrem : v.hdr.alignRem = pageSize - v.hdr.dataStart * v.hdr.bytsPerSec % pageSize := by
    unfold FatHdr.alignRem
    rw [FatHdr.getFirstDataSector_eq (Nat.lt_of_le_of_lt h.inImage h.totSec_lt), u32_of_lt hbytes]
  have hne : v.hdr.dataStart * v.hdr.bytsPerSec % pageSize ≠ 0 := by
    have := ha.unaligned
    unfold FatHdr.isFirstDataSectorAligned at this
    rw [FatHdr.getFirstDataSector_eq (Nat.lt_of_le_of_lt h.inImage h.totSec_lt), u32_of_lt hbytes] at this
    simpa using this
  have hdvd : v.hdr.bytsPerSec ∣ pageSize := Nat.dvd_of_mod_eq_zero ha.dvd
  have hdvd' : v.hdr.bytsPerSec ∣ v.hdr.alignRem := by
    rw [hrem]
    exact Nat.dvd_sub hdvd ((Nat.dvd_mod_iff hdvd).mpr (Nat.dvd_mul_left _ _))
  refine ⟨(Nat.div_mul_cancel hdvd').symm, ?_, ?_, ?_⟩
  · rw [hrem]
    unfold pageSize at hne ⊢
    omega
  · rw [hrem]
    unfold pageSize at hne ⊢
    omega
  · rw [hrem]
    unfold pageSize at hne ⊢
    omega

theorem WellFormed.rem_lt_dataSectors : v.hdr.alignRem / v.hdr.bytsPerSec < v.hdr.dataSectors := by
  obtain ⟨hmul, hlt, -, -⟩ := h.alignRem_eq ha
  have hle := Nat.mul_le_mul_left (v.hdr.alignRem / v.hdr.bytsPerSec) h.bytsPerSec
  have hcount := (Nat.le_div_iff_mul_le h.secPerClus).mp h.count_ge
  have hspc := h.secPerClus
  unfold pageSize at hlt
  omega

theorem WellFormed.sector_mul (n : Nat) :
    (n + v.hdr.alignRem / v.hdr.bytsPerSec) * v.hdr.bytsPerSec = n * v.hdr.bytsPerSec + v.hdr.alignRem := by
  rw [Nat.add_mul, ← (h.alignRem_eq ha).1]

end

/-! ## The header after the call -/

section

variable {ft : FatType} {v : FatVol} (hr : v.hdr.rsvdSecCnt + v.hdr.alignRem / v.hdr.bytsPerSec < 2 ^ 16)
include hr

theorem align_rsvdSecCnt :
    (fatAlignFirstDataSector ft v).hdr.rsvdSecCnt = v.hdr.rsvdSecCnt + v.hdr.alignRem / v.hdr.bytsPerSec :=
  Nat.mod_eq_of_lt hr

theorem align_dataStart :
    (fatAlignFirstDataSector ft v).hdr.dataStart = v.hdr.dataStart + v.hdr.alignRem / v.hdr.bytsPerSec := by
  have hstart : (fatAlignFirstDataSector ft v).hdr.dataStart =
      (fatAlignFirstDataSector ft v).hdr.rsvdSecCnt + v.hdr.numFATs * v.hdr.getFATSz + v.hdr.getRootDirSectors := rfl
  rw [hstart, align_rsvdSecCnt hr]
  unfold FatHdr.dataStart
  omega

variable (h : WellFormed ft v) (ha : Accepts ft v)
include h ha

theorem align_clusterCount : (fatAlignFirstDataSector ft v).hdr.getClusterCount =
    (v.hdr.dataSectors - v.hdr.alignRem / v.hdr.bytsPerSec) / v.hdr.secPerClus := by
  have hlt := h.rem_lt_dataSectors ha
  have htot : (fatAlignFirstDataSector ft v).hdr.getTotSec = v.hdr.getTotSec := rfl
  have hspc : (fatAlignFirstDataSector ft v).hdr.secPerClus = v.hdr.secPerClus := rfl
  have hle : (fatAlignFirstDataSector ft v).hdr.dataStart ≤ (fatAlignFirstDataSector ft v).hdr.getTotSec := by
    unfold FatHdr.dataSectors at hlt
    rw [align_dataStart hr, htot]
    generalize v.hdr.alignRem / v.hdr.bytsPerSec = rem at hlt ⊢
    omega
  rw [FatHdr.getClusterCount_eq hle (htot ▸ h.totSec_lt), hspc]
  unfold FatHdr.dataSectors
  rw [align_dataStart hr, htot, Nat.sub_add_eq]

theorem align_aligned : (fatAlignFirstDataSector ft v).hdr.isFirstDataSectorAligned pageSize = true := by
  obtain ⟨-, hlt, hmod, -⟩ := h.alignRem_eq ha
  have hroom := ha.room
  have hused := h.resData_le_used.1
  have hb := h.bytsPerSec
  have hmul := h.sector_mul ha v.hdr.dataStart
  have hle := Nat.le_mul_of_pos_right (v.hdr.dataStart + v.hdr.alignRem / v.hdr.bytsPerSec) (by omega : 0 < v.hdr.bytsPerSec)
  have hbps : (fatAlignFirstDataSector ft v).hdr.bytsPerSec = v.hdr.bytsPerSec := rfl
  unfold FatHdr.isFirstDataSectorAligned
  rw [FatHdr.getFirstDataSector_eq (by rw [align_dataStart hr]; omega), align_dataStart hr, hbps, hmul,
    u32_of_lt (by omega), hmod]
  rfl

theorem align_type : (fatAlignFirstDataSector ft v).hdr.getType = v.hdr.getType ↔
    4085 ≤ (v.hdr.dataSectors - v.hdr.alignRem / v.hdr.bytsPerSec) / v.hdr.secPerClus ∧
      (65525 ≤ v.hdr.dataSectors / v.hdr.secPerClus →
        65525 ≤ (v.hdr.dataSectors - v.hdr.alignRem / v.hdr.bytsPerSec) / v.hdr.secPerClus) := by
  have hle : (v.hdr.dataSectors - v.hdr.alignRem / v.hdr.bytsPerSec) / v.hdr.secPerClus ≤
      v.hdr.dataSectors / v.hdr.secPerClus := Nat.div_le_div_right (Nat.sub_le _ _)
  have hcount := h.count_ge
  unfold FatHdr.getType
  rw [h.clusterCount, align_clusterCount hr h ha]
  generalize (v.hdr.dataSectors - v.hdr.alignRem / v.hdr.bytsPerSec) / v.hdr.secPerClus = q' at *
  generalize v.hdr.dataSectors / v.hdr.secPerClus = q at *
  split_ifs <;> simp <;> omega

/-! ## What is found after the call -/

theorem align_fats {n k : Nat} (hn : n < v.hdr.numFATs) (hk : k < v.hdr.getFATSz * v.hdr.bytsPerSec) :
    (fatAlignFirstDataSector ft v).mem
        (((fatAlignFirstDataSector ft v).hdr.rsvdSecCnt + n * v.hdr.getFATSz) * v.hdr.bytsPerSec + k) =
      v.mem ((v.hdr.rsvdSecCnt + n * v.hdr.getFATSz) * v.hdr.bytsPerSec + k) := by
  have haddr : ((fatAlignFirstDataSector ft v).hdr.rsvdSecCnt + n * v.hdr.getFATSz) * v.hdr.bytsPerSec + k =
      (v.hdr.rsvdSecCnt + n * v.hdr.getFATSz) * v.hdr.bytsPerSec + k + v.hdr.alignRem := by
    rw [align_rsvdSecCnt hr, Nat.add_right_comm, h.sector_mul ha]
    omega
  -- the FAT is before the first data sector
  have hend : (v.hdr.rsvdSecCnt + n * v.hdr.getFATSz) * v.hdr.bytsPerSec + v.hdr.getFATSz * v.hdr.bytsPerSec ≤
      v.hdr.dataStart * v.hdr.bytsPerSec := by
    have hsucc := Nat.mul_le_mul_right v.hdr.getFATSz (Nat.succ_le_of_lt hn)
    rw [Nat.succ_mul] at hsucc
    rw [← Nat.add_mul]
    apply Nat.mul_le_mul_right
    unfold FatHdr.dataStart
    omega
  have hused := h.resData_le_used.1
  rw [haddr]
  refine h.mem_moved ?_ (by omega)
  rw [Nat.add_mul]
  omega

theorem align_root (hft : ft = .fat16) {k : Nat} (hk : k < v.hdr.getRootDirSectors * v.hdr.bytsPerSec) :
    (fatAlignFirstDataSector ft v).mem (((fatAlignFirstDataSector ft v).hdr.getRootdir ft).1 + k) =
      v.mem ((v.hdr.getRootdir ft).1 + k) := by
  have hsz : v.hdr.getFATSz = v.hdr.fatSz16 := if_pos (h.fatSz16 hft)
  have hroom := ha.room
  have hused := h.resData_le_used.1
  have hrem := (h.alignRem_eq ha).2.1
  have hb := h.bytsPerSec
  have hmul := h.sector_mul ha (v.hdr.rsvdSecCnt + v.hdr.numFATs * v.hdr.fatSz16)
  have hend : (v.hdr.rsvdSecCnt + v.hdr.numFATs * v.hdr.fatSz16) * v.hdr.bytsPerSec +
      v.hdr.getRootDirSectors * v.hdr.bytsPerSec = v.hdr.dataStart * v.hdr.bytsPerSec := by
    rw [← Nat.add_mul, FatHdr.dataStart, hsz]
  -- the offset of the root directory in both volumes
  have hroot : ∀ n, n * v.hdr.bytsPerSec < 2 ^ 32 → u32 (v.hdr.bytsPerSec * u32 n) = n * v.hdr.bytsPerSec := by
    intro n hn
    have hle := Nat.le_mul_of_pos_right n (by omega : 0 < v.hdr.bytsPerSec)
    rw [u32_of_lt (by omega : n < 2 ^ 32), Nat.mul_comm, u32_of_lt hn]
  have hold : (v.hdr.getRootdir ft).1 = (v.hdr.rsvdSecCnt + v.hdr.numFATs * v.hdr.fatSz16) * v.hdr.bytsPerSec := by
    rw [hft]
    exact hroot _ (by omega)
  have hnew : ((fatAlignFirstDataSector ft v).hdr.getRootdir ft).1 =
      (v.hdr.rsvdSecCnt + v.hdr.numFATs * v.hdr.fatSz16) * v.hdr.bytsPerSec + v.hdr.alignRem := by
    have hnew' : ((fatAlignFirstDataSector ft v).hdr.getRootdir .fat16).1 =
        u32 (v.hdr.bytsPerSec * u32 ((fatAlignFirstDataSector ft v).hdr.rsvdSecCnt + v.hdr.numFATs * v.hdr.fatSz16)) := rfl
    rw [align_rsvdSecCnt hr, Nat.add_right_comm, hroot _ (by rw [hmul]; omega), hmul] at hnew'
    rw [← hnew', hft]
  rw [hold, hnew, Nat.add_right_comm]
  refine h.mem_moved ?_ (by omega)
  rw [Nat.add_mul]
  omega

theorem align_cluster {c : Nat} (hc : v.hdr.ValidCluster c)
    (hend : v.hdr.getPointerToClusterData c + v.hdr.getClusterSize ≤ fatCalculateUsedBytes ft v) {k : Nat}
    (hk : k < v.hdr.getClusterSize) :
    (fatAlignFirstDataSector ft v).mem ((fatAlignFirstDataSector ft v).hdr.getPointerToClusterData c + k) =
      v.mem (v.hdr.getPointerToClusterData c + k) := by
  have hptr := h.pointer hc
  have hroom := ha.room
  have hrem := (h.alignRem_eq ha).2.1
  have hb := h.bytsPerSec
  have hmul := h.sector_mul ha (v.hdr.dataStart + (c - 2) * v.hdr.secPerClus)
  have hptr' : (fatAlignFirstDataSector ft v).hdr.getPointerToClusterData c =
      v.hdr.getPointerToClusterData c + v.hdr.alignRem := by
    have haddr : ((fatAlignFirstDataSector ft v).hdr.dataStart + (c - 2) * v.hdr.secPerClus) * v.hdr.bytsPerSec =
        v.hdr.getPointerToClusterData c + v.hdr.alignRem := by
      rw [align_dataStart hr, Nat.add_right_comm, hmul, hptr]
    rw [← haddr]
    refine FatHdr.getPointerToClusterData_eq hc.1 (by omega : 0 < v.hdr.bytsPerSec) (haddr.trans_lt ?_)
    have hsize : 0 < v.hdr.getClusterSize := by omega
    omega
  rw [hptr', Nat.add_right_comm]
  refine h.mem_moved ?_ (by omega)
  rw [hptr, Nat.add_mul, FatHdr.dataStart, Nat.add_mul, Nat.add_mul]
  omega

end

/-! ## Chains -/

theorem FatVol.read_congr {v v' : FatVol} {off off' n : Nat} (hmem : ∀ k < n, v'.mem (off' + k) = v.mem (off + k)) :
    v'.read off' n = v.read off n := by
  induction n generalizing off off' with
  | zero => rfl
  | succ n ih =>
    have h0 := hmem 0 (Nat.succ_pos n)
    simp only [FatVol.read]
    rw [ih fun k hk => ?_, show v'.mem off' = v.mem off from h0]
    have hk' := hmem (k + 1) (by omega)
    rwa [Nat.add_comm k 1, ← Nat.add_assoc, ← Nat.add_assoc] at hk'

theorem FatVol.readFatEntry_congr {v v' : FatVol} {ft : FatType} {c : Nat}
    (hmem : ∀ k < ft.size, v'.mem (v'.hdr.getEntryPtr ft 0 c + k) = v.mem (v.hdr.getEntryPtr ft 0 c + k)) :
    v'.readFatEntry ft 0 c = v.readFatEntry ft 0 c := by
  unfold FatVol.readFatEntry
  cases ft with
  | fat16 => exact FatVol.read_congr hmem
  | fat32 =>
    dsimp only
    rw [FatVol.read_congr (n := 4) hmem]

theorem Chain.congr {v v' : FatVol} {ft : FatType} {c : Nat} {cs : List Nat} (h : Chain v ft c cs)
    (hread : ∀ x ∈ cs, v'.readFatEntry ft 0 x = v.readFatEntry ft 0 x) : Chain v' ft c cs := by
  induction h with
  | last h0 hend =>
    refine .last h0 ?_
    rw [hread _ (by simp)]
    exact hend
  | next h0 hn hend hbad _ ih =>
    exact .next h0 ((hread _ (by simp)).trans hn) hend hbad (ih fun x hx => hread x (List.mem_cons_of_mem _ hx))

theorem not_bad_of_end {ft : FatType} {val : Nat} (h : fatIsEndOfClusterchain ft val = true) :
    val ≠ 0 ∧ ¬ fatIsBadCluster ft val := by
  cases ft with
  | fat16 =>
    simp only [fatIsEndOfClusterchain, decide_eq_true_eq] at h
    simp only [fatIsBadCluster, decide_eq_true_eq]
    omega
  | fat32 =>
    simp only [fatIsEndOfClusterchain, Bool.and_eq_true, decide_eq_true_eq] at h
    simp only [fatIsBadCluster, decide_eq_true_eq]
    omega

theorem Chain.head_ne_zero {v : FatVol} {ft : FatType} {c : Nat} {cs : List Nat} (h : Chain v ft c cs) : c ≠ 0 := by
  cases h <;> assumption

theorem Chain.allocated {v : FatVol} {ft : FatType} {c : Nat} {cs : List Nat} (h : Chain v ft c cs)
    (hvalid : ∀ x ∈ cs, v.hdr.ValidCluster x) : ∀ x ∈ cs, v.Allocated ft x := by
  induction h with
  | last h0 hend =>
    intro x hx
    obtain rfl := List.mem_singleton.mp hx
    exact ⟨hvalid x hx, not_bad_of_end hend⟩
  | next h0 hn hend hbad hchain ih =>
    intro x hx
    rcases List.mem_cons.mp hx with rfl | hx
    · refine ⟨hvalid _ (by simp), ?_, ?_⟩
      · rw [hn]
        exact hchain.head_ne_zero
      · rw [hn, hbad]
        nofun
    · exact ih (fun y hy => hvalid y (List.mem_cons_of_mem _ hy)) x hx

/-! ## A volume that fits -/

section

variable {ft : FatType} {v : FatVol} (h : WellFormed ft v)
include h

theorem WellFormed.fat_le : v.hdr.rsvdSecCnt * v.hdr.bytsPerSec + v.hdr.getFATSz * v.hdr.bytsPerSec ≤
    v.hdr.dataStart * v.hdr.bytsPerSec := by
  have hle := Nat.le_mul_of_pos_left v.hdr.getFATSz h.numFATs
  rw [← Nat.add_mul]
  apply Nat.mul_le_mul_right
  unfold FatHdr.dataStart
  omega

theorem WellFormed.entry_mem {c : Nat} (hc : c < v.hdr.dataSectors / v.hdr.secPerClus + 2) :
    v.hdr.getEntryPtr ft 0 c = v.hdr.rsvdSecCnt * v.hdr.bytsPerSec + c * ft.size ∧
      c * ft.size + ft.size ≤ v.hdr.getFATSz * v.hdr.bytsPerSec := by
  have hend : c * ft.size + ft.size ≤ v.hdr.getFATSz * v.hdr.bytsPerSec := by
    have := Nat.mul_le_mul_right ft.size (Nat.succ_le_of_lt hc)
    rw [Nat.succ_mul] at this
    exact Nat.le_trans this h.entries
  have hfat := Nat.le_trans h.fat_le (Nat.mul_le_mul_right v.hdr.bytsPerSec h.inImage)
  have hsize := h.size
  have hpos : 0 < ft.size := by cases ft <;> decide
  have hb := h.bytsPerSec
  exact ⟨FatHdr.getEntryPtr_eq (by omega) (by omega), hend⟩

variable (hr : v.hdr.rsvdSecCnt + v.hdr.alignRem / v.hdr.bytsPerSec < 2 ^ 16) (ha : Accepts ft v)
include hr ha

theorem align_readFatEntry {c : Nat} (hc : c < v.hdr.dataSectors / v.hdr.secPerClus + 2) :
    (fatAlignFirstDataSector ft v).readFatEntry ft 0 c = v.readFatEntry ft 0 c := by
  obtain ⟨hptr, hend⟩ := h.entry_mem hc
  have hptr' : (fatAlignFirstDataSector ft v).hdr.getEntryPtr ft 0 c =
      (fatAlignFirstDataSector ft v).hdr.rsvdSecCnt * v.hdr.bytsPerSec + c * ft.size := by
    have hres : (fatAlignFirstDataSector ft v).hdr.rsvdSecCnt * v.hdr.bytsPerSec =
        v.hdr.rsvdSecCnt * v.hdr.bytsPerSec + v.hdr.alignRem := by
      rw [align_rsvdSecCnt hr, h.sector_mul ha]
    have hfat := h.fat_le
    have hused := h.resData_le_used.1
    have hrem := (h.alignRem_eq ha).2.1
    have hroom := ha.room
    have hb := h.bytsPerSec
    exact FatHdr.getEntryPtr_eq (by omega : 0 < v.hdr.bytsPerSec) ((congrArg (· + c * ft.size) hres).trans_lt (by omega))
  refine FatVol.readFatEntry_congr fun k hk => ?_
  have hfats := align_fats hr h ha h.numFATs (by omega : c * ft.size + k < _)
  simp only [Nat.zero_mul, Nat.add_zero] at hfats
  rw [hptr, hptr', Nat.add_assoc, Nat.add_assoc, hfats]

/-- **A volume that fits is preserved.** -/
theorem preserved_of_fits (hf : Fits ft v) : Preserved ft v where
  aligned := align_aligned hr h ha
  type := (align_type hr h ha).mpr ⟨hf.fat16, hf.fat32⟩
  fats _ hn _ hk := align_fats hr h ha hn hk
  root hft _ hk := align_root hr h ha hft hk
  files c cs hchain hvalid := by
    refine ⟨hchain.congr fun x hx => align_readFatEntry h hr ha (hvalid x hx).2, ?_⟩
    unfold FatVol.fileBytes
    apply List.flatMap_congr
    intro x hx
    apply List.map_congr_left
    intro k hk
    exact align_cluster hr h ha (hvalid x hx) (hf.used x (hchain.allocated hvalid x hx)) (List.mem_range.mp hk)

end

/-! ## All volumes with the header and the FATs of one -/

/-- The header and the bytes of the FATs are the same. -/
structure SameLayout (v v' : FatVol) : Prop where
  hdr : v'.hdr = v.hdr
  fats : ∀ k < v.hdr.numFATs * v.hdr.getFATSz * v.hdr.bytsPerSec,
    v'.mem (v.hdr.rsvdSecCnt * v.hdr.bytsPerSec + k) = v.mem (v.hdr.rsvdSecCnt * v.hdr.bytsPerSec + k)

section

variable {ft : FatType} {v v' : FatVol} (h : WellFormed ft v) (hs : SameLayout v v')
include h hs

theorem SameLayout.readFatEntry {c : Nat} (hc : c < v.hdr.dataSectors / v.hdr.secPerClus + 2) :
    v'.readFatEntry ft 0 c = v.readFatEntry ft 0 c := by
  obtain ⟨hptr, hend⟩ := h.entry_mem hc
  have hle := Nat.le_mul_of_pos_left (v.hdr.getFATSz * v.hdr.bytsPerSec) h.numFATs
  rw [← Nat.mul_assoc] at hle
  refine FatVol.readFatEntry_congr fun k hk => ?_
  rw [hs.hdr, hptr, Nat.add_assoc]
  exact hs.fats _ (by omega)

theorem SameLayout.allocated {c : Nat} : v'.Allocated ft c ↔ v.Allocated ft c := by
  unfold FatVol.Allocated
  rw [hs.hdr]
  exact and_congr_right fun hc => by rw [hs.readFatEntry h hc.2]

theorem SameLayout.wellFormed : WellFormed ft v' where
  bytsPerSec := hs.hdr ▸ h.bytsPerSec
  secPerClus := hs.hdr ▸ h.secPerClus
  rsvdSecCnt := hs.hdr ▸ h.rsvdSecCnt
  numFATs := hs.hdr ▸ h.numFATs
  fatSz16 := hs.hdr ▸ h.fatSz16
  inImage := hs.hdr ▸ h.inImage
  size := hs.hdr ▸ h.size
  type := hs.hdr ▸ h.type
  entries := hs.hdr ▸ h.entries
  mark := by
    rw [hs.readFatEntry h (Nat.succ_lt_succ (Nat.succ_pos _))]
    exact h.mark
  chain c hc := by
    obtain ⟨cs, hchain, hvalid⟩ := h.chain c ((hs.allocated h).mp hc)
    exact ⟨cs, hchain.congr fun x hx => hs.readFatEntry h (hvalid x hx).2, hs.hdr ▸ hvalid⟩

theorem SameLayout.used : fatCalculateUsedBytes ft v' = fatCalculateUsedBytes ft v := by
  have hlast : ∀ n ≤ v.hdr.dataSectors / v.hdr.secPerClus, lastUsed ft v' n = lastUsed ft v n := by
    intro n hn
    induction n with
    | zero => rfl
    | succ n ih =>
      simp only [lastUsed]
      rw [hs.readFatEntry h (by omega), ih (by omega)]
  unfold fatCalculateUsedBytes
  rw [hs.hdr, h.clusterCount, hlast _ (Nat.le_refl _)]

theorem SameLayout.accepts (ha : Accepts ft v) : Accepts ft v' where
  dvd := hs.hdr ▸ ha.dvd
  unaligned := hs.hdr ▸ ha.unaligned
  room := hs.used h ▸ ha.room

theorem SameLayout.fits (hf : Fits ft v) : Fits ft v' where
  rsvd := hs.hdr ▸ hf.rsvd
  fat16 := hs.hdr ▸ hf.fat16
  fat32 := hs.hdr ▸ hf.fat32
  used c hc := by
    rw [hs.hdr, hs.used h]
    exact hf.used c ((hs.allocated h).mp hc)

end

/-- A byte that is not of the FATs is changed. -/
def FatVol.poke (v : FatVol) (x : Nat) (b : UInt8) : FatVol := { v with mem := Function.update v.mem x b }

@[simp] theorem poke_hdr (v : FatVol) (x : Nat) (b : UInt8) : (v.poke x b).hdr = v.hdr := rfl

@[simp] theorem poke_mem_self (v : FatVol) (x : Nat) (b : UInt8) : (v.poke x b).mem x = b := Function.update_self _ _ _

theorem poke_mem_of_ne (v : FatVol) {x y : Nat} (b : UInt8) (hne : y ≠ x) : (v.poke x b).mem y = v.mem y :=
  Function.update_of_ne hne _ _

theorem sameLayout_poke {v : FatVol} {x : Nat} (b : UInt8)
    (hx : x < v.hdr.rsvdSecCnt * v.hdr.bytsPerSec ∨ v.hdr.dataStart * v.hdr.bytsPerSec ≤ x) : SameLayout v (v.poke x b) where
  hdr := rfl
  fats k hk := by
    have hend : v.hdr.rsvdSecCnt * v.hdr.bytsPerSec + v.hdr.numFATs * v.hdr.getFATSz * v.hdr.bytsPerSec ≤
        v.hdr.dataStart * v.hdr.bytsPerSec := by
      rw [← Nat.add_mul]
      exact Nat.mul_le_mul_right _ (by unfold FatHdr.dataStart; omega)
    exact Function.update_of_ne (by omega) _ _

theorem add_one_ne (b : UInt8) : b + 1 ≠ b := by
  intro h
  have := congrArg UInt8.toNat h
  rw [UInt8.toNat_add] at this
  have := b.toNat_lt
  change (b.toNat + 1) % 256 = b.toNat at *
  omega

theorem WellFormed.align_poke_mem {ft : FatType} {v : FatVol} (h : WellFormed ft v) {x y : Nat} (b : UInt8)
    (hx : fatCalculateUsedBytes ft v ≤ x) (hne : y ≠ x) :
    (fatAlignFirstDataSector ft (v.poke x b)).mem y = (fatAlignFirstDataSector ft v).mem y := by
  have hused := h.resData_le_used.1
  have hs : SameLayout v (v.poke x b) := sameLayout_poke b (.inr (by omega))
  have h' := hs.wellFormed h
  have hused' := hs.used h
  rcases Nat.lt_or_ge y (v.hdr.rsvdSecCnt * v.hdr.bytsPerSec) with hbefore | hres
  · rw [h'.mem_before hbefore, h.mem_before hbefore, poke_mem_of_ne v b hne]
  · rcases Nat.lt_or_ge y (v.hdr.rsvdSecCnt * v.hdr.bytsPerSec + v.hdr.alignRem) with hzero | hmoved
    · rw [h'.mem_zero hres hzero, h.mem_zero hres hzero]
    · rcases Nat.lt_or_ge y (fatCalculateUsedBytes ft v + v.hdr.alignRem) with hlt | hafter
      · obtain ⟨z, rfl⟩ : ∃ z, y = z + v.hdr.alignRem := ⟨y - v.hdr.alignRem, by omega⟩
        have hz : v.hdr.rsvdSecCnt * v.hdr.bytsPerSec ≤ z := by omega
        have hmem := h'.mem_moved hz (hused'.symm ▸ (by omega : z < fatCalculateUsedBytes ft v))
        rw [poke_hdr] at hmem
        rw [hmem, h.mem_moved hz (by omega), poke_mem_of_ne v b (by omega)]
      · have hmem := h'.mem_after (hused'.symm ▸ hafter)
        rw [hmem, h.mem_after hafter, poke_mem_of_ne v b hne]

theorem fileBytes_head {ft : FatType} {v v' : FatVol} {c k : Nat} {cs : List Nat} (hbytes : v'.fileBytes cs = v.fileBytes cs)
    (hsize : v'.hdr.getClusterSize = v.hdr.getClusterSize) (hchain : Chain v ft c cs) (hk : k < v.hdr.getClusterSize) :
    v'.mem (v'.hdr.getPointerToClusterData c + k) = v.mem (v.hdr.getPointerToClusterData c + k) := by
  obtain ⟨cs', rfl⟩ : ∃ cs', cs = c :: cs' := by cases hchain <;> exact ⟨_, rfl⟩
  simp only [FatVol.fileBytes, List.flatMap_cons] at hbytes
  have hhead := List.append_inj_left hbytes (by simp [hsize])
  have hget := congrArg (·[k]?) hhead
  simpa [hsize, hk] using hget

section

variable {ft : FatType} {v : FatVol} (h : WellFormed ft v) (ha : Accepts ft v)
include h ha

theorem rsvd_lt_of_preserved (hp : ∀ v', SameLayout v v' → Preserved ft v') :
    v.hdr.rsvdSecCnt + v.hdr.alignRem / v.hdr.bytsPerSec < 2 ^ 16 := by
  by_contra hge
  have hlt := h.rsvdSecCnt.2
  have hrem : v.hdr.alignRem / v.hdr.bytsPerSec < 2 ^ 16 := by
    have := Nat.div_le_self v.hdr.alignRem v.hdr.bytsPerSec
    have := (h.alignRem_eq ha).2.1
    unfold pageSize at this
    generalize v.hdr.alignRem / v.hdr.bytsPerSec = rem at *
    omega
  have hwrap : (v.hdr.rsvdSecCnt + v.hdr.alignRem / v.hdr.bytsPerSec) % 2 ^ 16 < v.hdr.rsvdSecCnt := by
    generalize v.hdr.alignRem / v.hdr.bytsPerSec = rem at *
    omega
  generalize hx : (v.hdr.rsvdSecCnt + v.hdr.alignRem / v.hdr.bytsPerSec) % 2 ^ 16 = rsvd' at hwrap
  have hb := h.bytsPerSec
  have hbefore : rsvd' * v.hdr.bytsPerSec < v.hdr.rsvdSecCnt * v.hdr.bytsPerSec :=
    Nat.mul_lt_mul_of_pos_right hwrap (by omega)
  have hs := sameLayout_poke (v.mem (v.hdr.rsvdSecCnt * v.hdr.bytsPerSec) + 1) (.inl hbefore)
  have hfat := (hp _ hs).fats 0 h.numFATs 0 (by
    have := h.entries
    have hpos : 0 < ft.size := by cases ft <;> decide
    have := Nat.le_mul_of_pos_left ft.size (Nat.succ_pos (v.hdr.dataSectors / v.hdr.secPerClus + 1))
    exact Nat.lt_of_lt_of_le hpos (Nat.le_trans this h.entries))
  have haddr : ∀ b, (fatAlignFirstDataSector ft (v.poke (rsvd' * v.hdr.bytsPerSec) b)).hdr.rsvdSecCnt = rsvd' := fun _ => hx
  simp only [Nat.zero_mul, Nat.add_zero, poke_hdr, haddr] at hfat
  rw [(hs.wellFormed h).mem_before hbefore, poke_mem_self, poke_mem_of_ne _ _ (by omega)] at hfat
  exact add_one_ne _ hfat

theorem used_of_preserved (hr : v.hdr.rsvdSecCnt + v.hdr.alignRem / v.hdr.bytsPerSec < 2 ^ 16)
    (hp : ∀ v', SameLayout v v' → Preserved ft v') {c : Nat} (hc : v.Allocated ft c) :
    v.hdr.getPointerToClusterData c + v.hdr.getClusterSize ≤ fatCalculateUsedBytes ft v := by
  by_contra hlt
  have hb := h.bytsPerSec
  have hspc := h.secPerClus
  have hsize : 0 < v.hdr.getClusterSize := Nat.mul_pos (by omega) hspc
  obtain ⟨hused, -⟩ := h.resData_le_used
  obtain ⟨-, hremlt, -, hrem⟩ := h.alignRem_eq ha
  -- the cluster is taken to be somewhere else
  have hptr : (fatAlignFirstDataSector ft v).hdr.getPointerToClusterData c ≠ v.hdr.getPointerToClusterData c := by
    have hptr := h.pointer hc.1
    have hlt := h.size
    have hle := Nat.mul_le_mul_right v.hdr.bytsPerSec (h.sectors_le (Nat.sub_le_iff_le_add.mpr (Nat.le_of_lt hc.1.2)))
    have hmul := h.sector_mul ha (v.hdr.dataStart + (c - 2) * v.hdr.secPerClus)
    have hsec : (fatAlignFirstDataSector ft v).hdr.getSectorForCluster c =
        v.hdr.dataStart + (c - 2) * v.hdr.secPerClus + v.hdr.alignRem / v.hdr.bytsPerSec := by
      have hsec' : (fatAlignFirstDataSector ft v).hdr.dataStart + (c - 2) * v.hdr.secPerClus =
          v.hdr.dataStart + (c - 2) * v.hdr.secPerClus + v.hdr.alignRem / v.hdr.bytsPerSec := by
        rw [align_dataStart hr, Nat.add_right_comm]
      rw [← hsec']
      refine FatHdr.getSectorForCluster_eq hc.1.1 (hsec'.trans_lt ?_)
      have := Nat.mul_le_mul_left (v.hdr.dataStart + (c - 2) * v.hdr.secPerClus + v.hdr.alignRem / v.hdr.bytsPerSec) hb
      unfold pageSize at hremlt
      omega
    have hnew : (fatAlignFirstDataSector ft v).hdr.getPointerToClusterData c =
        u32 (v.hdr.getPointerToClusterData c + v.hdr.alignRem) := by
      rw [hptr, ← hmul, ← hsec]
      rfl
    unfold pageSize at hremlt
    rw [hnew, u32]
    omega
  generalize hk : v.hdr.getClusterSize - 1 = k at *
  generalize hy : (fatAlignFirstDataSector ft v).hdr.getPointerToClusterData c + k = y
  have hx : fatCalculateUsedBytes ft v ≤ v.hdr.getPointerToClusterData c + k := by omega
  generalize hxe : v.hdr.getPointerToClusterData c + k = x at hx
  have hxy : y ≠ x := by omega
  have hs := sameLayout_poke (v := v) ((fatAlignFirstDataSector ft v).mem y + 1) (.inr (by omega : _ ≤ x))
  obtain ⟨cs, hchain, hvalid⟩ := (hs.wellFormed h).chain c ((hs.allocated h).mpr hc)
  obtain ⟨-, hbytes⟩ := (hp _ hs).files c cs hchain hvalid
  have hbyte := fileBytes_head hbytes rfl hchain (by omega : k < v.hdr.getClusterSize)
  have hlhs : ∀ b, (fatAlignFirstDataSector ft (v.poke x b)).hdr.getPointerToClusterData c + k = y := fun _ => hy
  rw [hlhs, poke_hdr, hxe, poke_mem_self, h.align_poke_mem _ hx hxy] at hbyte
  exact add_one_ne _ hbyte.symm

/-- **If all volumes with the header and the FATs are preserved, the volume fits.** -/
theorem fits_of_preserved (hp : ∀ v', SameLayout v v' → Preserved ft v') : Fits ft v := by
  have hr := rsvd_lt_of_preserved h ha hp
  obtain ⟨h16, h32⟩ := (align_type hr h ha).mp (hp v ⟨rfl, fun _ _ => rfl⟩).type
  exact ⟨hr, h16, h32, fun c hc => used_of_preserved h ha hr hp hc⟩

end

/-- The bytes that `memmove` and `bzero` write. -/
def AlignWrites (ft : FatType) (v : FatVol) (x : Nat) : Prop :=
  v.hdr.rsvdSecCnt * v.hdr.bytsPerSec ≤ x ∧ x < fatCalculateUsedBytes ft v + v.hdr.alignRem

/-- **All volumes with the header and the FATs of a volume are preserved if and only if it fits. What is written is before the
end of the page after the used bytes, and in the image if and only if the used bytes end early enough.** -/
theorem align_preserved (ft : FatType) (v : FatVol) (h : WellFormed ft v) (ha : Accepts ft v) :
    ((∀ w, SameLayout v w → Preserved ft w) ↔ Fits ft v) ∧
      (∀ x, ¬ AlignWrites ft v x → (fatAlignFirstDataSector ft v).mem x = v.mem x) ∧
      (∀ x, AlignWrites ft v x → x < fatCalculateUsedBytes ft v + pageSize) ∧
      ((∀ x, AlignWrites ft v x → x < v.hdr.getTotSec * v.hdr.bytsPerSec) ↔
        fatCalculateUsedBytes ft v + v.hdr.alignRem ≤ v.hdr.getTotSec * v.hdr.bytsPerSec) := by
  obtain ⟨-, hrem, -, hpos⟩ := h.alignRem_eq ha
  have hused := h.resData_le_used.1
  have hle : v.hdr.rsvdSecCnt * v.hdr.bytsPerSec ≤ v.hdr.dataStart * v.hdr.bytsPerSec :=
    Nat.mul_le_mul_right _ (by unfold FatHdr.dataStart; omega)
  refine ⟨⟨fits_of_preserved h ha, fun hf w hs => ?_⟩, fun x hx => ?_, fun x hx => ?_, fun hx => ?_, fun hx x hw => ?_⟩
  · exact preserved_of_fits (hs.wellFormed h) (hs.fits h hf).rsvd (hs.accepts h ha) (hs.fits h hf)
  · rcases Nat.lt_or_ge x (v.hdr.rsvdSecCnt * v.hdr.bytsPerSec) with hlt | hge
    · exact h.mem_before hlt
    · exact h.mem_after (Nat.le_of_not_lt fun hlt => hx ⟨hge, hlt⟩)
  · exact Nat.lt_trans hx.2 (by omega)
  · have := hx (fatCalculateUsedBytes ft v + v.hdr.alignRem - 1) ⟨by omega, by omega⟩
    omega
  · exact Nat.lt_of_lt_of_le hw.2 hx

/-! ## Two volumes -/

/-- A FAT16 volume with sectors and clusters of 512 bytes and one cluster in use. -/
def oneFile (totSec fatSz clu : Nat) : FatVol where
  hdr := { bytsPerSec := 512, secPerClus := 1, rsvdSecCnt := 1, numFATs := 2, rootEntCnt := 512, totSec16 := totSec,
           totSec32 := 0, fatSz16 := fatSz, fatSz32 := 0, rootClus := 0 }
  mem x := if 512 ≤ x ∧ x < 516 ∨ 512 + 2 * clu ≤ x ∧ x < 514 + 2 * clu then 0xFF else 0

section

variable {totSec fatSz clu : Nat}

theorem oneFile_readFatEntry {c : Nat} (hc : c < 2 ^ 16) :
    (oneFile totSec fatSz clu).readFatEntry .fat16 0 c = if c < 2 ∨ c = clu then 0xFFFF else 0 := by
  have hptr : (oneFile totSec fatSz clu).hdr.getEntryPtr .fat16 0 c =
      (oneFile totSec fatSz clu).hdr.rsvdSecCnt * (oneFile totSec fatSz clu).hdr.bytsPerSec + c * FatType.fat16.size := by
    apply FatHdr.getEntryPtr_eq
    · simp [oneFile]
    · simp only [oneFile, FatType.size]
      omega
  have hoff : (oneFile totSec fatSz clu).hdr.rsvdSecCnt * (oneFile totSec fatSz clu).hdr.bytsPerSec +
      c * FatType.fat16.size = 512 + 2 * c := by
    simp only [oneFile, FatType.size]
    omega
  simp only [FatVol.readFatEntry, hptr, hoff, FatVol.read]
  simp only [oneFile]
  split_ifs <;> first | rfl | omega

theorem oneFile_lastUsed {n : Nat} (hn : clu < n) (hlt : n < 2 ^ 16) (hclu : 2 ≤ clu) :
    lastUsed .fat16 (oneFile totSec fatSz clu) n = clu + 1 := by
  induction n with
  | zero => omega
  | succ n ih =>
    simp only [lastUsed, oneFile_readFatEntry (by omega : n < 2 ^ 16)]
    by_cases hne : n = clu
    · subst hne
      simp [fatIsBadCluster]
    · simp only [show ¬ (n < 2 ∨ n = clu) by omega, if_false, ne_eq, not_true_eq_false, false_and]
      exact ih (by omega) (by omega)

theorem oneFile_allocated {c : Nat} (hcount : (oneFile totSec fatSz clu).hdr.dataSectors < 65530)
    (hc : (oneFile totSec fatSz clu).Allocated .fat16 c) : c = clu := by
  obtain ⟨⟨htwo, hlt⟩, hne, -⟩ := hc
  have hdiv : (oneFile totSec fatSz clu).hdr.dataSectors / (oneFile totSec fatSz clu).hdr.secPerClus =
      (oneFile totSec fatSz clu).hdr.dataSectors := Nat.div_one _
  rw [hdiv] at hlt
  rw [oneFile_readFatEntry (by omega)] at hne
  by_contra hne'
  exact hne (if_neg (by omega))

theorem oneFile_wellFormed (hfat : fatSz ≠ 0)
    (hin : (oneFile totSec fatSz clu).hdr.dataStart ≤ (oneFile totSec fatSz clu).hdr.getTotSec)
    (hsize : (oneFile totSec fatSz clu).hdr.getTotSec < 65530)
    (htype : (oneFile totSec fatSz clu).hdr.getType = some .fat16)
    (hentries : ((oneFile totSec fatSz clu).hdr.dataSectors + 2) * 2 ≤ fatSz * 512)
    (hclu : 2 ≤ clu ∧ clu < (oneFile totSec fatSz clu).hdr.dataSectors + 2) : WellFormed .fat16 (oneFile totSec fatSz clu) := by
  have hdiv : (oneFile totSec fatSz clu).hdr.dataSectors / (oneFile totSec fatSz clu).hdr.secPerClus =
      (oneFile totSec fatSz clu).hdr.dataSectors := Nat.div_one _
  have hsec : (oneFile totSec fatSz clu).hdr.dataSectors < 65530 := Nat.lt_of_le_of_lt (Nat.sub_le _ _) hsize
  refine ⟨Nat.le_refl 512, Nat.one_pos, ⟨Nat.one_pos, (by decide : 1 < 2 ^ 16)⟩, Nat.two_pos, fun _ => hfat, hin, ?_, htype,
    ?_, ?_, ?_⟩
  · have hbps : (oneFile totSec fatSz clu).hdr.bytsPerSec = 512 := rfl
    rw [hbps]
    omega
  · have hsz : (oneFile totSec fatSz clu).hdr.getFATSz = fatSz := if_pos hfat
    rw [hdiv, hsz]
    exact hentries
  · rw [oneFile_readFatEntry (by decide), if_pos (.inl (by decide))]
    exact ⟨by decide, by decide⟩
  · intro c hc
    obtain rfl := oneFile_allocated hsec hc
    refine ⟨[c], .last (by omega) ?_, fun x hx => ?_⟩
    · rw [oneFile_readFatEntry (by omega), if_pos (.inr rfl)]
      rfl
    · obtain rfl := List.mem_singleton.mp hx
      exact hc.1

theorem oneFile_used (hin : (oneFile totSec fatSz clu).hdr.dataStart ≤ (oneFile totSec fatSz clu).hdr.getTotSec)
    (hsize : (oneFile totSec fatSz clu).hdr.getTotSec < 65530)
    (hclu : 2 ≤ clu ∧ clu < (oneFile totSec fatSz clu).hdr.dataSectors) :
    fatCalculateUsedBytes .fat16 (oneFile totSec fatSz clu) =
      u32 (((oneFile totSec fatSz clu).hdr.getSectorForCluster (clu + 1) + 1) * 512) := by
  have hcount : (oneFile totSec fatSz clu).hdr.getClusterCount = (oneFile totSec fatSz clu).hdr.dataSectors :=
    (FatHdr.getClusterCount_eq hin (by omega)).trans (Nat.div_one _)
  have hsec : (oneFile totSec fatSz clu).hdr.dataSectors < 65530 := Nat.lt_of_le_of_lt (Nat.sub_le _ _) hsize
  unfold fatCalculateUsedBytes
  dsimp only
  rw [hcount, oneFile_lastUsed hclu.2 (by omega) hclu.1, if_neg (Nat.succ_ne_zero clu)]
  rfl

end

theorem oneFile_fits : WellFormed .fat16 (oneFile 5000 20 2) ∧ Accepts .fat16 (oneFile 5000 20 2) ∧
    Fits .fat16 (oneFile 5000 20 2) := by
  have hused : fatCalculateUsedBytes .fat16 (oneFile 5000 20 2) = 75 * 512 := by
    rw [oneFile_used (by decide) (by decide) (by decide)]
    decide
  refine ⟨oneFile_wellFormed (by decide) (by decide) (by decide) (by decide) (by decide) (by decide),
    ⟨by decide, by decide, ?_⟩, by decide, by decide, by decide, fun c hc => ?_⟩
  · rw [hused]
    decide
  · obtain rfl := oneFile_allocated (by decide) hc
    rw [hused]
    decide

theorem align_preserved_oneFile : WellFormed .fat16 (oneFile 5000 20 2) ∧ Accepts .fat16 (oneFile 5000 20 2) ∧
    ∀ w, SameLayout (oneFile 5000 20 2) w → Preserved .fat16 w :=
  ⟨oneFile_fits.1, oneFile_fits.2.1, (align_preserved _ _ oneFile_fits.1 oneFile_fits.2.1).1.mpr oneFile_fits.2.2⟩

/-- A volume with the fewest clusters of FAT16 becomes one of FAT12, and one that is full is moved over its end. -/
theorem align_small_and_full :
    (WellFormed .fat16 (oneFile 4150 16 2) ∧ Accepts .fat16 (oneFile 4150 16 2) ∧
      (fatAlignFirstDataSector .fat16 (oneFile 4150 16 2)).hdr.getType = none) ∧
    WellFormed .fat16 (oneFile 5000 20 4926) ∧ Accepts .fat16 (oneFile 5000 20 4926) ∧
      AlignWrites .fat16 (oneFile 5000 20 4926) (5000 * 512) := by
  have hused : fatCalculateUsedBytes .fat16 (oneFile 4150 16 2) = 67 * 512 := by
    rw [oneFile_used (by decide) (by decide) (by decide)]
    decide
  have hused' : fatCalculateUsedBytes .fat16 (oneFile 5000 20 4926) = 4999 * 512 := by
    rw [oneFile_used (by decide) (by decide) (by decide)]
    decide
  refine ⟨⟨?_, ⟨by decide, by decide, by rw [hused]; decide⟩, by decide⟩, ?_,
    ⟨by decide, by decide, by rw [hused']; decide⟩, ?_⟩
  · exact oneFile_wellFormed (by decide) (by decide) (by decide) (by decide) (by decide) (by decide)
  · exact oneFile_wellFormed (by decide) (by decide) (by decide) (by decide) (by decide) (by decide)
  · unfold AlignWrites
    rw [hused']
    decide

end Usax.Fat
