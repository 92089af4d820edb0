import Usax.Fat.Walk
import Usax.Fs.Listing

/-!
# Listing a FAT directory

`fat_getdents` of `fat32.c`: each call walks the whole directory, and the callback of `vfs_getdents64` skips the entries that
were returned before. `fat_walk` returns 0 when the callback ends the walk, so that what the callback answered is lost; how much
it has copied is in its own context. The calls give the answers of the directory as long as the buffers have room for the next
entry (`fatCalls_answers`); `getdents_delivers` has ramfs as well.
-/

namespace Usax.Fat

open Common Fs

/-! ## Model -/

def tolower (c : UInt8) : UInt8 := if 65 ≤ c ∧ c ≤ 90 then c + 32 else c

namespace FatEntry

variable (e : FatEntry)

def ntRes : UInt8 := e.bytes[12]

def baseLowCase : Bool := e.ntRes &&& 0x08 ≠ 0
def extLowCase : Bool := e.ntRes &&& 0x10 ≠ 0

def firstCluster : Nat :=
  ((e.bytes.get 20).toNat + 256 * (e.bytes.get 21).toNat) * 2 ^ 16 +
    ((e.bytes.get 26).toNat + 256 * (e.bytes.get 27).toNat)

/-- A part of a short name, up to the first space. -/
def namePart (low : Bool) (bytes : List UInt8) : List UInt8 :=
  (bytes.takeWhile (· ≠ 32)).map fun c => if low then tolower c else c

def getShortName : List UInt8 :=
  namePart e.baseLowCase (e.dirName.take 8) ++
    if e.bytes.get 8 ≠ 32 then 46 :: namePart e.extLowCase (e.dirName.drop 8) else []

end FatEntry

def toChars (name : List UInt8) : List Char := name.map fun b => Char.ofNat b.toNat

section

variable [Machine]

/-- The entry that `fat_getdents_cb` gives to the callback of `vfs_getdents64`; `name_len` is a `u8`. -/
def fatDent (e : FatEntry) (off : Nat) (longName : Option (List UInt8)) : VfsDent64 where
  ino := off
  type := if e.directory then .dir else .file
  nameLen := ((longName.getD e.getShortName).length % 2 ^ 8 + 1) % 2 ^ 8
  name := toChars (longName.getD e.getShortName)

/-- `fat_getdents_cb`, and whether it ends the walk. -/
def fatGetdentsCb (v : FatVol) (ctx : GetdentsCtx) (off : Nat) (longName : Option (List UInt8)) : GetdentsCtx × Bool :=
  let r := vfsGetdentsCb ctx (fatDent (v.dentry off) off longName)
  (r.1, r.2 ≠ 0)

/-- `struct fatfs_handle` of a directory: the offset of its entry, and the position. -/
structure FatHandle where
  e : Nat
  dirPos : Nat
deriving DecidableEq, Repr

/-- The cluster that `fat_fs_walk_generic` starts with. -/
def walkCluster (v : FatVol) (ft : FatType) (off : Nat) : Nat :=
  if off = (v.hdr.getRootdir ft).1 then (v.hdr.getRootdir ft).2 else (v.dentry off).firstCluster

/-- `vfs_getdents64` with `fat_getdents`. What `fat_walk` returns is 0, and the member `rc` of the context is never set. -/
def fatGetdents (v : FatVol) (ft : FatType) (fuel : Nat) (h : FatHandle) (bufSize accessible : Nat) :
    Option (FatHandle × Answer) :=
  let ctx := getdentsCtx true h.dirPos bufSize accessible
  let e := v.dentry h.e
  if e.directory = false ∧ e.volumeId = false then some (h, ⟨bufSize, getdentsRc (-Errno.enotdir.code) ctx, []⟩)
  else (fatWalk (fun _ => v) (fatGetdentsCb v) ft fuel (walkCluster v ft h.e) true ctx).map fun r =>
    ({ h with dirPos := r.2.dirPos }, ⟨bufSize, getdentsRc 0 r.2, r.2.copied⟩)

/-- Calls on a handle, with buffers of these sizes and of which this much is accessible. -/
def fatCalls (v : FatVol) (ft : FatType) (fuel : Nat) : FatHandle → List (Nat × Nat) → Option (List Answer)
  | _, [] => some []
  | h, (bufSize, accessible) :: bs =>
    (fatGetdents v ft fuel h bufSize accessible).bind fun r => (fatCalls v ft fuel r.1 bs).map (r.2 :: ·)

/-! ## Names -/

def FatEntry.base (e : FatEntry) : List UInt8 := (e.dirName.take 8).rdropWhile (· = 32)

def FatEntry.ext (e : FatEntry) : List UInt8 := (e.dirName.drop 8).rdropWhile (· = 32)

def FatEntry.ShortLegal (e : FatEntry) : Prop := 32 ∉ e.base ∧ 32 ∉ e.ext

def FatEntry.shortName (e : FatEntry) : List UInt8 :=
  e.base.map (fun c => if e.baseLowCase then tolower c else c) ++
    if e.ext = [] then [] else 46 :: e.ext.map fun c => if e.extLowCase then tolower c else c

def DirFile.name (f : DirFile) : List UInt8 := (f.lname.map LongName.chars).getD f.entry.shortName

def DirFile.dirEntry (f : DirFile) : DirEntry := ⟨f.off, if f.entry.directory then .dir else .file, toChars f.name⟩

/-- A file whose names are legal, the long one if there is one. -/
def DirFile.Legal (f : DirFile) : Prop := f.lname = none → f.entry.ShortLegal

omit [Machine] in
theorem takeWhile_eq_rdropWhile {l : List UInt8} (h : 32 ∉ l.rdropWhile (· = 32)) :
    l.takeWhile (· ≠ 32) = l.rdropWhile (· = 32) := by
  have hpad : (l.rtakeWhile (· = 32)).takeWhile (· ≠ 32) = [] := by
    cases hr : l.rtakeWhile (· = 32) with
    | nil => rfl
    | cons c r =>
      have hmem : c ∈ l.rtakeWhile (· = 32) := hr ▸ List.mem_cons_self
      have hc := List.mem_rtakeWhile_imp hmem
      exact List.takeWhile_cons_of_neg (by simpa using hc)
  have hall : ∀ c ∈ l.rdropWhile (· = 32), decide (c ≠ 32) = true := fun c hc => decide_eq_true fun he => h (he ▸ hc)
  have hsplit : l.rdropWhile (· = 32) ++ l.rtakeWhile (· = 32) = l := List.rdropWhile_append_rtakeWhile
  conv_lhs => rw [← hsplit]
  rw [List.takeWhile_append_of_pos hall, hpad, List.append_nil]

omit [Machine] in
theorem getShortName_eq {e : FatEntry} (h : e.ShortLegal) : e.getShortName = e.shortName := by
  have hhead : (e.dirName.drop 8).head? = some (e.bytes.get 8) := by
    rw [show e.bytes.get 8 = e.bytes[8] from rfl]
    simp [FatEntry.dirName]
  have hext : e.bytes.get 8 ≠ 32 ↔ e.ext ≠ [] := by
    constructor
    · intro hne hnil
      have := List.rdropWhile_eq_nil_iff.mp hnil _ (List.mem_of_head? hhead)
      exact hne (by simpa using this)
    · intro hne he
      obtain ⟨t, ht⟩ : e.ext <+: e.dirName.drop 8 := List.rdropWhile_prefix ..
      obtain ⟨c, r, hcr⟩ := List.exists_cons_of_ne_nil hne
      rw [← ht, hcr, he, List.cons_append, List.head?_cons, Option.some_inj] at hhead
      exact h.2 (hcr ▸ hhead ▸ List.mem_cons_self)
  have hb := takeWhile_eq_rdropWhile h.1
  have he := takeWhile_eq_rdropWhile h.2
  unfold FatEntry.getShortName FatEntry.shortName FatEntry.namePart
  rw [hb, he]
  simp only [hext, ne_eq, ite_not]
  rfl

/-! ## Calls -/

variable {v : FatVol} {ft : FatType} {fuel size p off : Nat} {area walked : List Slot} {fs : List DirFile} {f : DirFile}
  {bs : List (Nat × Nat)} {h : FatHandle}

theorem feed_fatGetdentsCb (v : FatVol) (rs : List (Nat × Option (List UInt8))) (ctx : GetdentsCtx) :
    feed (fatGetdentsCb v) rs ctx = (walkCb ctx (rs.map fun r => fatDent (v.dentry r.1) r.1 r.2)).1 := by
  induction rs generalizing ctx with
  | nil => rfl
  | cons r rs ih =>
    simp only [feed, fatGetdentsCb, List.map_cons, walkCb, ih, decide_eq_true_eq, ne_eq, ite_not]
    split_ifs <;> rfl

omit [Machine] in
theorem Clean.mem {stale : List FatEntry} {l : List Slot} (h : Clean stale l fs) (hf : f ∈ fs) : (f.off, f.entry) ∈ l := by
  induction h with
  | done => cases hf
  | long _ _ ih | skip _ _ _ ih => exact List.mem_cons_of_mem _ (ih hf)
  | short _ _ _ _ _ ih =>
    rcases List.mem_cons.mp hf with rfl | hf
    · exact List.mem_cons_self
    · exact List.mem_cons_of_mem _ (ih hf)
  | named _ _ _ _ _ _ _ ih =>
    rcases List.mem_cons.mp hf with rfl | hf
    · exact List.mem_append_right _ List.mem_cons_self
    · exact List.mem_append_right _ (List.mem_cons_of_mem _ (ih hf))

omit [Machine] in
theorem IsDir.dentry {cluster : Nat} (hd : IsDir v ft cluster size area walked) {s : Slot} (hs : s ∈ walked) :
    v.dentry s.1 = s.2 := by
  have hslots : ∀ {off n : Nat}, s ∈ v.slots off n → v.dentry s.1 = s.2 := fun hs => by
    obtain ⟨i, -, rfl⟩ := List.mem_map.mp hs
    rfl
  cases hd with
  | chain | root32 =>
    obtain ⟨c, -, hs⟩ := List.mem_flatMap.mp hs
    exact hslots hs
  | root16 => exact hslots hs

omit [Machine] in
theorem fatDent_report (hl : f.Legal) (hn : f.name.length < 255) :
    fatDent f.entry f.off f.report.2 = f.dirEntry.dent := by
  have hname : f.report.2.getD f.entry.getShortName = f.name := by
    unfold DirFile.name DirFile.report
    cases hf : f.lname with
    | none => exact getShortName_eq (hl hf)
    | some n => rfl
  unfold fatDent DirFile.dirEntry DirEntry.dent
  rw [hname]
  simp only [toChars, List.length_map]
  rw [Nat.mod_eq_of_lt (by omega : f.name.length < 2 ^ 8), Nat.mod_eq_of_lt (by omega)]

/-- The buffers are there, shorter than `2 ^ 31`, and have room for the next entry; `p` is the position. -/
def RoomForNext (l : List DirEntry) : (p : Nat) → List (Nat × Nat) → Prop
  | _, [] => True
  | p, b :: bs => b.1 ≤ b.2 ∧ b.1 < 2 ^ 31 ∧ (∀ d ∈ l[p]?, d.size ≤ b.1) ∧ RoomForNext l (p + (fits l p b.1).1.length) bs

/-- The directory that a handle is for, by its cluster: the root directory, or a directory whose entry is not the first one of
the root directory. The entry of the handle is that of a directory or of a volume. -/
structure HandleOf (v : FatVol) (ft : FatType) (off cluster : Nat) : Prop where
  isDir : (v.dentry off).directory = true ∨ (v.dentry off).volumeId = true
  cluster : off = (v.hdr.getRootdir ft).1 ∧ cluster = (v.hdr.getRootdir ft).2 ∨
    off ≠ (v.hdr.getRootdir ft).1 ∧ cluster = (v.dentry off).firstCluster

omit [Machine] in
theorem map_fatDent {cluster : Nat} (hd : IsDir v ft cluster size area walked) (hc : Clean [] walked fs)
    (hl : ∀ f ∈ fs, f.Legal) (hn : ∀ f ∈ fs, f.name.length < 255) :
    (fs.map DirFile.report).map (fun r => fatDent (v.dentry r.1) r.1 r.2) =
      (fs.map DirFile.dirEntry).map DirEntry.dent := by
  rw [List.map_map, List.map_map]
  refine List.map_congr_left fun f hf => ?_
  have hmem := hc.mem hf
  have hentry := hd.dentry hmem
  show fatDent (v.dentry f.off) f.off f.report.2 = f.dirEntry.dent
  rw [← fatDent_report (hl f hf) (hn f hf), hentry]

theorem walkCb_position {l : List DirEntry} {bufSize accessible : Nat} (hn : ∀ d ∈ l, d.name.length < 255) (hp : p ≤ l.length)
    (hb : bufSize ≤ accessible ∧ bufSize < 2 ^ 31) :
    (walkCb (getdentsCtx true p bufSize accessible) (l.map DirEntry.dent)).1 =
      GetdentsCtx.after { getdentsCtx true p bufSize accessible with off := p } (fits l p bufSize).1 := by
  have hskip : walkCb (getdentsCtx true p bufSize accessible) (l.map DirEntry.dent) =
      walkCb { getdentsCtx true p bufSize accessible with off := p } ((l.map DirEntry.dent).drop (p - 0)) :=
    walkCb_skip (l.map DirEntry.dent) rfl (Nat.zero_le p) (by simpa [getdentsCtx] using hp)
  have hlen : ∀ vde ∈ (l.drop p).map DirEntry.dent, vde.nameLen < 256 := by
    intro vde hv
    obtain ⟨d, hd, rfl⟩ := List.mem_map.mp hv
    exact Nat.succ_lt_succ (hn d (List.mem_of_mem_drop hd))
  rw [hskip, Nat.sub_zero, ← List.map_drop]
  exact (walkCb_call ⟨Nat.zero_le _, hb.1, hb.2, fun _ => Nat.le_refl _⟩ rfl hlen).1

theorem toInt_totalSize {l : List DirEntry} {bufSize : Nat} (hn : ∀ d ∈ l, d.name.length < 255) (hb : bufSize < 2 ^ 31)
    (hroom : ∀ d ∈ l[p]?, d.size ≤ bufSize) : toInt (0 + totalSize (fits l p bufSize).1) = listRc (fits l p bufSize) := by
  have hle : 0 + totalSize (fits l p bufSize).1 ≤ bufSize := totalSize_fill 0 _ (Nat.zero_le _)
  rw [toInt_eq (by omega), Nat.zero_add]
  unfold listRc
  rw [if_neg]
  rintro ⟨hnil, hne⟩
  cases hd : l[p]? with
  | none =>
    have happ := fits_append l p bufSize
    rw [List.drop_eq_nil_of_le (List.getElem?_eq_none_iff.mp hd), hnil, List.nil_append] at happ
    exact hne happ
  | some d => exact fits_of_le hd (hn d (List.mem_of_getElem? hd)) (hroom d hd) hnil

theorem fatGetdents_eq {cluster bufSize accessible : Nat} (ho : HandleOf v ft h.e cluster)
    (hd : IsDir v ft cluster size area walked) (hf : size ≤ fuel) (hc : Clean [] walked fs) (hl : ∀ f ∈ fs, f.Legal)
    (hn : ∀ f ∈ fs, f.name.length < 255) (hp : h.dirPos ≤ fs.length) (hb : bufSize ≤ accessible ∧ bufSize < 2 ^ 31)
    (hroom : ∀ d ∈ (fs.map DirFile.dirEntry)[h.dirPos]?, d.size ≤ bufSize) :
    fatGetdents v ft fuel h bufSize accessible =
      some ({ h with dirPos := h.dirPos + (fits (fs.map DirFile.dirEntry) h.dirPos bufSize).1.length },
        ⟨bufSize, listRc (fits (fs.map DirFile.dirEntry) h.dirPos bufSize),
          userEnts h.dirPos (fits (fs.map DirFile.dirEntry) h.dirPos bufSize).1⟩) := by
  have hcluster : walkCluster v ft h.e = cluster := by
    unfold walkCluster
    rcases ho.cluster with ⟨h₁, h₂⟩ | ⟨h₁, h₂⟩
    · rw [if_pos h₁, h₂]
    · rw [if_neg h₁, h₂]
  have hn' : ∀ d ∈ fs.map DirFile.dirEntry, d.name.length < 255 := by
    intro d hd'
    obtain ⟨f, hf', rfl⟩ := List.mem_map.mp hd'
    simpa [DirFile.dirEntry, toChars] using hn f hf'
  have hfresh : LongNameCtx.init.Fresh := ⟨rfl, rfl, rfl⟩
  have hfeed := (walkSlots_of_clean (fatGetdentsCb v) hc hfresh (getdentsCtx true h.dirPos bufSize accessible)).1
  rw [feed_fatGetdentsCb, map_fatDent hd hc hl hn, walkCb_position hn' (by simpa using hp) hb] at hfeed
  have hdir : ¬ ((v.dentry h.e).directory = false ∧ (v.dentry h.e).volumeId = false) := by
    rintro ⟨h₁, h₂⟩
    rcases ho.isDir with h | h
    · exact absurd (h₁.symm.trans h) (by decide)
    · exact absurd (h₂.symm.trans h) (by decide)
  have hrc := toInt_totalSize hn' hb.2 hroom
  unfold fatGetdents
  rw [if_neg hdir, hcluster, hd.fatWalk_eq hf, Option.map_some]
  have hafter : LongNameCtx.after .init [] = LongNameCtx.init := rfl
  rw [hafter] at hfeed
  simp only [hfeed, getdentsRc, if_true]
  rw [← hrc]
  rfl

theorem fatCalls_answers {cluster : Nat} (ho : HandleOf v ft h.e cluster)
    (hd : IsDir v ft cluster size area walked) (hf : size ≤ fuel) (hc : Clean [] walked fs) (hl : ∀ f ∈ fs, f.Legal)
    (hn : ∀ f ∈ fs, f.name.length < 255) (hp : h.dirPos ≤ fs.length)
    (hroom : RoomForNext (fs.map DirFile.dirEntry) h.dirPos bs) :
    ∃ t, fatCalls v ft fuel h bs = some t ∧ Answers (fs.map DirFile.dirEntry) h.dirPos t := by
  induction bs generalizing h with
  | nil => exact ⟨[], rfl, trivial⟩
  | cons b bs ih =>
    obtain ⟨bufSize, accessible⟩ := b
    obtain ⟨hb₁, hb₂, hnext, hroom⟩ := hroom
    have hcall := fatGetdents_eq ho hd hf hc hl hn hp ⟨hb₁, hb₂⟩ hnext
    have hlen : h.dirPos + (fits (fs.map DirFile.dirEntry) h.dirPos bufSize).1.length ≤ fs.length := by
      have := length_fits_le (l := fs.map DirFile.dirEntry) (p := h.dirPos) (by simpa using hp) bufSize
      simpa using this
    obtain ⟨t, ht, hans⟩ := @ih ⟨h.e, h.dirPos + (fits (fs.map DirFile.dirEntry) h.dirPos bufSize).1.length⟩ ho hlen hroom
    refine ⟨⟨bufSize, listRc (fits (fs.map DirFile.dirEntry) h.dirPos bufSize),
      userEnts h.dirPos (fits (fs.map DirFile.dirEntry) h.dirPos bufSize).1⟩ :: t, ?_, rfl, rfl, hans⟩
    rw [fatCalls, hcall, Option.bind_some, ht]
    rfl

end

section

variable [Machine]

/-- **Calls of `vfs_getdents64` on one handle deliver the directory**, with buffers of any sizes that are there and are shorter
than `2 ^ 31`: on ramfs; and on FAT, if the entries are clean, no name has 255 characters, the handle is that of an entry that
says what it is, and each buffer has room for the next entry. -/
theorem getdents_delivers :
    (∀ (s : RamfsDir) (i : Nat) (x : DirHandle) (bs : List (Nat × Nat)), s.ready i = some x → x.dpos = s.first →
      x.dirPos = 0 → s.mode &&& 0o400 = 0o400 → (s.entries.map RamfsEntry.addr).Nodup →
      (∀ e ∈ s.entries, e.name.length + 1 ≤ ramfsEntryMaxLen) → (∀ b ∈ bs, b.1 ≤ b.2 ∧ b.1 < 2 ^ 31) →
      Delivers (s.entries.map RamfsEntry.dirEntry) (s.calls i bs)) ∧
    ∀ (v : FatVol) (ft : FatType) (fuel size off cluster : Nat) (area walked : List Slot) (fs : List DirFile)
      (bs : List (Nat × Nat)), IsDir v ft cluster size area walked → size ≤ fuel → Holds area fs → (∀ f ∈ fs, f.Legal) →
      Clean [] walked fs → (∀ f ∈ fs, f.name.length < 255) → HandleOf v ft off cluster →
      RoomForNext (fs.map DirFile.dirEntry) 0 bs →
      ∃ t, fatCalls v ft fuel ⟨off, 0⟩ bs = some t ∧ Delivers (fs.map DirFile.dirEntry) t := by
  constructor
  · intro s i x bs hx hfirst h0 hm hnd hlen hbs
    have hans := RamfsDir.answers hm hnd hlen hx (by rw [h0, List.drop_zero]; exact hfirst) hbs
    rw [h0] at hans
    refine hans.toDelivers fun d hd => ?_
    obtain ⟨e, he, rfl⟩ := List.mem_map.mp hd
    have := hlen e he
    have := RamfsDir.ramfsEntryMaxLen_lt
    simp only [RamfsEntry.dirEntry]
    omega
  · intro v ft fuel size off cluster area walked fs bs hd hf _ hl hc hn ho hroom
    obtain ⟨t, ht, hans⟩ := fatCalls_answers (h := ⟨off, 0⟩) ho hd hf hc hl hn (Nat.zero_le _) hroom
    refine ⟨t, ht, hans.toDelivers fun d hd => ?_⟩
    obtain ⟨f, hf, rfl⟩ := List.mem_map.mp hd
    simpa [DirFile.dirEntry, toChars] using hn f hf

end

section

attribute [local instance] machine32

def volEntry : FatEntry :=
  ⟨#v[86, 32, 32, 32, 32, 32, 32, 32, 32, 32, 32, 0x08, 0, 0, 0, 0, 0, 0, 0, 0, 0, 0, 0, 0, 0, 0, 0, 0, 0, 0, 0, 0]⟩

/-- A file without a long name, in a root directory after the entry of the volume. -/
def shortFile : DirFile := ⟨10784, fileEntry 65, none⟩

theorem slots_volume : (rootVol [volEntry, fileEntry 65]).slots 10752 32 =
    (10752, volEntry) :: (shortFile.off, shortFile.entry) :: (rootVol [volEntry, fileEntry 65]).slots 10816 30 ∧
    Ends ((rootVol [volEntry, fileEntry 65]).slots 10816 30) := by
  have hslots : (rootVol [volEntry, fileEntry 65]).slots 10752 2 = [(10752, volEntry), (10784, fileEntry 65)] := by
    decide
  rw [show 32 = 2 + 30 from rfl, FatVol.slots_add, hslots]
  exact ⟨rfl, ends_slots (by decide) 30⟩

theorem holds_volume : Holds ((rootVol [volEntry, fileEntry 65]).slots 10752 32) [shortFile] := by
  rw [slots_volume.1]
  exact .skip (by decide) (Holds.file (f := shortFile) (by decide) (List.map_nil) (.done slots_volume.2))

theorem clean_volume : Clean [] ((rootVol [volEntry, fileEntry 65]).slots 10752 32) [shortFile] := by
  have hfit : RowsFit [] := fun p hp c => by
    rw [List.prefix_nil.mp hp]
    exact Nat.zero_le _
  have hrow : ¬ Spells (row (fileEntry 65).checksum []) := fun hs => by
    obtain ⟨x, hx, -⟩ := hs.2
    cases hx
  rw [slots_volume.1]
  exact .skip (by decide) (by decide) (.short rfl (by decide) hfit hrow (.done slots_volume.2 hfit))

def twoCalls : List (Nat × Nat) := [(30, 30), (30, 30)]

theorem getdents_delivers_calls :
    Delivers (RamfsDir.listed.entries.map RamfsEntry.dirEntry) (RamfsDir.listed.calls 0 twoCalls) ∧
    ∃ t, fatCalls (rootVol [volEntry, fileEntry 65]) .fat16 1 ⟨10752, 0⟩ twoCalls = some t ∧
      Delivers [shortFile.dirEntry] t := by
  constructor
  · exact getdents_delivers.1 RamfsDir.listed 0 _ twoCalls rfl rfl rfl (by decide) (by decide) (by decide) (by decide)
  · have hnext : ∀ d ∈ [shortFile.dirEntry][0]?, d.size ≤ 30 := fun d hd => by
      obtain rfl := Option.some.inj hd
      decide
    have hone : 0 + (fits [shortFile.dirEntry] 0 30).1.length = 1 := by decide
    refine getdents_delivers.2 (rootVol [volEntry, fileEntry 65]) .fat16 1 1 10752 0 _ _ [shortFile] twoCalls .root16
      (Nat.le_refl 1) holds_volume ?_ clean_volume ?_ ⟨.inr (by decide), .inl ⟨by decide, by decide⟩⟩ ?_
    · intro f hf _
      obtain rfl := List.mem_singleton.mp hf
      exact ⟨by decide, by decide⟩
    · intro f hf
      obtain rfl := List.mem_singleton.mp hf
      decide
    · refine ⟨Nat.le_refl _, by decide, hnext, ?_⟩
      show RoomForNext [shortFile.dirEntry] (0 + (fits [shortFile.dirEntry] 0 30).1.length) _
      rw [hone]
      exact ⟨Nat.le_refl _, by decide, fun d hd => (nomatch hd), trivial⟩

/-! ## The gaps -/

/-- **A buffer that is too small for the next entry gets 0** on FAT, as if there were no more entries; a name of 255 characters
has the length 0; and a root directory whose first entry is that of a file is not taken for a directory. -/
theorem small_buffer :
    Holds ((rootVol [volEntry, fileEntry 65]).slots 10752 32) [shortFile] ∧
    fatCalls (rootVol [volEntry, fileEntry 65]) .fat16 1 ⟨10752, 0⟩ [(10, 10), (30, 30)] =
      some [⟨10, 0, []⟩, ⟨30, 22, [⟨10784, 1, 22, 8, ['A', Char.ofNat 0]⟩]⟩] ∧
    (fatDent (fileEntry 65) 10784 (some (List.replicate 255 97))).nameLen = 0 ∧
    fatCalls (rootVol [fileEntry 65]) .fat16 1 ⟨10752, 0⟩ [(30, 30)] = some [⟨30, -Errno.enotdir.code, []⟩] :=
  ⟨holds_volume, by decide +kernel, by decide +kernel, by decide +kernel⟩

end

end Usax.Fat
