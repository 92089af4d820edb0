import Usax.Fs.RamfsFile

/-!
# What a ramfs file holds

In the runs without holes, a file is the list of its bytes to those that read it, write to it and truncate it
(`file_is_list`): the blocks have offsets and pages of their own, so that a byte is in one place only.
-/

namespace Usax.Fs

open Lib

namespace FileData

/-- Blocks with different offsets in different pages. -/
def Uniq (f : FileData) : Prop := ∀ a ∈ f.blocks, ∀ b ∈ f.blocks, a.offset = b.offset ∨ a.vaddr = b.vaddr → a = b

/-- The pages of the allocations are not in use. -/
def Fresh (f : FileData) (allocs : List (Option Nat)) : Prop :=
  (allocs.filterMap id).Nodup ∧ ∀ v ∈ allocs.filterMap id, ∀ b ∈ f.blocks, b.vaddr ≠ v

variable [Machine] {f g : FileData} {b : Block} {pos x v page : Nat} {buf : List UInt8}

def content (f : FileData) : List UInt8 := (List.range f.fsize).map f.byte

/-- The list with `buf` in the place of what is at `pos`. -/
def splice (l buf : List UInt8) (pos : Nat) : List UInt8 := l.take pos ++ buf ++ l.drop (pos + buf.length)

omit [Machine] in
theorem Uniq.find_iff (hu : f.Uniq) : f.find page = some b ↔ b ∈ f.blocks ∧ b.offset = page := by
  constructor
  · intro h
    exact ⟨List.mem_of_find?_eq_some h, by simpa using List.find?_some h⟩
  · rintro ⟨hb, rfl⟩
    obtain ⟨c, hc⟩ := Option.isSome_iff_exists.mp (show (f.find b.offset).isSome = true from
      List.find?_isSome.mpr ⟨b, hb, by simp⟩)
    rw [hc, hu c (List.mem_of_find?_eq_some hc) b hb (.inl (by simpa using List.find?_some hc))]

theorem pageOf_eq (h : x < 2 ^ Machine.nbits) : pageOf x = x - x % blockSize :=
  Nat.mod_eq_of_lt (Nat.lt_of_le_of_lt (Nat.sub_le ..) h)

theorem Uniq.byte_writeBlock (hu : f.Uniq) (hb : f.find (pageOf pos) = some b)
    (hlen : pos % blockSize + buf.length ≤ blockSize) (hend : pos + buf.length ≤ 2 ^ Machine.nbits)
    (hx : x < 2 ^ Machine.nbits) : (f.writeBlock b pos buf).byte x =
      if pos ≤ x ∧ x < pos + buf.length then buf.getD (x - pos) 0 else f.byte x := by
  rw [show (f.writeBlock b pos buf).byte x = (f.memcpy b (pos % blockSize) buf).byte x from rfl, FileData.byte,
    show (f.memcpy b (pos % blockSize) buf).find (pageOf x) = f.find (pageOf x) from rfl]
  split_ifs with hin
  · obtain ⟨i, rfl⟩ := Nat.exists_eq_add_of_le hin.1
    obtain ⟨h₁, h₂⟩ := @pageOf_add _ pos i (by omega)
    rw [h₁, h₂, hb]
    simp [memcpy, show i < buf.length by omega]
  · rw [byte]
    cases hf : f.find (pageOf x) with
    | none => rfl
    | some c =>
      refine if_neg ?_
      rintro ⟨hv, h₁, h₂⟩
      obtain ⟨hc, hpc⟩ := hu.find_iff.mp hf
      obtain ⟨hb, hpb⟩ := hu.find_iff.mp hb
      have hpage : pageOf x = pageOf pos := by rw [← hpc, ← hpb, hu c hc b hb (.inr hv)]
      rw [pageOf_eq hx, pageOf_eq (by omega)] at hpage
      have := Nat.mod_le x blockSize
      have := Nat.mod_le pos blockSize
      omega

/-- A new block of zeros in the place of a hole. -/
theorem Uniq.append (hu : f.Uniq) (hnone : f.find page = none) (hv : ∀ b ∈ f.blocks, b.vaddr ≠ v)
    (hg : g = (f.newBlock v).appendNewBlock ⟨page, v⟩) :
    g.Uniq ∧ g.find page = some ⟨page, v⟩ ∧ g.fsize = f.fsize ∧ (∀ b ∈ g.blocks, b.vaddr = v ∨ b ∈ f.blocks) ∧
      ∀ x, g.byte x = f.byte x := by
  have heq : g = { f.newBlock v with blocks := f.blocks.orderedInsert (fun a b => a.offset ≤ b.offset) ⟨page, v⟩ } := by
    rw [hg, appendNewBlock, show (f.newBlock v).find page = none from hnone]
    rfl
  have hmem : ∀ b, b ∈ g.blocks ↔ b = ⟨page, v⟩ ∨ b ∈ f.blocks := fun b => by rw [heq]; exact List.mem_orderedInsert ..
  have hoff : ∀ b ∈ f.blocks, b.offset ≠ page := fun b hb h => by
    rw [hu.find_iff.mpr ⟨hb, h⟩] at hnone
    cases hnone
  have hu' : g.Uniq := by
    intro a ha b hb hab
    rcases (hmem a).mp ha with rfl | ha <;> rcases (hmem b).mp hb with rfl | hb
    · rfl
    · exact absurd hab (not_or.mpr ⟨(hoff b hb).symm, (hv b hb).symm⟩)
    · exact absurd hab (not_or.mpr ⟨hoff a ha, hv a ha⟩)
    · exact hu a ha b hb hab
  refine ⟨hu', hu'.find_iff.mpr ⟨(hmem _).mpr (.inl rfl), rfl⟩, by rw [heq]; rfl, fun b hb => ?_, fun x => ?_⟩
  · exact ((hmem b).mp hb).imp (fun h => by rw [h]) id
  · have hread : ∀ w, w ≠ v → g.mem w = f.mem w := fun w hw => by rw [heq]; exact funext fun i => if_neg hw
    have hzero : g.mem v (x % blockSize) = 0 := by rw [heq]; exact if_pos rfl
    unfold byte
    cases hf : f.find (pageOf x) with
    | some c =>
      obtain ⟨hc, ho⟩ := hu.find_iff.mp hf
      rw [hu'.find_iff.mpr ⟨(hmem c).mpr (.inr hc), ho⟩]
      dsimp only
      rw [hread _ (hv c hc)]
    | none =>
      cases hg' : g.find (pageOf x) with
      | none => rfl
      | some c =>
        obtain ⟨hc, ho⟩ := hu'.find_iff.mp hg'
        rcases (hmem c).mp hc with rfl | hc
        · exact hzero
        · rw [hu.find_iff.mpr ⟨hc, ho⟩] at hf
          cases hf

/-- `n` bytes of `buf` are written at `pos`, and the others stay. -/
structure Wrote (f g : FileData) (buf : List UInt8) (pos n : Nat) : Prop where
  le : n ≤ buf.length
  uniq : g.Uniq
  fsize : g.fsize = max f.fsize (pos + n)
  byte : ∀ x < 2 ^ Machine.nbits, g.byte x = if pos ≤ x ∧ x < pos + n then buf.getD (x - pos) 0 else f.byte x

theorem Wrote.trans {h : FileData} {t n : Nat} (h₁ : Wrote f g (buf.take t) pos t) (h₂ : Wrote g h (buf.drop t) (pos + t) n) :
    Wrote f h buf pos (t + n) := by
  have hle := h₁.le
  have hle' := h₂.le
  rw [List.length_take] at hle
  rw [List.length_drop] at hle'
  refine ⟨by omega, h₂.uniq, by rw [h₂.fsize, h₁.fsize]; omega, fun x hx => ?_⟩
  rw [h₂.byte x hx, h₁.byte x hx]
  simp only [List.getD_eq_getElem?_getD, List.getElem?_drop, List.getElem?_take]
  split_ifs with h₃ h₄ h₅ <;> first | omega | rfl | skip
  · rw [show t + (x - (pos + t)) = x - pos by omega]

theorem Wrote.zero (hu : f.Uniq) (hpos : pos ≤ f.fsize) : Wrote f f buf pos 0 :=
  ⟨Nat.zero_le _, hu, by simpa using hpos, fun x _ => by rw [if_neg (by omega)]⟩

/-- The loop writes all bytes, or those before the page that it cannot allocate. -/
theorem Uniq.writeLoop : ∀ (fuel : Nat) {f : FileData} {buf : List UInt8} {pos : Nat} {allocs : List (Option Nat)}
    {r : FileData × List UInt8 × Nat}, f.Uniq → f.Fresh allocs → pos ≤ f.fsize → pos + buf.length ≤ 2 ^ Machine.nbits →
    buf.length ≤ fuel → FileData.writeLoop fuel f buf pos allocs = some r → ∃ n, r.2.2 = pos + n ∧ Wrote f r.1 buf pos n ∧
      (none ∉ allocs → buf.length ≤ blockSize * allocs.length → n = buf.length)
  | 0, f, buf, pos, _, r, hu, _, hpos, _, hfuel, hrun => by
    obtain rfl := Option.some.inj hrun
    exact ⟨0, rfl, .zero hu hpos, fun _ _ => (Nat.le_zero.mp hfuel).symm⟩
  | fuel + 1, f, buf, pos, allocs, r, hu, hfresh, hpos, hend, hfuel, hrun => by
    rw [FileData.writeLoop] at hrun
    by_cases hnil : buf = []
    · rw [if_pos hnil] at hrun
      obtain rfl := Option.some.inj hrun
      exact ⟨0, rfl, .zero hu hpos, fun _ _ => by rw [hnil]; rfl⟩
    rw [if_neg hnil] at hrun
    obtain ⟨t, ht⟩ : ∃ t, t = min (blockSize - pos % blockSize) buf.length := ⟨_, rfl⟩
    dsimp only at hrun
    rw [← ht] at hrun
    have hmod := Nat.mod_lt pos (show 0 < blockSize by decide)
    have hlen := List.length_pos_iff.mpr hnil
    have htake : (buf.take t).length = t := List.length_take_of_le (by omega)
    have hdrop : (buf.drop t).length = buf.length - t := List.length_drop
    -- one turn, and the others by induction
    have hturn : ∀ {g : FileData} {b : Block} {as : List (Option Nat)}, g.Uniq → g.find (pageOf pos) = some b →
        g.fsize = f.fsize → (∀ x, g.byte x = f.byte x) → g.Fresh as → (none ∉ allocs → none ∉ as) →
        (buf.length ≤ blockSize * allocs.length → buf.length - t ≤ blockSize * as.length) →
        FileData.writeLoop fuel (g.writeBlock b pos (buf.take t)) (buf.drop t) (pos + t) as = some r →
        ∃ n, r.2.2 = pos + n ∧ Wrote f r.1 buf pos n ∧
          (none ∉ allocs → buf.length ≤ blockSize * allocs.length → n = buf.length) := by
      intro g b as hg hb hsize hbyte hfr hnone hroom hrun
      have h₁ : Wrote f (g.writeBlock b pos (buf.take t)) (buf.take t) pos t := by
        refine ⟨by omega, hg, ?_, fun x hx => ?_⟩
        · show max g.fsize _ = _
          rw [hsize, htake]
        · rw [hg.byte_writeBlock hb (by omega) (by omega) hx, htake, hbyte]
      obtain ⟨n, hn, h₂, hall⟩ := Uniq.writeLoop fuel h₁.uniq hfr (by rw [h₁.fsize]; omega) (by omega) (by omega) hrun
      refine ⟨t + n, by rw [hn, Nat.add_assoc], h₁.trans h₂, fun h₃ h₄ => ?_⟩
      have := hall (hnone h₃) (hdrop ▸ hroom h₄)
      omega
    split at hrun
    · next b hb => exact hturn hu hb rfl (fun _ => rfl) hfresh id (fun h => by omega) hrun
    · next hb =>
      split_ifs at hrun with hoff
      split at hrun
      · next v allocs =>
        obtain ⟨hnd, hfr⟩ := hfresh
        simp only [List.filterMap_cons, id] at hnd hfr
        obtain ⟨hnew, hnd⟩ := List.nodup_cons.mp hnd
        obtain ⟨hg, hfind, hsize, hmem, hbyte⟩ := hu.append hb (hfr v List.mem_cons_self) rfl
        refine hturn hg hfind hsize hbyte ⟨hnd, fun w hw c hc => ?_⟩ (fun h h' => h (List.mem_cons_of_mem _ h'))
          (fun h => ?_) hrun
        · rcases hmem c hc with hc | hc
          · exact fun h => hnew (by rwa [← hc, h])
          · exact hfr w (List.mem_cons_of_mem _ hw) c hc
        · rw [List.length_cons, Nat.mul_succ] at h
          omega
      · next hne =>
        obtain rfl := Option.some.inj hrun
        refine ⟨0, rfl, .zero hu hpos, fun h₁ h₂ => ?_⟩
        cases allocs with
        | nil => exact absurd h₂ (by simpa using hnil)
        | cons a as => cases a with
          | none => exact absurd List.mem_cons_self h₁
          | some v => exact absurd rfl (hne v as)

@[simp] theorem length_content (f : FileData) : f.content.length = f.fsize := by simp [content]

theorem Wrote.content {n : Nat} (h : Wrote f g buf pos n) (hpos : pos ≤ f.fsize) (hsize : f.fsize ≤ 2 ^ Machine.nbits)
    (hend : pos + n ≤ 2 ^ Machine.nbits) :
    g.content = splice f.content (buf.take n) pos := by
  have hle := h.le
  rw [splice, List.length_take_of_le hle]
  refine List.ext_getElem ?_ fun x hx _ => ?_
  · simp [h.fsize]
    omega
  · have hx' : x < max f.fsize (pos + n) := by simpa [h.fsize] using hx
    simp only [FileData.content, List.getElem_append, List.getElem_map, List.getElem_range, h.byte x (by omega),
      List.length_append, List.length_take, List.length_map, List.length_range, List.getElem_take, List.getElem_drop,
      Nat.min_eq_left hpos, Nat.min_eq_left hle]
    by_cases h₁ : x < pos
    · simp [h₁, show x < pos + n by omega, show ¬pos ≤ x by omega]
    · by_cases h₂ : x < pos + n
      · simp [h₁, h₂, show pos ≤ x by omega, show x - pos < buf.length by omega]
      · simp [h₂]
        congr
        omega

omit [Machine] in
theorem truncate_eq (f : FileData) (len : Nat) (hlen : len ≤ f.fsize) : ∃ bs, (∀ b ∈ bs, b ∈ f.blocks) ∧
    f.inodeTruncateSafe len = { f with fsize := len, blocks := bs } := by
  unfold inodeTruncateSafe
  split_ifs
  · exact ⟨_, fun b hb => List.mem_reverse.mp ((List.dropWhile_sublist _).mem (List.mem_reverse.mp hb)), rfl⟩
  · omega
  · exact ⟨f.blocks, fun _ => id, by rw [show len = f.fsize by omega]⟩

theorem Uniq.truncate {len : Nat} (hu : f.Uniq) (hd : f.Dense) (hlen : len ≤ f.fsize) :
    (f.inodeTruncateSafe len).Uniq ∧ (f.inodeTruncateSafe len).fsize = len ∧
      (f.inodeTruncateSafe len).content = f.content.take len := by
  have hd' := hd.truncate hlen
  obtain ⟨bs, hsub, heq⟩ := f.truncate_eq len hlen
  rw [heq] at hd' ⊢
  refine ⟨fun a ha b hb => hu a (hsub a ha) b (hsub b hb), rfl, ?_⟩
  rw [content, content, ← List.map_take, List.take_range, Nat.min_eq_left hlen]
  refine List.map_congr_left fun x hx => ?_
  -- the block of a byte that is left is one of the old blocks
  obtain ⟨b, hb⟩ := Option.isSome_iff_exists.mp (hd' x (List.mem_range.mp hx))
  have hmem := hsub b (List.mem_of_find?_eq_some hb)
  rw [byte, hb, byte, hu.find_iff.mpr ⟨hmem, by simpa using List.find?_some hb⟩]

end FileData

namespace OpenFile

variable [Machine] {s : OpenFile} {i : Nat} {append : Bool} {buf : List UInt8} {allocs : List (Option Nat)}

def writePos (s : OpenFile) (i : Nat) (append : Bool) : Nat := if append then s.file.fsize else s.fpos i

/-- The call is allowed; a write gets pages that are not in use, and ends within the range of a machine word. -/
def Paged (s : OpenFile) (c : FileCall) : Prop := s.Allowed c ∧ ∀ i append buf allocs, c = .write i append buf allocs →
  s.file.Fresh allocs ∧ s.writePos i append + buf.length ≤ 2 ^ Machine.nbits

/-- What holds of a file in all runs of such calls. -/
structure Holds (s : OpenFile) : Prop where
  dense : s.file.Dense
  uniq : s.file.Uniq
  fsize : s.file.fsize ≤ 2 ^ Machine.nbits

/-- A write puts the first `n` bytes of `buf` in the file, and all of them if it gets enough pages. -/
def Writes (s : OpenFile) (i : Nat) (append : Bool) (buf : List UInt8) (allocs : List (Option Nat)) (s' : OpenFile) : Prop :=
  ∃ n ≤ buf.length, (none ∉ allocs → buf.length ≤ blockSize * allocs.length → n = buf.length) ∧
    s'.fpos = Function.update s.fpos i (s.writePos i append + n) ∧
    s'.file.content = FileData.splice s.file.content (buf.take n) (s.writePos i append)

theorem Holds.write (h : s.Holds) (hp : s.Paged (.write i append buf allocs)) :
    ∃ s', s.exec (.write i append buf allocs) = some s' ∧ s'.Holds ∧ s.Writes i append buf allocs s' := by
  obtain ⟨hfresh, hend⟩ := hp.2 i append buf allocs rfl
  have hpos : s.writePos i append ≤ s.file.fsize := by
    unfold writePos
    split_ifs with happ
    · exact Nat.le_refl _
    · exact hp.1.resolve_left happ
  obtain ⟨r, hr, hd⟩ := FileData.Dense.writeLoop buf.length buf allocs h.dense hpos
  obtain ⟨n, hn, hw, hall⟩ := h.uniq.writeLoop buf.length hfresh hpos hend (Nat.le_refl _) hr
  have hle := hw.le
  have hsize := h.fsize
  refine ⟨⟨r.1, Function.update s.fpos i r.2.2⟩, ?_, ⟨hd, hw.uniq, ?_⟩, n, hle, hall, by rw [hn],
    hw.content hpos hsize (by omega)⟩
  · rw [exec, FileData.writeNolock, show FileData.writeLoop _ _ _ (if append then _ else _) _ = _ from hr]
    rfl
  · rw [hw.fsize]
    omega

def New (s : OpenFile) : Prop := s.file.fsize = 0 ∧ s.file.blocks = []

theorem holds_reached (h : Reached New exec Paged s) : s.Holds := by
  refine h.invariant (I := Holds) (fun s h₀ => ⟨fun x hx => ?_, fun a ha => ?_, ?_⟩) fun s c s' h hp he => ?_
  · rw [h₀.1] at hx
    cases hx
  · rw [h₀.2] at ha
    cases ha
  · rw [h₀.1]
    exact Nat.zero_le _
  · cases c with
    | seek | read =>
      cases he
      exact ⟨h.dense, h.uniq, h.fsize⟩
    | truncate len =>
      cases he
      have hlen : len ≤ s.file.fsize := hp.1
      obtain ⟨hu, hsize, -⟩ := h.uniq.truncate h.dense hlen
      exact ⟨h.dense.truncate hlen, hu, hsize.trans_le (hlen.trans h.fsize)⟩
    | write i append buf allocs =>
      obtain ⟨s'', he', hs, -⟩ := h.write hp
      exact Option.some.inj (he'.symm.trans he) ▸ hs

/-- **A file is a list of bytes.** In all runs of such calls on a new file, a read returns a part of the list, a write puts the
bytes that it has pages for in the place of those at its position, or at the end, and a truncation takes off the end. -/
theorem file_is_list (h : Reached New exec Paged s) :
    (∀ len pos, s.file.readNolock len pos =
      ((s.file.content.drop pos).take len, pos + min len (s.file.content.length - pos))) ∧
    (∀ i append buf allocs, s.Paged (.write i append buf allocs) →
      ∃ s', s.exec (.write i append buf allocs) = some s' ∧ s.Writes i append buf allocs s') ∧
    ∀ len ≤ s.file.content.length, (s.file.inodeTruncateSafe len).content = s.file.content.take len := by
  have hs := holds_reached h
  refine ⟨fun len pos => ?_, fun i append buf allocs hp => ?_, fun len hlen => ?_⟩
  · rw [FileData.readNolock_eq, FileData.length_content]
    refine congrArg (·, _) (List.ext_getElem (by simp) fun x _ _ => ?_)
    simp [FileData.content]
  · obtain ⟨s', he, -, hw⟩ := hs.write hp
    exact ⟨s', he, hw⟩
  · exact (hs.uniq.truncate hs.dense (by simpa using hlen)).2.2

end OpenFile

open OpenFile

/-- Three bytes in a new file; the second one is overwritten, and the file is cut behind it. -/
theorem file_is_list_sample : ∃ s₁ s₂ s₃ : OpenFile,
    @OpenFile.exec machine32 sample (.write 0 false [1, 2, 3] [some 7]) = some s₁ ∧
      @FileData.content machine32 s₁.file = [1, 2, 3] ∧
    @OpenFile.exec machine32 s₁ (.seek 0 1 .seekSet) = some s₂ ∧
    @OpenFile.exec machine32 s₂ (.write 0 false [9] [some 8]) = some s₃ ∧
      @FileData.content machine32 s₃.file = [1, 9, 3] ∧
      @FileData.content machine32 (s₃.file.inodeTruncateSafe 2) = [1, 9] := by
  let _ := machine32
  have h₀ : Reached New exec Paged sample := .start ⟨rfl, rfl⟩
  have hp₁ : sample.Paged (.write 0 false [1, 2, 3] [some 7]) := by
    refine ⟨.inr (Nat.le_refl _), fun i append buf allocs h => ?_⟩
    cases h
    exact ⟨⟨by decide, by simp [sample]⟩, by decide⟩
  obtain ⟨s₁, he₁, n, -, hn, -, hc₁⟩ := (file_is_list h₀).2.1 0 false [1, 2, 3] [some 7] hp₁
  rw [hn (by decide) (by decide)] at hc₁
  have hblocks : s₁.file.blocks = [⟨0, 7⟩] := by
    cases he₁
    rfl
  have h₂ : Reached New exec Paged (s₁.seek 0 1 .seekSet) :=
    (h₀.step hp₁ he₁).step (l := .seek 0 1 .seekSet) ⟨trivial, by simp⟩ rfl
  have hpos : (s₁.seek 0 1 .seekSet).fpos 0 = 1 := by simp [seek]
  have hsize : s₁.file.fsize = 3 := by
    rw [← FileData.length_content, hc₁]
    rfl
  have hp₂ : (s₁.seek 0 1 .seekSet).Paged (.write 0 false [9] [some 8]) := by
    refine ⟨.inr ?_, fun i append buf allocs h => ?_⟩
    · rw [hpos]
      exact hsize ▸ by decide
    · cases h
      refine ⟨⟨by decide, fun v hv b hb => ?_⟩, ?_⟩
      · rw [seek, hblocks] at hb
        simp_all
      · rw [writePos, if_neg (by decide), hpos]
        decide
  obtain ⟨s₃, he₃, m, -, hm, -, hc₃⟩ := (file_is_list h₂).2.1 0 false [9] [some 8] hp₂
  rw [hm (by decide) (by decide), writePos, if_neg (by decide), hpos] at hc₃
  have hc₃ : s₃.file.content = [1, 9, 3] := by
    rw [hc₃, seek, hc₁]
    rfl
  refine ⟨s₁, _, s₃, he₁, hc₁, rfl, he₃, hc₃, ?_⟩
  have h₃ := h₂.step hp₂ he₃
  rw [(file_is_list h₃).2.2 2 (by rw [hc₃]; decide), hc₃]
  rfl

end Usax.Fs
