import Usax.Fs.RamfsDir

/-!
# Listing a directory by several calls

What a caller of `vfs_getdents64` gets who calls it again and again on one handle, with buffers of any sizes. `Delivers` says
what the answers should be: the entries in order, each one once, with their whole names; 0 when all were returned; and an error
for a buffer that is too small for the next entry. `Answers` says what the callback of `vfs_getdents64` makes of a directory:
each answer has the entries from the position on that fit. The answers deliver the entries if their names are not too long
(`Answers.toDelivers`). The calls on a handle of ramfs give such answers (`RamfsDir.answers`).
-/

namespace Usax.Fs

open Common Lib

/-! ## Answers -/

structure DirEntry where
  ino : Nat
  type : VfsType
  name : List Char
deriving DecidableEq, Repr

/-- A call and its answer: the size of the buffer, what was returned, and the entries in the buffer. -/
structure Answer where
  bufSize : Nat
  rc : Int
  ents : List LinuxDirent64
deriving DecidableEq, Repr

def DirEntry.dent (d : DirEntry) : VfsDent64 := ⟨d.ino, d.type, d.name.length + 1, d.name⟩

variable [Machine]

def DirEntry.size (d : DirEntry) : Nat := sizeofDirent + (d.name.length + 1)

def DirEntry.userEnt (off : Nat) (d : DirEntry) : LinuxDirent64 :=
  ⟨d.ino, off + 1, d.size, d.type.toLinuxDirentType, d.name ++ [Char.ofNat 0]⟩

def returnedEnts (t : List Answer) : List LinuxDirent64 := t.flatMap Answer.ents

/-- The answers deliver the entries of a directory: all that was returned until after an answer are its first entries, in
order; 0 is the answer only if all were returned before; and if there is a next entry, the answer is an error if the buffer is
too small for it, and has at least this entry otherwise. -/
def Delivers (l : List DirEntry) (t : List Answer) : Prop :=
  ∀ t₁ a t₂, t = t₁ ++ a :: t₂ →
    returnedEnts (t₁ ++ [a]) <+: l.mapIdx DirEntry.userEnt ∧
    (a.rc = 0 → returnedEnts t₁ = l.mapIdx DirEntry.userEnt) ∧
    ∀ d, l[(returnedEnts t₁).length]? = some d →
      (a.bufSize < d.size → a.rc = -(Errno.einval.code : Int) ∧ a.ents = []) ∧
      (d.size ≤ a.bufSize → 0 < a.rc ∧ a.ents ≠ [])

/-- The entries from a position on that fit in a buffer, and the others. -/
def fits (l : List DirEntry) (p bufSize : Nat) : List VfsDent64 × List VfsDent64 :=
  fill bufSize 0 ((l.drop p).map DirEntry.dent)

def Answers (l : List DirEntry) : (p : Nat) → List Answer → Prop
  | _, [] => True
  | p, a :: t => a.rc = listRc (fits l p a.bufSize) ∧ a.ents = userEnts p (fits l p a.bufSize).1 ∧
      Answers l (p + (fits l p a.bufSize).1.length) t

variable {l : List DirEntry} {p q bufSize : Nat} {a : Answer} {t t₁ t₂ : List Answer} {d : DirEntry}

theorem entrySize_dent (h : d.name.length < 255) : entrySize d.dent = d.size :=
  entrySize_eq (by show d.name.length + 1 < 256; omega)

theorem userEnt_dent (off : Nat) (h : d.name.length < 255) : userEnt off d.dent = d.userEnt off := by
  have hname : (d.name ++ [Char.ofNat 0]).take (d.name.length + 1) = d.name ++ [Char.ofNat 0] :=
    List.take_of_length_le (by simp)
  unfold userEnt DirEntry.userEnt
  rw [entrySize_dent h]
  simp only [DirEntry.dent, hname]

theorem userEnts_eq (h : ∀ d ∈ l, d.name.length < 255) (p : Nat) :
    userEnts p (l.map DirEntry.dent) = l.mapIdx fun i d => d.userEnt (p + i) := by
  induction l generalizing p with
  | nil => rfl
  | cons d l ih =>
    obtain ⟨hd, h⟩ := List.forall_mem_cons.mp h
    rw [List.map_cons, userEnts, userEnt_dent p hd, ih h, List.mapIdx_cons]
    simp only [Nat.add_zero, Nat.add_assoc, Nat.add_comm 1]

theorem fits_append (l : List DirEntry) (p bufSize : Nat) :
    (fits l p bufSize).1 ++ (fits l p bufSize).2 = (l.drop p).map DirEntry.dent := fill_append 0 _

theorem length_fits_le (hp : p ≤ l.length) (bufSize : Nat) : p + (fits l p bufSize).1.length ≤ l.length := by
  have := congrArg List.length (fits_append l p bufSize)
  rw [List.length_append, List.length_map, List.length_drop] at this
  omega

theorem userEnts_fits (h : ∀ d ∈ l, d.name.length < 255) (p bufSize : Nat) :
    userEnts p (fits l p bufSize).1 = ((l.mapIdx DirEntry.userEnt).drop p).take (fits l p bufSize).1.length := by
  have hfits : (fits l p bufSize).1 = ((l.drop p).take (fits l p bufSize).1.length).map DirEntry.dent := by
    rw [List.map_take]
    exact List.prefix_iff_eq_take.mp ⟨_, fits_append l p bufSize⟩
  generalize (fits l p bufSize).1.length = k at hfits
  rw [hfits, userEnts_eq fun d hd => h d (List.mem_of_mem_drop (List.mem_of_mem_take hd))]
  refine List.ext_getElem? fun i => ?_
  simp only [List.getElem?_mapIdx, List.getElem?_take, List.getElem?_drop]
  split_ifs <;> rfl

theorem Answers.split (h : Answers l p (t₁ ++ t₂)) (hn : ∀ d ∈ l, d.name.length < 255) (hp : p ≤ l.length) :
    ∃ q, p ≤ q ∧ q ≤ l.length ∧ returnedEnts t₁ = ((l.mapIdx DirEntry.userEnt).drop p).take (q - p) ∧ Answers l q t₂ := by
  induction t₁ generalizing p with
  | nil => exact ⟨p, Nat.le_refl p, hp, by simp [returnedEnts], h⟩
  | cons a t₁ ih =>
    obtain ⟨-, hents, h⟩ := h
    obtain ⟨q, hpq, hq, hret, h⟩ := ih h (length_fits_le hp _)
    refine ⟨q, by omega, hq, ?_, h⟩
    have hcons : returnedEnts (a :: t₁) = a.ents ++ returnedEnts t₁ := List.flatMap_cons
    rw [hcons, hents, userEnts_fits hn, hret, ← List.drop_drop, ← List.take_add]
    congr 1
    omega

theorem nameLen_fits (hn : ∀ d ∈ l, d.name.length < 255) : ∀ vde ∈ (fits l p bufSize).1, vde.nameLen < 256 := by
  intro vde hv
  have hmem : vde ∈ (l.drop p).map DirEntry.dent := fits_append l p bufSize ▸ List.mem_append_left _ hv
  obtain ⟨d, hd, rfl⟩ := List.mem_map.mp hmem
  have := hn d (List.mem_of_mem_drop hd)
  exact Nat.succ_lt_succ this

theorem drop_eq_nil_of_listRc (hn : ∀ d ∈ l, d.name.length < 255) (h : listRc (fits l p bufSize) = 0) : l.drop p = [] := by
  unfold listRc at h
  split_ifs at h with hsmall
  · exact absurd h (by decide)
  · have hnil : (fits l p bufSize).1 = [] := (totalSize_eq_zero (nameLen_fits hn)).mp (by exact_mod_cast h)
    have happ := fits_append l p bufSize
    rw [hnil, not_not.mp (not_and.mp hsmall hnil)] at happ
    exact List.map_eq_nil_iff.mp happ.symm

theorem fits_of_lt (hd : l[p]? = some d) (hn : d.name.length < 255) (hlt : bufSize < d.size) :
    (fits l p bufSize).1 = [] ∧ (fits l p bufSize).2 ≠ [] := by
  obtain ⟨hp, rfl⟩ := List.getElem?_eq_some_iff.mp hd
  unfold fits
  rw [List.drop_eq_getElem_cons hp, List.map_cons, fill, if_pos (by rw [entrySize_dent hn]; omega)]
  exact ⟨rfl, by simp⟩

theorem fits_of_le (hd : l[p]? = some d) (hn : d.name.length < 255) (hle : d.size ≤ bufSize) : (fits l p bufSize).1 ≠ [] := by
  obtain ⟨hp, rfl⟩ := List.getElem?_eq_some_iff.mp hd
  unfold fits
  rw [List.drop_eq_getElem_cons hp, List.map_cons, fill, if_neg (by rw [entrySize_dent hn]; omega)]
  simp

theorem Answers.toDelivers (h : Answers l 0 t) (hn : ∀ d ∈ l, d.name.length < 255) : Delivers l t := by
  rintro t₁ a t₂ rfl
  obtain ⟨q, -, hq, hret, hrc, hents, -⟩ := h.split hn (Nat.zero_le _)
  rw [List.drop_zero, Nat.sub_zero] at hret
  have hlen : (returnedEnts t₁).length = q := by rw [hret, List.length_take, List.length_mapIdx, Nat.min_eq_left hq]
  refine ⟨?_, fun h0 => ?_, fun d hd => ?_⟩
  · have hcat : returnedEnts (t₁ ++ [a]) = returnedEnts t₁ ++ a.ents := by simp [returnedEnts]
    rw [hcat, hret, hents, userEnts_fits hn, ← List.take_add]
    exact List.take_prefix ..
  · have hnil := List.drop_eq_nil_iff.mp (drop_eq_nil_of_listRc hn (hrc.symm.trans h0))
    rw [hret]
    exact List.take_of_length_le (by simpa using hnil)
  · rw [hlen] at hd
    have hdn := hn d (List.mem_of_getElem? hd)
    refine ⟨fun hlt => ?_, fun hle => ?_⟩
    · have hf := fits_of_lt hd hdn hlt
      rw [hrc, hents, hf.1]
      exact ⟨if_pos hf, rfl⟩
    · have hf := fits_of_le hd hdn hle
      have hpos : totalSize (fits l q a.bufSize).1 ≠ 0 := fun h0 => hf ((totalSize_eq_zero (nameLen_fits hn)).mp h0)
      rw [hrc, hents]
      refine ⟨?_, fun h0 => hf ?_⟩
      · unfold listRc
        rw [if_neg fun h => hf h.1]
        exact_mod_cast Nat.pos_of_ne_zero hpos
      · cases hf' : (fits l q a.bufSize).1 with
        | nil => rfl
        | cons v l' =>
          rw [hf'] at h0
          cases h0

/-! ## Calls on a handle of ramfs -/

def RamfsEntry.dirEntry (e : RamfsEntry) : DirEntry := ⟨e.ino, e.type, e.name⟩

/-- Calls of `vfs_getdents64` on the handle at `i`, with buffers of these sizes and of which this much is accessible. -/
def RamfsDir.calls (i : Nat) : RamfsDir → List (Nat × Nat) → List Answer
  | _, [] => []
  | s, (bufSize, accessible) :: bs =>
    (s.ready i).elim [] fun x =>
      let r := s.getdents i x bufSize accessible
      ⟨bufSize, r.rc, r.copied⟩ :: RamfsDir.calls i r.dir bs

namespace RamfsDir

variable {s : RamfsDir} {i : Nat} {x : DirHandle} {bs : List (Nat × Nat)}

theorem dent_dirEntry {e : RamfsEntry} (h : e.name.length + 1 ≤ ramfsEntryMaxLen) : e.dent = e.dirEntry.dent := by
  have := ramfsEntryMaxLen_lt
  unfold RamfsEntry.dent DirEntry.dent RamfsEntry.dirEntry
  rw [Nat.mod_eq_of_lt (by omega)]

theorem answers (hm : s.mode &&& 0o400 = 0o400) (hnd : (s.entries.map RamfsEntry.addr).Nodup)
    (hlen : ∀ e ∈ s.entries, e.name.length + 1 ≤ ramfsEntryMaxLen) (hx : s.ready i = some x)
    (hd : x.dpos = (s.entries.drop x.dirPos).head?.map RamfsEntry.addr) (hbs : ∀ b ∈ bs, b.1 ≤ b.2 ∧ b.1 < 2 ^ 31) :
    Answers (s.entries.map RamfsEntry.dirEntry) x.dirPos (s.calls i bs) := by
  induction bs generalizing s x with
  | nil => trivial
  | cons b bs ih =>
    obtain ⟨bufSize, accessible⟩ := b
    obtain ⟨hb, hbs⟩ := List.forall_mem_cons.mp hbs
    obtain ⟨hx', hc, hk⟩ := ready_iff.mp hx
    have hv : s.atEntry x.dpos = true :=
      atEntry_iff.mpr (hd ▸ Cursor.valid_head fun e he => List.mem_of_mem_drop he)
    have hpend : s.pending x.dpos = s.entries.drop x.dirPos := by
      have hrest := @Cursor.rest_suffix _ _ _ RamfsEntry.addr (s.entries.take x.dirPos) (s.entries.drop x.dirPos)
      rw [List.take_append_drop, ← hd] at hrest
      exact hrest hnd
    have hfits : fill bufSize 0 ((s.entries.drop x.dirPos).map RamfsEntry.dent) =
        fits (s.entries.map RamfsEntry.dirEntry) x.dirPos bufSize := by
      unfold fits
      rw [← List.map_drop, List.map_map]
      exact congrArg _ (List.map_congr_left fun e he => dent_dirEntry (hlen e (List.mem_of_mem_drop he)))
    have hlt := (List.getElem?_eq_some_iff.mp hx').1
    have hr := getdents_fill (i := i) hb hv hm hpend hfits
    simp only [calls, hx, Option.elim_some, hr, Answers]
    generalize (fits (s.entries.map RamfsEntry.dirEntry) x.dirPos bufSize).1.length = k
    have hready : ∀ p, (s.setHandle i { x with dpos := p, dirPos := x.dirPos + k }).ready i =
        some { x with dpos := p, dirPos := x.dirPos + k } := fun p =>
      ready_iff.mpr ⟨List.getElem?_set_self hlt, hc, hk⟩
    refine ⟨trivial, trivial, ?_⟩
    refine ih (s := s.setHandle i _) hm hnd hlen (hready _) ?_ hbs
    show _ = ((s.entries.drop (x.dirPos + k)).head?).map RamfsEntry.addr
    rw [← List.drop_drop]

end RamfsDir

end Usax.Fs
