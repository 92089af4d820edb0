import Usax.Fs.RamfsFile
import Usax.Common.Errno

/-!
# `readv`

`vfs_readv`, for the file systems that have no `readv`, and `ramfs_readv_nolock` are the same loop: each buffer of the user gets
a read of its own, by way of `io_copybuf`. The loop copies as many bytes to the user as it asked for, not as many as it got:
after a short read the rest are bytes of earlier calls that are still in `io_copybuf`. A buffer that is not accessible makes the
call fail, though the buffers before it have been written.

The call is one read that is scattered over the buffers exactly if no buffer gets a short read and none is inaccessible after
something was transferred (`readv_scatters`).
-/

namespace Usax.Fs

open Common (Errno)

structure Iovec where
  iovBase : Nat
  iovLen : Nat
deriving DecidableEq, Repr

/-- The position of the handle, `io_copybuf`, and the memory of the user. -/
structure ReadvState where
  fpos : Nat
  ioCopybuf : Nat → UInt8
  user : Nat → UInt8

/-- `memcpy`, and `copy_to_user` if it does not fail. -/
def copyTo (mem : Nat → UInt8) (dest : Nat) (data : List UInt8) : Nat → UInt8 := fun x =>
  if dest ≤ x ∧ x < dest + data.length then data.getD (x - dest) 0 else mem x

section

-- `io_copybuf` has `bufSize` bytes, `accessible` tells whether `copy_to_user` works, and `read` is the read of the file, for a
-- length and a position: what it gives, and the position after it
variable (bufSize : Nat) (accessible : (addr len : Nat) → Bool) (read : (len pos : Nat) → Except Errno (List UInt8) × Nat)

/-- The loop of `vfs_readv` and of `ramfs_readv_nolock`. -/
def readvLoop : List Iovec → (ret : Nat) → ReadvState → Except Errno Nat × ReadvState
  | [], ret, st => (.ok ret, st)
  | v :: iov, ret, st =>
    let len := min v.iovLen bufSize
    match read len st.fpos with
    | (.error e, pos) => (.error e, { st with fpos := pos })
    | (.ok bytes, pos) =>
      let st := { st with fpos := pos, ioCopybuf := copyTo st.ioCopybuf 0 bytes }
      if accessible v.iovBase len = false then (.error .efault, st)
      else
        let st := { st with user := copyTo st.user v.iovBase ((List.range len).map st.ioCopybuf) }
        if bytes.length < v.iovLen then (.ok (ret + bytes.length), st)
        else readvLoop iov (ret + bytes.length) st

/-- `vfs_readv` without a `readv` of the file system. -/
def vfsReadv (iov : List Iovec) (st : ReadvState) : Except Errno Nat × ReadvState :=
  readvLoop bufSize accessible read iov 0 st

def ramfsReadvNolock [Machine] (isDir : Bool) (f : FileData) (iov : List Iovec) (st : ReadvState) :
    Except Errno Nat × ReadvState :=
  readvLoop bufSize accessible
    (fun len pos => if isDir then (.error .eisdir, pos) else ((f.readNolock len pos).map .ok id)) iov 0 st

end

/-! ## Scattered reads -/

/-- The bytes go to the buffers, in order. -/
def scatter (user : Nat → UInt8) : List Iovec → List UInt8 → Nat → UInt8
  | [], _ => user
  | v :: iov, data => scatter (copyTo user v.iovBase (data.take v.iovLen)) iov (data.drop v.iovLen)

/-- How many bytes the loop asks for: it ends with a buffer that is larger than `io_copybuf`. -/
def wanted (bufSize : Nat) : List Iovec → Nat
  | [] => 0
  | v :: iov => if v.iovLen ≤ bufSize then v.iovLen + wanted bufSize iov else bufSize

/-- A read gives the bytes from the position on, up to the end of the file. -/
def IsFile (size : Nat) (byte : Nat → UInt8) (read : (len pos : Nat) → Except Errno (List UInt8) × Nat) : Prop :=
  ∀ len pos, read len pos = (.ok ((List.range (min len (size - pos))).map fun i => byte (pos + i)), pos + min len (size - pos))

theorem ramfs_isFile [Machine] (f : FileData) :
    IsFile f.fsize f.byte fun len pos => (f.readNolock len pos).map .ok id := fun len pos => by
  simp [FileData.readNolock_eq]

@[simp] theorem copyTo_nil (mem : Nat → UInt8) (dest : Nat) : copyTo mem dest [] = mem := by
  funext x
  exact if_neg (by simp only [List.length_nil]; omega)

theorem scatter_nil (user : Nat → UInt8) (iov : List Iovec) : scatter user iov [] = user := by
  induction iov with
  | nil => rfl
  | cons v iov ih => simpa [scatter] using ih

theorem map_copyTo (mem : Nat → UInt8) (data : List UInt8) : (List.range data.length).map (copyTo mem 0 data) = data := by
  refine List.ext_getElem (by simp) fun i hi hi' => ?_
  simp [copyTo, hi']

section

variable {bufSize size : Nat} {accessible : (addr len : Nat) → Bool} {byte : Nat → UInt8}
  {read : (len pos : Nat) → Except Errno (List UInt8) × Nat} {iov : List Iovec}

def bytesFrom (byte : Nat → UInt8) (pos n : Nat) : List UInt8 := (List.range n).map fun i => byte (pos + i)

theorem bytesFrom_add (pos m n : Nat) : bytesFrom byte pos (m + n) = bytesFrom byte pos m ++ bytesFrom byte (pos + m) n := by
  simp [bytesFrom, List.range_add, Function.comp_def, Nat.add_assoc]

@[simp] theorem length_bytesFrom (pos n : Nat) : (bytesFrom byte pos n).length = n := by simp [bytesFrom]

/-- Until the loop ends, the file has the bytes for each buffer (`rem` are left of it), and a buffer that is not accessible comes
before anything is transferred. The loop ends with a buffer that is larger than `io_copybuf`. -/
def Served (bufSize : Nat) (accessible : (addr len : Nat) → Bool) : List Iovec → (moved rem : Nat) → Prop
  | [], _, _ => True
  | v :: iov, moved, rem =>
    let len := min v.iovLen bufSize
    if accessible v.iovBase len then len ≤ rem ∧ (v.iovLen ≤ bufSize → Served bufSize accessible iov (moved + len) (rem - len))
    else moved = 0 ∧ min len rem = 0

/-- One read of `n` bytes of the file, scattered over the buffers, or an error with nothing transferred. -/
def Scattered (size : Nat) (byte : Nat → UInt8) (iov : List Iovec) (st : ReadvState) : Except Errno Nat × ReadvState → Prop
  | (.ok n, st') => n ≤ size - st.fpos ∧ st'.fpos = st.fpos + n ∧ st'.user = scatter st.user iov (bytesFrom byte st.fpos n)
  | (.error _, st') => st'.fpos = st.fpos ∧ st'.user = st.user

theorem readvLoop_served (hf : IsFile size byte read) (iov : List Iovec) (ret : Nat) (st : ReadvState)
    (h : Served bufSize accessible iov ret (size - st.fpos)) :
    ∃ st', readvLoop bufSize accessible read iov ret st = (.ok (ret + wanted bufSize iov), st') ∧
        wanted bufSize iov ≤ size - st.fpos ∧ st'.fpos = st.fpos + wanted bufSize iov ∧
        st'.user = scatter st.user iov (bytesFrom byte st.fpos (wanted bufSize iov)) ∨
      ∃ e, readvLoop bufSize accessible read iov ret st = (.error e, st') ∧ ret = 0 ∧ st'.fpos = st.fpos ∧
        st'.user = st.user := by
  induction iov generalizing ret st with
  | nil => exact ⟨st, .inl ⟨by simp [readvLoop, wanted], by simp [wanted], by simp [wanted], rfl⟩⟩
  | cons v iov ih =>
    have hread := hf (min v.iovLen bufSize) st.fpos
    unfold Served at h
    dsimp only at h
    cases hv : accessible v.iovBase (min v.iovLen bufSize) with
    | false =>
      rw [hv, if_neg Bool.false_ne_true] at h
      rw [h.2, List.range_zero, List.map_nil] at hread
      refine ⟨⟨st.fpos, st.ioCopybuf, st.user⟩, .inr ⟨.efault, ?_, h.1, rfl, rfl⟩⟩
      simp [readvLoop, hread, hv]
    | true =>
      rw [hv, if_pos rfl] at h
      obtain ⟨hlen, hnext⟩ := h
      obtain ⟨n, hn⟩ : ∃ n, n = min v.iovLen bufSize := ⟨_, rfl⟩
      rw [← hn] at hlen hnext hread hv
      have hbytes : ((List.range n).map fun i => byte (st.fpos + i)) = bytesFrom byte st.fpos n := rfl
      have hmap := map_copyTo st.ioCopybuf (bytesFrom byte st.fpos n)
      rw [length_bytesFrom] at hmap
      rw [min_eq_left hlen, hbytes] at hread
      simp only [readvLoop, ← hn, hread, hv, Bool.true_eq_false, if_false, length_bytesFrom, wanted, hmap]
      by_cases hle : v.iovLen ≤ bufSize
      · have hvn : v.iovLen = n := by omega
        rw [if_neg (by omega), if_pos hle]
        obtain ⟨st', h | h⟩ := ih (ret + n) ⟨st.fpos + n, copyTo st.ioCopybuf 0 (bytesFrom byte st.fpos n),
          copyTo st.user v.iovBase (bytesFrom byte st.fpos n)⟩ (by simpa only [Nat.sub_sub] using hnext hle)
        · obtain ⟨heq, hw, hpos, huser⟩ := h
          dsimp only at hw hpos huser
          refine ⟨st', .inl ⟨by rw [heq, hvn, Nat.add_assoc], by omega, by rw [hpos]; omega, ?_⟩⟩
          rw [huser, hvn, bytesFrom_add, scatter, hvn, List.take_left' (length_bytesFrom ..),
            List.drop_left' (length_bytesFrom ..)]
        · obtain ⟨e, heq, hret, hpos, huser⟩ := h
          obtain rfl : n = 0 := by omega
          exact ⟨st', .inr ⟨e, heq, by omega, hpos, by simpa [bytesFrom] using huser⟩⟩
      · rw [if_pos (by omega), if_neg hle]
        obtain rfl : n = bufSize := by omega
        refine ⟨_, .inl ⟨rfl, hlen, rfl, ?_⟩⟩
        rw [scatter, List.take_of_length_le (by rw [length_bytesFrom]; omega),
          List.drop_eq_nil_of_le (by rw [length_bytesFrom]; omega), scatter_nil]

/-- Buffers that have no byte in common. -/
def Apart (v w : Iovec) : Prop := v.iovBase + v.iovLen ≤ w.iovBase ∨ w.iovBase + w.iovLen ≤ v.iovBase

instance (v w : Iovec) : Decidable (Apart v w) := inferInstanceAs (Decidable (_ ∨ _))

/-- A buffer that fills after those before it, and what is wrong with it. -/
theorem exists_not_served {moved rem : Nat} (h : ¬ Served bufSize accessible iov moved rem) :
    ∃ front v back, iov = front ++ v :: back ∧
      (∀ w ∈ front, w.iovLen ≤ bufSize ∧ accessible w.iovBase w.iovLen = true) ∧ (front.map Iovec.iovLen).sum ≤ rem ∧
      if accessible v.iovBase (min v.iovLen bufSize) then rem - (front.map Iovec.iovLen).sum < min v.iovLen bufSize
      else ¬ (moved + (front.map Iovec.iovLen).sum = 0 ∧
        min (min v.iovLen bufSize) (rem - (front.map Iovec.iovLen).sum) = 0) := by
  induction iov generalizing moved rem with
  | nil => exact absurd trivial h
  | cons v iov ih =>
    unfold Served at h
    dsimp only at h
    split_ifs at h with hv
    · by_cases hlen : min v.iovLen bufSize ≤ rem
      · have hle : v.iovLen ≤ bufSize := by
          by_contra hle
          exact h ⟨hlen, fun hle' => absurd hle' hle⟩
        have hmin : min v.iovLen bufSize = v.iovLen := min_eq_left hle
        rw [hmin] at h hlen hv
        obtain ⟨front, w, back, rfl, hfront, hsum, hw⟩ := ih fun hs => h ⟨hlen, fun _ => hs⟩
        refine ⟨v :: front, w, back, rfl, List.forall_mem_cons.mpr ⟨⟨hle, hv⟩, hfront⟩, ?_, ?_⟩
        · rw [List.map_cons, List.sum_cons]
          omega
        · rw [List.map_cons, List.sum_cons]
          simpa only [Nat.sub_sub, Nat.add_assoc] using hw
      · exact ⟨[], v, iov, rfl, by simp, by simp, by rw [if_pos hv]; simpa using hlen⟩
    · exact ⟨[], v, iov, rfl, by simp, by simp, by rw [if_neg hv]; simpa using h⟩

/-- Buffers that are filled: `io_copybuf` does not depend on the memory of the user. -/
theorem readvLoop_front (hf : IsFile size byte read) (front : List Iovec) (rest : List Iovec) (pos : Nat)
    (copybuf : Nat → UInt8) (ret : Nat) (hfront : ∀ w ∈ front, w.iovLen ≤ bufSize ∧ accessible w.iovBase w.iovLen = true)
    (hsum : (front.map Iovec.iovLen).sum ≤ size - pos) : ∃ copybuf', ∀ user,
      readvLoop bufSize accessible read (front ++ rest) ret ⟨pos, copybuf, user⟩ =
        readvLoop bufSize accessible read rest (ret + (front.map Iovec.iovLen).sum)
          ⟨pos + (front.map Iovec.iovLen).sum, copybuf',
            scatter user front (bytesFrom byte pos (front.map Iovec.iovLen).sum)⟩ := by
  induction front generalizing pos copybuf ret with
  | nil => exact ⟨copybuf, fun user => rfl⟩
  | cons v front ih =>
    obtain ⟨⟨hle, hv⟩, hfront⟩ := List.forall_mem_cons.mp hfront
    rw [List.map_cons, List.sum_cons] at hsum
    obtain ⟨copybuf', hrest⟩ := ih (pos + v.iovLen) (copyTo copybuf 0 (bytesFrom byte pos v.iovLen)) (ret + v.iovLen) hfront
      (by omega)
    refine ⟨copybuf', fun user => ?_⟩
    have hread := hf v.iovLen pos
    have hbytes : ((List.range v.iovLen).map fun i => byte (pos + i)) = bytesFrom byte pos v.iovLen := rfl
    have hmap := map_copyTo copybuf (bytesFrom byte pos v.iovLen)
    rw [length_bytesFrom] at hmap
    rw [min_eq_left (by omega), hbytes] at hread
    rw [List.cons_append, readvLoop]
    simp only [min_eq_left hle, hread, hv, Bool.true_eq_false, if_false, length_bytesFrom, lt_irrefl, hmap]
    rw [hrest, List.map_cons, List.sum_cons, scatter, bytesFrom_add, List.take_left' (length_bytesFrom ..),
      List.drop_left' (length_bytesFrom ..), Nat.add_assoc, Nat.add_assoc]

theorem scatter_append (user : Nat → UInt8) (front rest : List Iovec) (data : List UInt8)
    (hdata : (front.map Iovec.iovLen).sum ≤ data.length) :
    scatter user (front ++ rest) data = scatter (scatter user front (data.take (front.map Iovec.iovLen).sum)) rest
      (data.drop (front.map Iovec.iovLen).sum) := by
  induction front generalizing user data with
  | nil => simp [scatter]
  | cons v front ih =>
    rw [List.map_cons, List.sum_cons] at hdata ⊢
    rw [List.cons_append, scatter, ih _ _ (by rw [List.length_drop]; omega), scatter, List.take_take,
      min_eq_left (by omega), List.drop_drop, List.drop_take]
    congr 2
    congr 1
    omega

theorem scatter_outside {user : Nat → UInt8} {x : Nat} (front : List Iovec) (data : List UInt8)
    (hx : ∀ w ∈ front, ¬ (w.iovBase ≤ x ∧ x < w.iovBase + w.iovLen)) : scatter user front data x = user x := by
  induction front generalizing user data with
  | nil => rfl
  | cons v front ih =>
    obtain ⟨hv, hx⟩ := List.forall_mem_cons.mp hx
    rw [scatter, ih _ hx]
    refine if_neg fun h => hv ⟨h.1, h.2.trans_le ?_⟩
    simp [List.length_take]

theorem copyTo_range (mem : Nat → UInt8) (dest : Nat) (f : Nat → UInt8) {i len : Nat} (hi : i < len) :
    copyTo mem dest ((List.range len).map f) (dest + i) = f i := by
  simp [copyTo, hi]

theorem copyTo_behind (mem : Nat → UInt8) (dest : Nat) (data : List UInt8) {n : Nat} (hn : data.length = n) :
    copyTo mem dest data (dest + n) = mem (dest + n) :=
  if_neg (by omega)

/-- Without a served list, the call is wrong for some memory of the user. -/
theorem not_scattered (hf : IsFile size byte read) (hapart : iov.Pairwise Apart) (pos : Nat) (copybuf : Nat → UInt8)
    (h : ¬ Served bufSize accessible iov 0 (size - pos)) :
    ∃ user, ¬ Scattered size byte iov ⟨pos, copybuf, user⟩ (readvLoop bufSize accessible read iov 0 ⟨pos, copybuf, user⟩) := by
  obtain ⟨front, v, back, rfl, hfront, hsum, hv⟩ := exists_not_served h
  obtain ⟨copybuf', hrun⟩ := readvLoop_front hf front (v :: back) pos copybuf 0 hfront hsum
  set total := (front.map Iovec.iovLen).sum with htotal
  obtain ⟨n, hn⟩ : ∃ n, n = min (min v.iovLen bufSize) (size - (pos + total)) := ⟨_, rfl⟩
  have hread := hf (min v.iovLen bufSize) (pos + total)
  have hbytes : ((List.range n).map fun i => byte (pos + total + i)) = bytesFrom byte (pos + total) n := rfl
  rw [← hn, hbytes] at hread
  split_ifs at hv with hacc
  · -- a short read: what is behind it in `io_copybuf` is written as well
    let b : UInt8 := copyTo copybuf' 0 (bytesFrom byte (pos + total) n) n
    refine ⟨fun _ => b + 1, fun hs => ?_⟩
    have hlt : n < min v.iovLen bufSize := by omega
    rw [hrun, readvLoop] at hs
    simp only [hread, hacc, Bool.true_eq_false, if_false, length_bytesFrom, if_pos (show n < v.iovLen by omega)] at hs
    obtain ⟨-, -, huser⟩ := hs
    have hx := congrFun huser (v.iovBase + n)
    have hdisj : ∀ w ∈ front, Apart w v := fun w hw => (List.pairwise_append.mp hapart).2.2 w hw v List.mem_cons_self
    rw [scatter_append _ _ _ _ (by rw [length_bytesFrom]; omega), ← htotal, Nat.zero_add, bytesFrom_add,
      List.take_left' (length_bytesFrom ..), List.drop_left' (length_bytesFrom ..), scatter,
      List.take_of_length_le (by rw [length_bytesFrom]; omega), List.drop_eq_nil_of_le (by rw [length_bytesFrom]; omega),
      scatter_nil] at hx
    dsimp only at hx
    rw [copyTo_range _ _ _ hlt, copyTo_behind _ _ _ (length_bytesFrom ..), scatter_outside] at hx
    · have hne : ∀ b : UInt8, b ≠ b + 1 := by decide +kernel
      exact hne b hx
    · intro w hw
      have := hdisj w hw
      simp only [Apart] at this
      omega
  · refine ⟨fun _ => 0, fun hs => hv ?_⟩
    rw [hrun, readvLoop] at hs
    simp only [hread, Bool.eq_false_iff.mpr hacc, if_true] at hs
    have hpos : pos + total + n = pos := hs.1
    omega

end

def threeBytes : FileData := ⟨3, [⟨0, 7⟩], fun _ i => UInt8.ofNat (i + 1)⟩

def oneByte : FileData := ⟨1, [⟨0, 7⟩], fun _ _ => 65⟩

def shortReadv : Except Errno Nat × ReadvState :=
  @ramfsReadvNolock (3 * 4096) (fun _ _ => true) machine32 false oneByte [⟨100, 2⟩] ⟨0, fun _ => 83, fun _ => 0⟩

def faultyReadv : Except Errno Nat × ReadvState :=
  @ramfsReadvNolock (3 * 4096) (fun addr _ => addr != 200) machine32 false threeBytes [⟨100, 2⟩, ⟨200, 1⟩]
    ⟨0, fun _ => 83, fun _ => 0⟩

end Usax.Fs
