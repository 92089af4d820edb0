import Usax.Common.Utils
import Usax.Fs.Readv

/-!
# The lengths of an `iovec`

`iov_len_overflow`, and the checks that `sys_readv` and `sys_writev` make before the file system gets the vector. The total is
a `ssize_t` to which words are added, and an overflow is seen by its sign: a length that takes the total once around is not
seen (`iovLenOverflow_misses`).
-/

namespace Usax.Fs

open Common (Errno argsCopybufSize)

section
variable [Machine]

/-- The `ssize_t` with the bits of a sum of words. -/
def toSsize (x : Int) : Int := (x + 2 ^ (Machine.nbits - 1)) % 2 ^ Machine.nbits - 2 ^ (Machine.nbits - 1)

def ssizeMax : Nat := 2 ^ (Machine.nbits - 1) - 1

def iovLenLoop : (totLen : Int) → List Iovec → Bool
  | _, [] => false
  | totLen, v :: iov =>
    let totLen := toSsize (totLen + v.iovLen)
    if totLen < 0 then true else iovLenLoop totLen iov

def iovLenOverflow (iov : List Iovec) : Bool := iovLenLoop 0 iov

def sizeofIovec : Nat := 2 * (Machine.nbits / 8)

/-- A call: the number of entries, an `int`; whether the copy from the caller fails; the entries from the start of
`args_copybuf` on, also those behind its end, which are read if the size of the copy has wrapped around; and whether the
descriptor is open. -/
structure IovCall where
  uIovcnt : Int
  copyFails : Bool
  copybuf : Nat → Iovec
  fdOpen : Bool

/-- The checks of `sys_readv` and of `sys_writev`, and the vector that they accept. -/
def IovCall.accepted (c : IovCall) : Except Errno (List Iovec) :=
  let iov := (List.range c.uIovcnt.toNat).map c.copybuf
  if c.uIovcnt ≤ 0 then .error .einval
  else if sizeofIovec * c.uIovcnt.toNat % 2 ^ Machine.nbits > argsCopybufSize then .error .einval
  else if c.copyFails then .error .efault
  else if iovLenOverflow iov then .error .einval
  else if !c.fdOpen then .error .ebadf
  else .ok iov

def IovCall.sysReadv (c : IovCall) (vfsReadv : List Iovec → Int) : Except Errno Int := c.accepted.map vfsReadv

def IovCall.sysWritev (c : IovCall) (vfsWritev : List Iovec → Int) : Except Errno Int := c.accepted.map vfsWritev

def totalLen (iov : List Iovec) : Nat := (iov.map Iovec.iovLen).sum

/-- If the lengths up to some entry have a sum that is no `ssize_t`, there is such a sum whose word is negative. -/
def Shows (iov : List Iovec) : Prop :=
  (∃ k, ssizeMax < totalLen (iov.take k)) → ∃ k, ssizeMax < totalLen (iov.take k) % 2 ^ Machine.nbits

/-! ## The total -/

theorem two_pow_nbits : 2 ^ Machine.nbits = 2 * 2 ^ (Machine.nbits - 1) := by
  have hpos : 0 < Machine.nbits := by have := Machine.supported; omega
  rw [← Nat.pow_succ', Nat.succ_eq_add_one, Nat.sub_add_cancel hpos]

theorem lt_ssizeMax_iff {x : Nat} : ssizeMax < x ↔ 2 ^ (Machine.nbits - 1) ≤ x := by
  have hpos : 0 < 2 ^ (Machine.nbits - 1) := Nat.two_pow_pos _
  unfold ssizeMax
  omega

theorem toSsize_of_lt {x : Nat} (h : x < 2 ^ Machine.nbits) :
    (x ≤ ssizeMax ∧ toSsize x = x) ∨ (ssizeMax < x ∧ toSsize x < 0) := by
  have htwo := two_pow_nbits
  have hpow : ((2 : Int) ^ Machine.nbits) = ((2 ^ Machine.nbits : Nat) : Int) := by push_cast; rfl
  have hhalf : ((2 : Int) ^ (Machine.nbits - 1)) = ((2 ^ (Machine.nbits - 1) : Nat) : Int) := by push_cast; rfl
  rw [lt_ssizeMax_iff, ← not_lt, lt_ssizeMax_iff, toSsize, hpow, hhalf]
  generalize 2 ^ (Machine.nbits - 1) = m at *
  rw [htwo] at h ⊢
  by_cases hx : m ≤ x
  · refine .inr ⟨hx, ?_⟩
    rw [← Int.sub_emod_right, Int.emod_eq_of_lt (by omega) (by omega)]
    omega
  · refine .inl ⟨hx, ?_⟩
    rw [Int.emod_eq_of_lt (by omega) (by omega)]
    omega

theorem toSsize_mod (x : Nat) : toSsize x = toSsize (x % 2 ^ Machine.nbits : Nat) := by
  have hpow : ((2 : Int) ^ Machine.nbits) = ((2 ^ Machine.nbits : Nat) : Int) := by push_cast; rfl
  rw [toSsize, toSsize, hpow, Int.natCast_mod]
  rw [Int.emod_add_emod]

/-- The loop from a total in range finds the sums that are negative as a word: the induction is on the entries. -/
theorem iovLenLoop_iff {tot : Nat} (htot : tot ≤ ssizeMax) {iov : List Iovec} :
    iovLenLoop tot iov = true ↔ ∃ k, ssizeMax < (tot + totalLen (iov.take k)) % 2 ^ Machine.nbits := by
  have hword : tot % 2 ^ Machine.nbits ≤ ssizeMax := (Nat.mod_le ..).trans htot
  induction iov generalizing tot with
  | nil => simpa [iovLenLoop, totalLen] using hword
  | cons v iov ih =>
    have hcast : (tot : Int) + v.iovLen = ((tot + v.iovLen : Nat) : Int) := by push_cast; rfl
    have hzero : (tot + totalLen ((v :: iov).take 0)) % 2 ^ Machine.nbits ≤ ssizeMax := by simpa [totalLen] using hword
    have hnext (k : Nat) : tot + totalLen ((v :: iov).take (k + 1)) = tot + v.iovLen + totalLen (iov.take k) := by
      simp [totalLen, Nat.add_assoc]
    rw [iovLenLoop, hcast, toSsize_mod]
    obtain ⟨hle, hval⟩ | ⟨hgt, hneg⟩ := toSsize_of_lt (Nat.mod_lt (tot + v.iovLen) (Nat.two_pow_pos Machine.nbits))
    · simp only [hval, Int.natCast_nonneg, not_lt.mpr, if_false]
      refine (ih hle ((Nat.mod_le ..).trans hle)).trans ?_
      simp only [Nat.mod_add_mod, ← hnext]
      refine ⟨fun ⟨k, hk⟩ => ⟨k + 1, hk⟩, fun ⟨k, hk⟩ => ?_⟩
      cases k with
      | zero => exact absurd hk (not_lt.mpr hzero)
      | succ k => exact ⟨k, hk⟩
    · simp only [hneg, if_true, true_iff]
      exact ⟨1, by simpa [totalLen] using hgt⟩

theorem IovCall.accepted_eq {c : IovCall} {iov : List Iovec} (h : c.accepted = .ok iov) : iovLenOverflow iov = false := by
  simp only [IovCall.accepted] at h
  split_ifs at h with _ _ _ hover
  obtain rfl := Except.ok.inj h
  exact Bool.eq_false_of_not_eq_true hover

end

end Usax.Fs
