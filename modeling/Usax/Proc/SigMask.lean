import Mathlib.Data.List.FinRange
import Mathlib.Logic.Function.Basic
import Usax.Common.Errno
import Usax.Lib.Runs

/-!
# Signal masks

The masks of `signal.c`: who may change `sa_mask`, word by word, and what a task finds in it later.

- `sys_rt_sigprocmask` takes the words of the new set from the memory of the caller one at a time and changes the mask as it
  goes; `Whole` says when that leaves nothing behind if a word cannot be read (`sysRtSigprocmask_error`);
- `sys_rt_sigsuspend` puts the mask aside, `sys_rt_sigreturn` brings it back, and `process_signals` takes the signals of
  hardware faults out of it;
- `SIGKILL` and `SIGSTOP` are in no mask of a run of such steps (`mask_kept`).
-/

namespace Usax.Proc

open Common

/-- A signal handler: `SIG_DFL`, `SIG_IGN` or a function of the process. -/
inductive Sighandler
  | dfl | ign | custom
deriving DecidableEq, Repr

inductive Arch
  | i386 | x86_64 | riscv64
deriving DecidableEq, Repr

def Arch.nbits : Arch → Nat
  | .i386 => 32
  | .x86_64 => 64
  | .riscv64 => 64

/-- `_NSIG` of `<signal.h>`. -/
def nsig : Nat := 65

abbrev Arch.maskWords (a : Arch) : Nat := nsig / a.nbits

/-- `ulong`. -/
abbrev Arch.Word (a : Arch) : Type := BitVec a.nbits

/-- A set of signals, `ulong[K_SIGACTION_MASK_WORDS]`. -/
abbrev SigSet (a : Arch) : Type := Fin a.maskWords → a.Word

def sigkill : Nat := 9

def sigstop : Nat := 19

namespace SigSet

variable {a : Arch}

/-- `1 << index`, an `int`. The processors take the count modulo the 32 bits of it. -/
def bit (index : Nat) : BitVec 32 := 1 <<< (index % 32)

def addSig (set : SigSet a) (signum : Nat) : SigSet a :=
  fun i => if i.val = (signum - 1) / a.nbits then set i ||| (bit ((signum - 1) % a.nbits)).signExtend a.nbits else set i

def delSig (set : SigSet a) (signum : Nat) : SigSet a :=
  fun i => if i.val = (signum - 1) / a.nbits then set i &&& (~~~bit ((signum - 1) % a.nbits)).signExtend a.nbits else set i

def isSigSet (set : SigSet a) (signum : Nat) : Bool :=
  if h : (signum - 1) / a.nbits < a.maskWords then
    set ⟨(signum - 1) / a.nbits, h⟩ &&& (bit ((signum - 1) % a.nbits)).signExtend a.nbits ≠ 0
  else false

end SigSet

open SigSet

/-- What `struct task` has of signals; `saHandlers` is from `struct process`. -/
structure SigTask (a : Arch) where
  saPending : SigSet a
  saFaultPending : SigSet a
  saMask : SigSet a
  saOldMask : SigSet a
  inSigsuspend : Bool
  nestedSigHandlers : Int
  saHandlers : Nat → Sighandler

namespace SigTask

variable {a : Arch}

def isSigMasked (t : SigTask a) (signum : Nat) : Bool := isSigSet t.saMask signum

def addPendingSig (t : SigTask a) (signum : Nat) (flFault : Bool) : SigTask a :=
  { t with
    saPending := addSig t.saPending signum
    saFaultPending := if flFault then addSig t.saFaultPending signum else t.saFaultPending }

def delPendingSig (t : SigTask a) (signum : Nat) : SigTask a :=
  { t with saPending := delSig t.saPending signum, saFaultPending := delSig t.saFaultPending signum }

def dropAllPendingSignals (t : SigTask a) : SigTask a := { t with saPending := fun _ => 0, saFaultPending := fun _ => 0 }

/-- `get_first_pending_sig`: of each word only the first signal is looked at. -/
def getFirstPendingSig (t : SigTask a) : Option Nat :=
  (List.finRange a.maskWords).findSome? fun i =>
    ((List.range a.nbits).find? (t.saPending i).getLsbD).bind fun idx =>
      let signum := i * a.nbits + idx + 1
      if t.isSigMasked signum then none else some signum

/-- The end of `terminate_process`, as far as signals go. -/
def terminate (t : SigTask a) : SigTask a := { t.dropAllPendingSignals with nestedSigHandlers := -1 }

/-- What `process_signals` returns: nothing was to be done, a handler is going to run, or the task is killed. -/
inductive Processed
  | no | handler | killed
deriving DecidableEq, Repr

/-- `kill_task_now_or_later`: a task that is not running is killed when it runs. -/
def killTaskNowOrLater (t : SigTask a) (current : Bool) : SigTask a × Processed :=
  (if current then t.terminate else t, .killed)

/-- `setup_sig_handler`; the registers are saved for the first handler only, if the stack can be written. -/
def setupSigHandler (t : SigTask a) (stackFault : Bool) : Option (SigTask a) :=
  if t.nestedSigHandlers = 0 ∧ stackFault then none else some { t with nestedSigHandlers := t.nestedSigHandlers + 1 }

/-- `process_signals`, with `sig_state == sig_in_return` and `ti == get_curr_task()` as flags. -/
def processSignals (t : SigTask a) (inReturn current stackFault : Bool) : SigTask a × Processed :=
  let t := { t with saMask := fun i => t.saMask i &&& ~~~t.saFaultPending i }
  if isSigSet t.saPending sigkill then t.killTaskNowOrLater current
  else if 0 < t.nestedSigHandlers ∧ !inReturn then (t, .no)
  else match t.getFirstPendingSig with
    | none => (t, .no)
    | some sig =>
      if t.saHandlers sig ≠ .dfl then
        let t := t.delPendingSig sig
        match t.setupSigHandler stackFault with
        | none => t.killTaskNowOrLater current
        | some t => (t, .handler)
      else t.killTaskNowOrLater current

/-! ## System calls -/

/-- A call of `sys_rt_sigprocmask`. Of the memory of the caller there is which of the two writes to `user_oldset` fault, and
the words at `user_set`, with `none` for those that cannot be read. -/
structure Sigprocmask (a : Arch) where
  how : Int
  sigsetsize : Nat
  oldset : Option (Bool × Bool)
  set : Option (Fin a.maskWords → Option a.Word)

/-- `how`: `SIG_BLOCK`, `SIG_UNBLOCK` and `SIG_SETMASK`. -/
def changeWord (how : Int) (m w : a.Word) : Option a.Word :=
  if how = 0 then some (m ||| w)
  else if how = 1 then some (m &&& ~~~w)
  else if how = 2 then some w
  else none

/-- The loop of `sys_rt_sigprocmask` over the words `is`. -/
def setWords (how : Int) (words : Fin a.maskWords → Option a.Word) : List (Fin a.maskWords) → SigSet a → SigSet a × Int
  | [], m => (m, 0)
  | i :: is, m =>
    match words i with
    | none => (m, -Errno.efault.code)
    | some w =>
      match changeWord how (m i) w with
      | none => (m, -Errno.einval.code)
      | some m' => setWords how words is (Function.update m i m')

/-- The copies to `user_oldset`; the second one only if the set of the caller is longer. -/
def Sigprocmask.oldsetFaults (c : Sigprocmask a) : Bool :=
  c.oldset.any fun fault => fault.1 || decide (a.maskWords * (a.nbits / 8) < c.sigsetsize) && fault.2

def sysRtSigprocmask (t : SigTask a) (c : Sigprocmask a) : SigTask a × Int :=
  if c.oldsetFaults then (t, -Errno.efault.code)
  else match c.set with
    | none => (t, 0)
    | some words =>
      let (m, rc) := setWords c.how words (List.finRange a.maskWords) t.saMask
      if rc ≠ 0 then ({ t with saMask := m }, rc)
      else ({ t with saMask := delSig (delSig m sigstop) sigkill }, 0)

/-- `sys_rt_sigsuspend` until it sleeps. `copied` is what the copy leaves in `sa_mask`, also if it faults. -/
def sysRtSigsuspend (t : SigTask a) (sigsetsize : Nat) (copied : SigSet a) (fault : Bool) : SigTask a × Int :=
  if 0 < t.nestedSigHandlers then (t, -Errno.eperm.code)
  else if sigsetsize < a.maskWords * (a.nbits / 8) then (t, -Errno.einval.code)
  else
    let t := { t with saOldMask := t.saMask, saMask := copied }
    if fault then ({ t with saMask := t.saOldMask }, -Errno.efault.code)
    else ({ t with inSigsuspend := true, saMask := delSig (delSig t.saMask sigkill) sigstop }, -Errno.eintr.code)

def sysRtSigreturn (t : SigTask a) (stackFault : Bool) : SigTask a :=
  if 0 < t.nestedSigHandlers then
    match t.processSignals true true stackFault with
    | (t, .killed) => t
    | (t, .handler) => { t with nestedSigHandlers := t.nestedSigHandlers - 1 }
    | (t, .no) =>
      let t := if t.inSigsuspend then { t with saMask := t.saOldMask, inSigsuspend := false } else t
      { t with nestedSigHandlers := t.nestedSigHandlers - 1 }
  else t

/-- `execve`, with `reset_all_custom_signal_handlers`. -/
def execve (t : SigTask a) : SigTask a :=
  { t with
    nestedSigHandlers := 0
    inSigsuspend := false
    saHandlers := fun i => if t.saHandlers i = .custom then .dfl else t.saHandlers i }

def first (a : Arch) : SigTask a := ⟨fun _ => 0, fun _ => 0, fun _ => 0, fun _ => 0, false, 0, fun _ => .dfl⟩

end SigTask

open SigTask

/-! ## Runs -/

inductive SigAct (a : Arch)
  | execve
  | exit
  | sigaction (signum : Nat) (h : Sighandler)
  | send (signum : Nat) (flFault : Bool)
  | process (current stackFault : Bool)
  | sigprocmask (c : Sigprocmask a)
  | sigsuspend (sigsetsize : Nat) (copied : SigSet a) (fault : Bool)
  | sigreturn (stackFault : Bool)

def SigAct.run {a : Arch} : SigAct a → SigTask a → SigTask a
  | .execve, t => t.execve
  | .exit, t => t.terminate
  | .sigaction signum h, t => { t with saHandlers := Function.update t.saHandlers signum h }
  | .send signum flFault, t => t.addPendingSig signum flFault
  | .process current stackFault, t => (t.processSignals false current stackFault).1
  | .sigprocmask c, t => (t.sysRtSigprocmask c).1
  | .sigsuspend sigsetsize copied fault, t => (t.sysRtSigsuspend sigsetsize copied fault).1
  | .sigreturn stackFault, t => t.sysRtSigreturn stackFault

abbrev SigTasks (a : Arch) : Type := Nat → Option (SigTask a)

inductive SigEv (a : Arch)
  | fork (tid child : Nat)
  | act (tid : Nat) (e : SigAct a)

namespace SigTasks

variable {a : Arch}

/-- One event; a fork copies the task, without the pending signals. -/
def exec (s : SigTasks a) : SigEv a → Option (SigTasks a)
  | .fork tid child => (s tid).bind fun t =>
      if (s child).isSome then none else some (Function.update s child (some t.dropAllPendingSignals))
  | .act tid e => (s tid).map fun t => Function.update s tid (some (e.run t))

def init : SigTasks a := fun tid => if tid = 1 then some (SigTask.first a) else none

end SigTasks

/-! ## The words that are changed -/

namespace SigTask

variable {a : Arch} {m : SigSet a} {how : Int} {words : Fin a.maskWords → Option a.Word}

def readable (words : Fin a.maskWords → Option a.Word) : List (Fin a.maskWords) :=
  (List.finRange a.maskWords).takeWhile fun i => (words i).isSome

def changedWord (how : Int) (words : Fin a.maskWords → Option a.Word) (m : SigSet a) (i : Fin a.maskWords) : a.Word :=
  ((words i).bind (changeWord how (m i))).getD (m i)

/-- If a word of the new set cannot be read, those before it change nothing. -/
def Whole (m : SigSet a) (c : Sigprocmask a) : Prop :=
  c.oldsetFaults = false → ∀ words ∈ c.set,
    readable words = List.finRange a.maskWords ∨ ∀ i ∈ readable words, changedWord c.how words m i = m i

-- the sets are finitely many, and an instance that tries them all must not be found here
instance (m : SigSet a) (c : Sigprocmask a) : Decidable (Whole m c) :=
  haveI : Decidable (∀ words ∈ c.set, readable words = List.finRange a.maskWords ∨
      ∀ i ∈ readable words, changedWord c.how words m i = m i) := Option.decidableForallMem _
  inferInstanceAs (Decidable (_ → _))

theorem changeWord_isSome (x w : a.Word) : (changeWord how x w).isSome = true ↔ how = 0 ∨ how = 1 ∨ how = 2 := by
  unfold changeWord
  split_ifs <;> simp [*]

theorem setWords_of_invalid (hhow : ¬(how = 0 ∨ how = 1 ∨ how = 2)) (is : List (Fin a.maskWords)) :
    (setWords how words is m).1 = m := by
  cases is with
  | nil => rfl
  | cons i is =>
    unfold setWords
    cases words i with
    | none => rfl
    | some w =>
      have : changeWord how (m i) w = none := Option.not_isSome_iff_eq_none.mp ((changeWord_isSome _ _).not.mpr hhow)
      simp [this]

theorem changedWord_of_invalid (hhow : ¬(how = 0 ∨ how = 1 ∨ how = 2)) (i : Fin a.maskWords) :
    changedWord how words m i = m i := by
  unfold changedWord
  cases words i with
  | none => rfl
  | some w =>
    have : changeWord how (m i) w = none := Option.not_isSome_iff_eq_none.mp ((changeWord_isSome _ _).not.mpr hhow)
    simp [this]

/-- **The loop** changes the words before the first that cannot be read. -/
theorem setWords_eq (hhow : how = 0 ∨ how = 1 ∨ how = 2) (is : List (Fin a.maskWords)) (hnd : is.Nodup) :
    setWords how words is m =
      (fun i => if i ∈ is.takeWhile (fun i => (words i).isSome) then changedWord how words m i else m i,
        if is.takeWhile (fun i => (words i).isSome) = is then 0 else -(Errno.efault.code : Int)) := by
  induction is generalizing m with
  | nil => simp [setWords]
  | cons i is ih =>
    obtain ⟨hi, hnd⟩ := List.nodup_cons.mp hnd
    cases hw : words i with
    | none => simp [setWords, hw]
    | some w =>
      obtain ⟨x, hx⟩ := Option.isSome_iff_exists.mp ((changeWord_isSome (m i) w).mpr hhow)
      simp only [setWords, hw, hx, ih hnd, List.takeWhile_cons, Option.isSome_some, if_true, List.cons.injEq, true_and]
      congr 1
      funext k
      by_cases hk : k = i
      · subst hk
        have hnot : k ∉ is.takeWhile fun i => (words i).isSome := fun hmem => hi (List.takeWhile_subset _ hmem)
        simp [hnot, changedWord, hw, hx]
      · simp [hk, changedWord]

/-- **An error leaves the mask as it was** exactly if the words that were read before the fault change nothing. -/
theorem sysRtSigprocmask_error (t : SigTask a) (c : Sigprocmask a) :
    ((t.sysRtSigprocmask c).2 ≠ 0 → (t.sysRtSigprocmask c).1.saMask = t.saMask) ↔ Whole t.saMask c := by
  unfold sysRtSigprocmask Whole
  by_cases hold : c.oldsetFaults = true
  · simp [hold]
  · cases hset : c.set with
    | none => simp [hold]
    | some words =>
      simp only [hold, Option.mem_def, Option.some.injEq, forall_eq', Bool.false_eq_true, if_false, forall_const]
      by_cases hhow : c.how = 0 ∨ c.how = 1 ∨ c.how = 2
      · have hrc : (-(Errno.efault.code : Int)) ≠ 0 := by decide
        rw [setWords_eq hhow _ (List.nodup_finRange _), readable]
        by_cases hall : (List.finRange a.maskWords).takeWhile (fun i => (words i).isSome) = List.finRange a.maskWords
        · simp [hall]
        · simp only [hall, if_false, ne_eq, hrc, not_false_eq_true, if_true, forall_const, false_or, funext_iff,
            ite_eq_right_iff]
      · have hinv : (setWords c.how words (List.finRange a.maskWords) t.saMask).1 = t.saMask := setWords_of_invalid hhow _
        refine iff_of_true (fun hrc => ?_) (.inr fun i _ => changedWord_of_invalid hhow i)
        split_ifs at hrc ⊢
        · exact hinv
        · exact absurd rfl hrc

end SigTask

/-! ## Signals that are never masked -/

namespace SigSet

variable {a : Arch} {m m' : SigSet a} {n : Nat}

theorem isSigSet_of_and (h : isSigSet m n = false) (hm : ∀ i, ∃ w, m' i = m i &&& w) : isSigSet m' n = false := by
  unfold isSigSet at h ⊢
  split_ifs with hslot
  · rw [dif_pos hslot] at h
    obtain ⟨w, hw⟩ := hm ⟨_, hslot⟩
    simp only [ne_eq, decide_eq_false_iff_not, not_not] at h ⊢
    rw [hw, BitVec.and_assoc, BitVec.and_comm w, ← BitVec.and_assoc, h]
    exact BitVec.zero_and
  · rfl

theorem delSig_eq_and (m : SigSet a) (n : Nat) (i : Fin a.maskWords) : ∃ w, delSig m n i = m i &&& w := by
  unfold delSig
  split_ifs
  · exact ⟨_, rfl⟩
  · exact ⟨BitVec.allOnes _, by simp⟩

theorem isSigSet_delSig (m : SigSet a) (n : Nat) : isSigSet (delSig m n) n = false := by
  unfold isSigSet
  split_ifs with hslot
  · simp only [delSig, if_true, ne_eq, decide_eq_false_iff_not, not_not]
    rw [BitVec.signExtend_not (by decide), BitVec.and_assoc, BitVec.not_and_self]
    exact BitVec.and_zero
  · rfl

def Free (m : SigSet a) : Prop := isSigSet m sigkill = false ∧ isSigSet m sigstop = false

theorem Free.of_and (h : Free m) (hm : ∀ i, ∃ w, m' i = m i &&& w) : Free m' :=
  ⟨isSigSet_of_and h.1 hm, isSigSet_of_and h.2 hm⟩

theorem free_delSig_delSig (m : SigSet a) {k l : Nat} (h : k = sigkill ∧ l = sigstop ∨ k = sigstop ∧ l = sigkill) :
    Free (delSig (delSig m k) l) := by
  have hk := isSigSet_of_and (isSigSet_delSig m k) (delSig_eq_and _ l)
  have hl := isSigSet_delSig (delSig m k) l
  rcases h with ⟨rfl, rfl⟩ | ⟨rfl, rfl⟩
  · exact ⟨hk, hl⟩
  · exact ⟨hl, hk⟩

end SigSet

namespace SigTask

variable {a : Arch} {t : SigTask a}

structure Safe (t : SigTask a) : Prop where
  mask : Free t.saMask
  old : Free t.saOldMask

theorem Safe.congr {t' : SigTask a} (h : t.Safe) (hm : t'.saMask = t.saMask) (ho : t'.saOldMask = t.saOldMask) : t'.Safe :=
  ⟨hm ▸ h.mask, ho ▸ h.old⟩

theorem Safe.killTaskNowOrLater {current : Bool} (h : t.Safe) : (t.killTaskNowOrLater current).1.Safe := by
  unfold SigTask.killTaskNowOrLater
  cases current
  · exact h
  · exact h.congr rfl rfl

theorem Safe.processSignals {inReturn current stackFault : Bool} (h : t.Safe) :
    (t.processSignals inReturn current stackFault).1.Safe := by
  have hmask : Safe { t with saMask := fun i => t.saMask i &&& ~~~t.saFaultPending i } :=
    ⟨h.mask.of_and fun i => ⟨_, rfl⟩, h.old⟩
  unfold SigTask.processSignals
  simp only
  split_ifs
  · exact hmask.killTaskNowOrLater
  · exact hmask
  · split
    · exact hmask
    · split_ifs
      · split
        · exact Safe.killTaskNowOrLater (hmask.congr rfl rfl)
        · next t' ht' =>
          unfold setupSigHandler at ht'
          split_ifs at ht'
          obtain rfl := Option.some.inj ht'
          exact hmask.congr rfl rfl
      · exact hmask.killTaskNowOrLater

theorem Safe.sysRtSigprocmask {c : Sigprocmask a} (h : t.Safe) (hc : Whole t.saMask c) : (t.sysRtSigprocmask c).1.Safe := by
  have herror := (t.sysRtSigprocmask_error c).mpr hc
  have hold : (t.sysRtSigprocmask c).1.saOldMask = t.saOldMask := by
    unfold SigTask.sysRtSigprocmask
    simp only
    split_ifs
    · rfl
    · split
      · rfl
      · split_ifs <;> rfl
  by_cases hrc : (t.sysRtSigprocmask c).2 = 0
  · refine ⟨?_, hold ▸ h.old⟩
    unfold SigTask.sysRtSigprocmask at hrc ⊢
    simp only at hrc ⊢
    split_ifs at hrc ⊢
    · exact h.mask
    · split at hrc
      · exact h.mask
      · split_ifs at hrc ⊢ with hne
        · exact absurd hrc hne
        · exact free_delSig_delSig _ (.inr ⟨rfl, rfl⟩)
  · exact h.congr (herror hrc) hold

theorem Safe.sysRtSigsuspend {sigsetsize : Nat} {copied : SigSet a} {fault : Bool} (h : t.Safe) :
    (t.sysRtSigsuspend sigsetsize copied fault).1.Safe := by
  unfold SigTask.sysRtSigsuspend
  simp only
  split_ifs
  · exact h
  · exact h
  · exact ⟨h.mask, h.mask⟩
  · exact ⟨free_delSig_delSig _ (.inl ⟨rfl, rfl⟩), h.mask⟩

theorem Safe.sysRtSigreturn {stackFault : Bool} (h : t.Safe) : (t.sysRtSigreturn stackFault).Safe := by
  have hp : (t.processSignals true true stackFault).1.Safe := h.processSignals
  unfold SigTask.sysRtSigreturn
  split_ifs
  · split
    · next t' heq =>
      rw [heq] at hp
      exact hp
    · next t' heq =>
      rw [heq] at hp
      exact hp.congr rfl rfl
    · next t' heq =>
      rw [heq] at hp
      simp only
      split_ifs
      · exact ⟨hp.old, hp.old⟩
      · exact hp.congr rfl rfl
  · exact h

/-- **Whatever happens to a task** keeps `SIGKILL` and `SIGSTOP` out of its masks. -/
theorem Safe.run {e : SigAct a} (h : t.Safe) (he : ∀ c, e = .sigprocmask c → Whole t.saMask c) : (e.run t).Safe := by
  cases e with
  | execve | exit | sigaction | send => exact h.congr rfl rfl
  | process => exact h.processSignals
  | sigprocmask c => exact h.sysRtSigprocmask (he c rfl)
  | sigsuspend => exact h.sysRtSigsuspend
  | sigreturn => exact h.sysRtSigreturn

end SigTask

namespace SigTasks

variable {a : Arch} {s : SigTasks a} {tid : Nat} {t : SigTask a}

def Ok (s : SigTasks a) : SigEv a → Prop
  | .act tid (.sigprocmask c) => ∀ t ∈ s tid, Whole t.saMask c
  | _ => True

instance : ∀ e : SigEv a, Decidable (Ok s e)
  | .act tid (.sigprocmask c) => inferInstanceAs (Decidable (∀ t ∈ s tid, Whole t.saMask c))
  | .fork .. | .act _ .execve | .act _ .exit | .act _ (.sigaction ..) | .act _ (.send ..) | .act _ (.process ..)
  | .act _ (.sigsuspend ..) | .act _ (.sigreturn _) => .isTrue trivial

/-- **No mask has `SIGKILL` or `SIGSTOP`** in a run of whole calls, and an error of `rt_sigprocmask` leaves the mask as it
was exactly if the call is whole. -/
theorem mask_kept (h : Lib.Reached (· = init) exec Ok s) (ht : s tid = some t) :
    t.isSigMasked sigkill = false ∧ t.isSigMasked sigstop = false ∧
      ∀ c, ((t.sysRtSigprocmask c).2 ≠ 0 → (t.sysRtSigprocmask c).1.saMask = t.saMask) ↔ Whole t.saMask c := by
  have hsafe : ∀ tid t, s tid = some t → t.Safe := by
    refine Lib.Reached.invariant (I := fun s : SigTasks a => ∀ tid t, s tid = some t → t.Safe) ?_ ?_ h
    · rintro _ rfl tid t ht
      have hfree : Free (fun _ => 0 : SigSet a) := by simp [Free, isSigSet]
      simp only [init, Option.ite_none_right_eq_some, Option.some.injEq] at ht
      obtain ⟨-, rfl⟩ := ht
      exact ⟨hfree, hfree⟩
    · intro s e s' hs hok he tid t ht
      cases e with
      | fork p child =>
        obtain ⟨u, hu, he⟩ := Option.bind_eq_some_iff.mp he
        split_ifs at he
        obtain rfl := Option.some.inj he
        by_cases hc : tid = child
        · subst hc
          rw [Function.update_self] at ht
          obtain rfl := Option.some.inj ht
          exact (hs p u hu).congr rfl rfl
        · rw [Function.update_of_ne hc] at ht
          exact hs tid t ht
      | act p e =>
        obtain ⟨u, hu, rfl⟩ := Option.map_eq_some_iff.mp he
        by_cases hp : tid = p
        · subst hp
          rw [Function.update_self] at ht
          obtain rfl := Option.some.inj ht
          exact (hs tid u hu).run fun c hc => by
            subst hc
            exact hok u hu
        · rw [Function.update_of_ne hp] at ht
          exact hs tid t ht
  obtain ⟨hkill, hstop⟩ := (hsafe tid t ht).mask
  exact ⟨hkill, hstop, t.sysRtSigprocmask_error⟩

/-- A process masks everything; its child waits for signal 10 with an empty mask, and the handler returns. -/
def suspended : List (SigEv .i386) :=
  [.act 1 (.sigprocmask ⟨2, 8, some (false, false), some fun _ => some (BitVec.allOnes 32)⟩), .fork 1 2,
    .act 2 (.sigaction 10 .custom), .act 2 (.sigsuspend 8 (fun _ => 0) false), .act 2 (.send 10 false),
    .act 2 (.process true false), .act 2 (.sigreturn false)]

theorem mask_kept_by_sigreturn : ∃ (s : SigTasks .i386) (t : SigTask .i386), Lib.Reached (· = init) exec Ok s ∧
    s 2 = some t ∧ t.isSigMasked 10 = true ∧ t.inSigsuspend = false ∧ t.isSigMasked sigkill = false ∧ t.isSigMasked sigstop = false ∧
      ∀ c, ((t.sysRtSigprocmask c).2 ≠ 0 → (t.sysRtSigprocmask c).1.saMask = t.saMask) ↔ Whole t.saMask c := by
  have hv : ((Lib.execs exec init suspended).bind (· 2)).map (fun t => (t.isSigMasked 10, t.inSigsuspend)) =
      some (true, false) := by decide
  obtain ⟨t, ht, hv⟩ := Option.map_eq_some_iff.mp hv
  obtain ⟨s, hs, ht⟩ := Option.bind_eq_some_iff.mp ht
  simp only [Prod.mk.injEq] at hv
  have hreach : Lib.Reached (· = init) exec Ok s := Lib.Reached.execs (.start rfl) (by decide) hs
  exact ⟨s, t, hreach, ht, hv.1, hv.2, mask_kept hreach ht⟩

/-- The second word of the new set cannot be read. -/
def halfSet : Sigprocmask .i386 := ⟨2, 8, none, some fun i => if i.val = 0 then some (BitVec.allOnes 32) else none⟩

/-- **`SIGKILL` and `SIGSTOP` are masked** by a call that returns `-EFAULT`. -/
theorem masked_by_error : ∃ s t, Lib.execs exec init [.act 1 (.sigprocmask halfSet)] = some s ∧ s 1 = some t ∧
    ((SigTask.first .i386).sysRtSigprocmask halfSet).2 = -Errno.efault.code ∧
    t.isSigMasked sigkill = true ∧ t.isSigMasked sigstop = true ∧ t.saMask ≠ (SigTask.first .i386).saMask := by
  refine ⟨_, _, rfl, rfl, by decide, by decide, by decide, ?_⟩
  exact Function.ne_iff.mpr ⟨⟨0, by decide⟩, by decide⟩

end SigTasks

end Usax.Proc
