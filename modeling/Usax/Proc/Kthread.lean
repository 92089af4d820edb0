import Mathlib.Data.List.Count
import Mathlib.Tactic
import Usax.Common.Errno

/-!
# Creating a kernel thread

`kthread_create2` of `process.c`, with the functions that allocate the task, its stack and its buffers, and give them back.
The run keeps a record of what it has allocated and freed, of the preemption counter and of the tasks added to the scheduler.

- `allocKernelStack_ok`, `allocKernelStack_fail`: the stack, which leaves nothing behind if it cannot be allocated;
- `allocateNewThread_noStack`, `allocateNewThread_noBufs`: the failures that free it again;
- `kthreadCreate2_exact`: how a call ends, for every pattern of failures.
-/

namespace Usax.Proc.Kthread

open Common (Errno)

/-- What is allocated for a thread. A stack that is isolated has a block of the high virtual memory, with its pages mapped
there; `stray` is whatever is at an address that was never allocated. -/
inductive Obj
  | task | stack | vmemBlock | mapping | copybufs | stray
deriving DecidableEq, Repr

/-- The allocations that succeed, and the number that `create_new_kernel_tid` finds. -/
structure Allocs where
  tid : Option Nat
  task : Bool
  stack : Bool
  vmemBlock : Bool
  mapping : Bool
  copybufs : Bool

/-- What a run has done so far, and the preemption counter. -/
structure Kernel where
  preempt : Nat
  allocated : List Obj
  freed : List Obj
  added : List Nat

def Kernel.alloc (k : Kernel) (o : Obj) : Kernel := { k with allocated := o :: k.allocated }

def Kernel.free (k : Kernel) (o : Obj) : Kernel := { k with freed := o :: k.freed }

/-- The pointers of `struct task` that are set here: whether they are not null. -/
structure Task where
  kernelStack : Bool
  ioCopybuf : Bool

section
variable (isolation : Bool) (a : Allocs)

def allocKernelIsolatedStack (k : Kernel) : Bool × Kernel :=
  if ¬ a.stack then (false, k)
  else if ¬ a.vmemBlock then (false, (k.alloc .stack).free .stack)
  -- the pages that have been mapped are unmapped again
  else if ¬ a.mapping then (false, (((k.alloc .stack).alloc .vmemBlock).free .vmemBlock).free .stack)
  else (true, ((k.alloc .stack).alloc .vmemBlock).alloc .mapping)

/-- `free_kernel_isolated_stack`: the stack is found by its mapping, and there is none at the null pointer. -/
def freeKernelIsolatedStack (kernelStack : Bool) (k : Kernel) : Kernel :=
  if kernelStack then ((k.free .mapping).free .vmemBlock).free .stack else k.free .stray

/-- `alloc_kernel_stack`, with `KERNEL_STACK_ISOLATION` or without it. -/
def allocKernelStack (k : Kernel) : Bool × Kernel :=
  if isolation then allocKernelIsolatedStack a k
  else if a.stack then (true, k.alloc .stack) else (false, k)

def freeKernelStack (ti : Task) (k : Kernel) : Kernel :=
  if isolation then freeKernelIsolatedStack ti.kernelStack k
  else if ti.kernelStack then k.free .stack else k

def doCommonTaskAllocs (allocBufs : Bool) (k : Kernel) : Bool × Task × Kernel :=
  let (kernelStack, k) := allocKernelStack isolation a k
  if ¬ kernelStack then (false, ⟨false, false⟩, k)
  else if ¬ allocBufs then (true, ⟨true, false⟩, k)
  else if ¬ a.copybufs then (false, ⟨true, false⟩, freeKernelStack isolation ⟨true, false⟩ k)
  else (true, ⟨true, true⟩, k.alloc .copybufs)

/-- `free_common_task_allocs`. The kernel process has no mappings of its own. -/
def freeCommonTaskAllocs (ti : Task) (k : Kernel) : Kernel :=
  let k := freeKernelStack isolation ti k
  if ti.ioCopybuf then k.free .copybufs else k

/-- `allocate_new_thread`: whether there is a thread. -/
def allocateNewThread (allocBufs : Bool) (k : Kernel) : Bool × Kernel :=
  if ¬ a.task then (false, k)
  else
    match doCommonTaskAllocs isolation a allocBufs (k.alloc .task) with
    | (true, _, k) => (true, k)
    | (false, ti, k) => (false, (freeCommonTaskAllocs isolation ti k).free .task)

/-- `kthread_create2`: the number of the thread, or the error. -/
def kthreadCreate2 (allocBufs : Bool) (k : Kernel) : Except Errno Nat × Kernel :=
  let k := { k with preempt := k.preempt + 1 }
  match a.tid with
  | none => (.error .eagain, k)
  | some tid =>
    match allocateNewThread isolation a allocBufs k with
    | (false, k) => (.error .enomem, k)
    | (true, k) => (.ok tid, { k with added := tid :: k.added, preempt := k.preempt - 1 })

end

/-! ## The allocations -/

/-- Each object that was allocated has been freed once, and no other. -/
def FreedOnce (k : Kernel) : Prop := ∀ o, k.allocated.count o ≤ 1 ∧ k.freed.count o = k.allocated.count o

/-- The stack has its memory, and if it is isolated its place. -/
def StackOk (isolation : Bool) (a : Allocs) : Prop := a.stack ∧ (isolation → a.vmemBlock ∧ a.mapping)

/-- Some failure after which `free_kernel_stack` is called for a stack that is not there: that of the buffers, when the stack
has been freed before, and with the isolation also that of the stack itself. -/
def StackFreedAgain (isolation allocBufs : Bool) (a : Allocs) : Prop :=
  (isolation = true ∧ ¬ StackOk isolation a) ∨ (StackOk isolation a ∧ allocBufs = true ∧ a.copybufs = false)

section
variable {isolation allocBufs : Bool} {a : Allocs} {k : Kernel}

def stackObjs (isolation : Bool) : List Obj := if isolation then [.mapping, .vmemBlock, .stack] else [.stack]

theorem allocKernelStack_ok (h : StackOk isolation a) :
    allocKernelStack isolation a k = (true, { k with allocated := stackObjs isolation ++ k.allocated }) := by
  obtain ⟨hstack, hplace⟩ := h
  cases isolation with
  | false => simp [allocKernelStack, hstack, stackObjs, Kernel.alloc]
  | true =>
    obtain ⟨hblock, hmap⟩ := hplace rfl
    simp [allocKernelStack, allocKernelIsolatedStack, hstack, hblock, hmap, stackObjs, Kernel.alloc]

theorem allocKernelStack_fail (h : ¬ StackOk isolation a) :
    ∃ os os' : List Obj, allocKernelStack isolation a k =
        (false, { k with allocated := os ++ k.allocated, freed := os' ++ k.freed }) ∧
      os.Nodup ∧ os'.Perm os ∧ .task ∉ os ∧ .stray ∉ os := by
  unfold StackOk at h
  cases isolation with
  | false =>
    have hstack : a.stack = false := by simpa using h
    exact ⟨[], [], by simp [allocKernelStack, hstack], by simp, .refl _, by simp, by simp⟩
  | true =>
    simp only [allocKernelStack, allocKernelIsolatedStack, if_true, Kernel.alloc, Kernel.free]
    cases hstack : a.stack with
    | false => exact ⟨[], [], by simp, by simp, .refl _, by simp, by simp⟩
    | true =>
      cases hblock : a.vmemBlock with
      | false => exact ⟨[.stack], [.stack], by simp, by decide, .refl _, by decide, by decide⟩
      | true =>
        have hmap : a.mapping = false := by simpa [hstack, hblock] using h
        exact ⟨[.vmemBlock, .stack], [.stack, .vmemBlock], by simp [hmap], by decide, by decide, by decide, by decide⟩

theorem freeKernelStack_ok (ti : Task) (h : ti.kernelStack = true) :
    freeKernelStack isolation ti k = { k with freed := (stackObjs isolation).reverse ++ k.freed } := by
  cases isolation <;> simp [freeKernelStack, freeKernelIsolatedStack, h, stackObjs, Kernel.free]

/-! ## The thread -/

theorem allocateNewThread_ok (htask : a.task = true) (hstack : StackOk isolation a)
    (hbufs : allocBufs = true → a.copybufs = true) :
    ∃ os, allocateNewThread isolation a allocBufs k = (true, { k with allocated := os ++ k.allocated }) := by
  simp only [allocateNewThread, htask, not_true_eq_false, if_false, doCommonTaskAllocs, allocKernelStack_ok hstack]
  cases hall : allocBufs with
  | false => exact ⟨stackObjs isolation ++ [.task], by simp [Kernel.alloc]⟩
  | true => exact ⟨.copybufs :: stackObjs isolation ++ [.task], by simp [hbufs hall, Kernel.alloc]⟩

/-- Without the stack: with the isolation, something is freed that was never allocated. -/
theorem allocateNewThread_noStack (allocBufs : Bool) (htask : a.task = true) (hstack : ¬ StackOk isolation a) (n : Nat) :
    ∃ k, allocateNewThread isolation a allocBufs ⟨n, [], [], []⟩ = (false, k) ∧ k.preempt = n ∧ k.added = [] ∧
      (FreedOnce k ↔ isolation = false) := by
  obtain ⟨os, os', halloc, hnodup, hperm, htaskNot, hstray⟩ := allocKernelStack_fail hstack (k := ⟨n, [.task], [], []⟩)
  cases isolation with
  | false =>
    refine ⟨⟨n, os ++ [.task], .task :: os', []⟩, ?_, rfl, rfl, fun _ => rfl, fun _ o => ⟨?_, ?_⟩⟩
    · simp only [allocateNewThread, htask, not_true_eq_false, if_false, doCommonTaskAllocs, Kernel.alloc, halloc]
      simp [freeCommonTaskAllocs, freeKernelStack, Kernel.free]
    · have hone : (os ++ [Obj.task]).Nodup := by
        rw [List.nodup_append']
        exact ⟨hnodup, List.nodup_singleton _, List.disjoint_singleton.mpr htaskNot⟩
      exact List.nodup_iff_count_le_one.mp hone o
    · simp [List.count_append, List.count_cons, hperm.count_eq]
  | true =>
    refine ⟨⟨n, os ++ [.task], .task :: .stray :: os', []⟩, ?_, rfl, rfl, fun h => ?_, fun h => absurd h (by decide)⟩
    · simp only [allocateNewThread, htask, not_true_eq_false, if_false, doCommonTaskAllocs, Kernel.alloc, halloc]
      simp [freeCommonTaskAllocs, freeKernelStack, freeKernelIsolatedStack, Kernel.free]
    · have hcount := (h .stray).2
      simp [List.count_append, List.count_eq_zero.mpr hstray] at hcount

theorem allocateNewThread_noBufs (htask : a.task = true) (hstack : StackOk isolation a) (hall : allocBufs = true)
    (hbufs : a.copybufs = false) (n : Nat) :
    ∃ k, allocateNewThread isolation a allocBufs ⟨n, [], [], []⟩ = (false, k) ∧ k.preempt = n ∧ k.added = [] ∧
      k.allocated.count .stack = 1 ∧ k.freed.count .stack = 2 := by
  refine ⟨⟨n, stackObjs isolation ++ [.task], .task :: (stackObjs isolation).reverse ++ (stackObjs isolation).reverse, []⟩,
    ?_, rfl, rfl, ?_, ?_⟩
  · simp only [allocateNewThread, htask, not_true_eq_false, if_false, doCommonTaskAllocs, Kernel.alloc,
      allocKernelStack_ok hstack, hall, hbufs, Bool.false_eq_true, not_false_eq_true, if_true]
    simp [freeCommonTaskAllocs, freeKernelStack_ok, Kernel.free]
  · cases isolation <;> rfl
  · cases isolation <;> rfl

theorem kthreadCreate2_error {tid n : Nat} (htid : a.tid = some tid)
    (hrun : allocateNewThread isolation a allocBufs ⟨n + 1, [], [], []⟩ = (false, k)) :
    kthreadCreate2 isolation a allocBufs ⟨n, [], [], []⟩ = (.error .enomem, k) := by
  simp only [kthreadCreate2, htid, hrun]

theorem kthreadCreate2_ok {tid n : Nat} (htid : a.tid = some tid)
    (hrun : allocateNewThread isolation a allocBufs ⟨n + 1, [], [], []⟩ = (true, k)) :
    kthreadCreate2 isolation a allocBufs ⟨n, [], [], []⟩ =
      (.ok tid, { k with added := tid :: k.added, preempt := k.preempt - 1 }) := by
  simp only [kthreadCreate2, htid, hrun]

end

/-- There is a number for the thread, and all that it needs can be allocated. -/
def Served (isolation allocBufs : Bool) (a : Allocs) : Prop :=
  a.tid ≠ none ∧ a.task = true ∧ StackOk isolation a ∧ (allocBufs = true → a.copybufs = true)

/-- The two ends of a call. -/
theorem kthreadCreate2_cases (isolation allocBufs : Bool) (a : Allocs) (n : Nat) :
    (Served isolation allocBufs a ∧ ∃ tid os, kthreadCreate2 isolation a allocBufs ⟨n, [], [], []⟩ = (.ok tid, ⟨n, os, [], [tid]⟩)) ∨
    (¬ Served isolation allocBufs a ∧ ∃ e k, kthreadCreate2 isolation a allocBufs ⟨n, [], [], []⟩ = (.error e, k) ∧
      k.preempt = n + 1 ∧ k.added = [] ∧
        (FreedOnce k ↔ a.tid = none ∨ a.task = false ∨ ¬ StackFreedAgain isolation allocBufs a)) := by
  have hempty (m : Nat) : FreedOnce ⟨m, [], [], []⟩ := fun o => ⟨by simp, by simp⟩
  cases htid : a.tid with
  | none =>
    have hrun : kthreadCreate2 isolation a allocBufs ⟨n, [], [], []⟩ = (.error .eagain, ⟨n + 1, [], [], []⟩) := by
      simp only [kthreadCreate2, htid]
    exact .inr ⟨fun h => h.1 htid, _, _, hrun, rfl, rfl, iff_of_true (hempty _) (.inl rfl)⟩
  | some tid =>
    cases htask : a.task with
    | false =>
      have hrun : allocateNewThread isolation a allocBufs ⟨n + 1, [], [], []⟩ = (false, ⟨n + 1, [], [], []⟩) := by
        simp [allocateNewThread, htask]
      refine .inr ⟨fun h => ?_, _, _, kthreadCreate2_error htid hrun, rfl, rfl, iff_of_true (hempty _) (.inr (.inl rfl))⟩
      rw [h.2.1] at htask
      cases htask
    | true =>
      by_cases hstack : StackOk isolation a
      · by_cases hbufs : allocBufs = true ∧ a.copybufs = false
        · obtain ⟨k, hrun, hpre, hadd, hone, htwo⟩ := allocateNewThread_noBufs htask hstack hbufs.1 hbufs.2 (n + 1)
          refine .inr ⟨fun h => ?_, _, _, kthreadCreate2_error htid hrun, hpre, hadd, iff_of_false (fun h => ?_) ?_⟩
          · have := h.2.2.2 hbufs.1
            rw [hbufs.2] at this
            cases this
          · have := (h .stack).2
            omega
          · have hagain : StackFreedAgain isolation allocBufs a := .inr ⟨hstack, hbufs⟩
            simpa using hagain
        · have hserved : allocBufs = true → a.copybufs = true := by simpa using hbufs
          obtain ⟨os, hrun⟩ := allocateNewThread_ok htask hstack (k := ⟨n + 1, [], [], []⟩) hserved
          exact .inl ⟨⟨by simp [htid], htask, hstack, hserved⟩, tid, _, kthreadCreate2_ok htid hrun⟩
      · obtain ⟨k, hrun, hpre, hadd, hfree⟩ := allocateNewThread_noStack allocBufs htask hstack (n + 1)
        refine .inr ⟨fun h => hstack h.2.2.1, _, _, kthreadCreate2_error htid hrun, hpre, hadd, hfree.trans ?_⟩
        simp [StackFreedAgain, hstack]

/-- **How `kthread_create2` ends**, for every pattern of failures. The counter is as before, each object is freed once when an
error is returned, and the thread is added once when a number is, if and only if all allocations succeed. For the objects
alone it is enough that the stack is not freed when it was not there. -/
theorem kthreadCreate2_exact (isolation allocBufs : Bool) (a : Allocs) (n : Nat) :
    let r := kthreadCreate2 isolation a allocBufs ⟨n, [], [], []⟩
    ((r.2.preempt = n ∧ (∀ e, r.1 = .error e → FreedOnce r.2) ∧ ∀ tid, r.1 = .ok tid → r.2.added = [tid]) ↔
      Served isolation allocBufs a) ∧
    ((∀ e, r.1 = .error e → FreedOnce r.2) ↔ a.tid = none ∨ a.task = false ∨ ¬ StackFreedAgain isolation allocBufs a) ∧
    ∀ tid, r.1 = .ok tid → r.2.added = [tid] := by
  intro r
  obtain ⟨hserved, tid, os, hrun⟩ | ⟨hnot, e, k, hrun, hpre, hadd, hfree⟩ := kthreadCreate2_cases isolation allocBufs a n
  · rw [show r = _ from hrun]
    refine ⟨iff_of_true ⟨rfl, by simp, by simp⟩ hserved, iff_of_true (by simp) (.inr (.inr ?_)), by simp⟩
    rintro (h | h)
    · exact h.2 hserved.2.2.1
    · have := hserved.2.2.2 h.2.1
      rw [h.2.2] at this
      cases this
  · rw [show r = _ from hrun]
    refine ⟨iff_of_false (fun h => ?_) hnot, Iff.trans ⟨fun h => h e rfl, fun h _ _ => h⟩ hfree, by simp⟩
    have : k.preempt = n := h.1
    omega

/-- The buffers cannot be allocated: preemption stays disabled, and the stack has been freed twice. -/
theorem kthreadCreate2_leaves :
    let r := kthreadCreate2 false ⟨some 10000, true, true, true, true, false⟩ true ⟨0, [], [], []⟩
    r.2.preempt = 1 ∧ r.2.allocated.count .stack = 1 ∧ r.2.freed.count .stack = 2 := by
  decide

end Usax.Proc.Kthread
