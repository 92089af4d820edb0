import Mathlib.Logic.Function.Basic

/-!
# The signals of a condition variable

`kcond.c`, with what it uses of `wobj.c`, `timer.c` and `signal.c`, for tasks that wait on one object and for tasks that wait
on many (`multi_obj_waiter`). A wait list has two kinds of entries: the wait objects of tasks, and the elements of waiters,
which know their task. A task whose timer has expired is runnable, and its wait object is in the list until the task runs
again. The branches for `in_panic()`, in which there is one task and no scheduler, are left out.

- What a signal does to the tasks: `kcondSignalInt_wakes` for one entry, `foldl_kcondSignalInt_wakes` for a list of them;
- `kcond_signal_wakes`: `kcond_signal_all` wakes every task that is asleep on the condition, and `kcond_signal_one` wakes one
  and no other exactly if the first entry of the list is of such a task; `kcond_signal_one_lost` has runs in which it is not.
-/

namespace Usax.Sync.Kcond

/-! ## Data model -/

abbrev Tid := Nat

inductive TaskState
  | runnable | running | sleeping | zombie
deriving DecidableEq, Repr

/-- The kernel objects that have a wait list. -/
inductive Obj
  | mutex (m : Nat) | cond (c : Nat) | sem (s : Nat)
deriving DecidableEq, Repr

inductive WoType
  | none | kmutex | kcond | task | sem | mwoWaiter | mwoElem
deriving DecidableEq, Repr

/-- `struct wait_obj`: whether there is a pointer, and the list that the node is in. -/
structure WaitObj where
  set : Bool
  type : WoType
  node : Option Obj
deriving DecidableEq, Repr

structure Task where
  state : TaskState
  wobj : WaitObj
  ticksBeforeWakeUp : Nat
  timerReady : Bool
  stopped : Bool
  vforkStopped : Bool
deriving DecidableEq, Repr

/-- `struct mwobj_elem`. -/
structure Elem where
  wobj : WaitObj
  ti : Option Tid
  type : WoType
deriving DecidableEq, Repr

inductive Entry
  | task (t : Tid)
  | elem (e : Nat)
deriving DecidableEq, Repr

structure State where
  currTask : Tid
  task : Tid → Task
  elem : Nat → Elem
  waitList : Obj → List Entry
  timerWakeupList : List Tid

namespace State

variable (s : State)

def setTask (t : Tid) (f : Task → Task) : State := { s with task := Function.update s.task t (f (s.task t)) }

def taskChangeState (t : Tid) (state : TaskState) : State := s.setTask t fun x => { x with state := state }

/-! ## Wait objects -/

def wobj : Entry → WaitObj
  | .task t => (s.task t).wobj
  | .elem e => (s.elem e).wobj

def setWobj (w : WaitObj) : Entry → State
  | .task t => s.setTask t fun x => { x with wobj := w }
  | .elem e => { s with elem := Function.update s.elem e { s.elem e with wobj := w } }

def waitObjSet (x : Entry) (type : WoType) (list : Option Obj) : State :=
  { s.setWobj ⟨true, type, list⟩ x with
    waitList := list.elim s.waitList fun o => Function.update s.waitList o (s.waitList o ++ [x]) }

def waitObjReset (x : Entry) : State :=
  if (s.wobj x).set then
    { s.setWobj ⟨false, .none, none⟩ x with
      waitList := (s.wobj x).node.elim s.waitList fun o => Function.update s.waitList o ((s.waitList o).erase x) }
  else s

def prepareToWaitOn (type : WoType) (list : Option Obj) : State :=
  (s.waitObjSet (.task s.currTask) type list).taskChangeState s.currTask .sleeping

def mobjWaiterSet (e : Nat) (type : WoType) (o : Obj) : State :=
  let s' := s.waitObjSet (.elem e) .mwoElem (some o)
  { s' with elem := Function.update s'.elem e { s'.elem e with ti := some s.currTask, type := type } }

def prepareToWaitOnMultiObj : State := s.prepareToWaitOn .mwoWaiter none

def wakeUp (t : Tid) : State :=
  if t = s.currTask then s.waitObjReset (.task t) else (s.waitObjReset (.task t)).taskChangeState t .runnable

/-! ## Timers and POSIX signals -/

def taskSetWakeupTimer (t : Tid) (ticks : Nat) : State :=
  { s.setTask t fun x => { x with ticksBeforeWakeUp := ticks } with
    timerWakeupList := if (s.task t).ticksBeforeWakeUp = 0 then s.timerWakeupList ++ [t] else s.timerWakeupList }

def taskCancelWakeupTimer (t : Tid) : State :=
  if 0 < (s.task t).ticksBeforeWakeUp then
    { s.setTask t fun x => { x with timerReady := false, ticksBeforeWakeUp := 0 } with
      timerWakeupList := s.timerWakeupList.erase t }
  else s

def tickTimer (t : Tid) : State :=
  if (s.task t).ticksBeforeWakeUp - 1 = 0 then
    { s.setTask t fun x => { x with
        ticksBeforeWakeUp := 0, timerReady := true, state := if x.state = .sleeping then .runnable else x.state } with
      timerWakeupList := s.timerWakeupList.erase t }
  else s.setTask t fun x => { x with ticksBeforeWakeUp := x.ticksBeforeWakeUp - 1 }

def tickAllTimers : State := s.timerWakeupList.foldl tickTimer s

def signalWakeupTask (t : Tid) : State :=
  if (s.task t).vforkStopped then s
  else
    let s' := if (s.task t).state = .sleeping ∧ (s.task t).wobj.type ≠ .kmutex ∧ (s.task t).wobj.type ≠ .sem then s.wakeUp t
      else s
    s'.setTask t fun x => { x with stopped := false }

def switchToTask (t : Tid) : State :=
  { s.setTask t fun x => { x with state := .running, timerReady := false } with currTask := t }

/-! ## Conditions -/

/-- `kcond_wait`, until the task sleeps. No ticks are `KCOND_WAIT_FOREVER`. -/
def kcondWait (c timeoutTicks : Nat) : State :=
  let s' := s.prepareToWaitOn .kcond (some (.cond c))
  if timeoutTicks ≠ 0 then s'.taskSetWakeupTimer s.currTask timeoutTicks else s'

def ti : Entry → Option Tid
  | .task t => some t
  | .elem e => (s.elem e).ti

/-- A signal for a task that does not sleep is lost; an element is taken out of the list. -/
def signalLost : Entry → State
  | .task _ => s
  | .elem e => s.waitObjReset (.elem e)

/-- The timer of a task that waits on a condition only. -/
def cancelTimer : Entry → State
  | .task t => s.taskCancelWakeupTimer t
  | .elem _ => s

def kcondSignalInt (x : Entry) : State :=
  match s.ti x with
  | none => s.signalLost x
  | some t =>
    if (s.task t).state ≠ .sleeping then s.signalLost x
    else ((s.cancelTimer x).waitObjReset x).wakeUp t

def kcondSignalOne (c : Nat) : State :=
  match s.waitList (.cond c) with
  | [] => s
  | x :: _ => s.kcondSignalInt x

/-- `kcond_signal_all`. The entry that follows is read before an entry is signalled, which only takes that entry out of the
list: the own wait object of a task with a waiter is in no list. -/
def kcondSignalAll (c : Nat) : State := (s.waitList (.cond c)).foldl kcondSignalInt s

/-! ## What a signal does to the tasks -/

variable {s}

structure SameTasks (s s' : State) : Prop where
  curr : s'.currTask = s.currTask
  state : ∀ u, (s'.task u).state = (s.task u).state
  elem : ∀ e, (s'.elem e).ti = (s.elem e).ti

theorem SameTasks.trans {s₁ s₂ : State} (h : SameTasks s s₁) (h' : SameTasks s₁ s₂) : SameTasks s s₂ :=
  ⟨h'.curr.trans h.curr, fun u => (h'.state u).trans (h.state u), fun e => (h'.elem e).trans (h.elem e)⟩

theorem setTask_same {t : Tid} {f : Task → Task} (hf : (f (s.task t)).state = (s.task t).state) :
    SameTasks s (s.setTask t f) := by
  refine ⟨rfl, fun u => ?_, fun _ => rfl⟩
  by_cases h : u = t
  · subst h
    simpa [setTask] using hf
  · simp [setTask, h]

theorem setWobj_same (w : WaitObj) (x : Entry) : SameTasks s (s.setWobj w x) := by
  cases x with
  | task t =>
    have h : SameTasks s (s.setTask t fun x => { x with wobj := w }) := setTask_same rfl
    exact h
  | elem e =>
    refine ⟨rfl, fun _ => rfl, fun i => ?_⟩
    by_cases h : i = e
    · subst h
      simp [setWobj]
    · simp [setWobj, h]

theorem waitObjReset_same (x : Entry) : SameTasks s (s.waitObjReset x) := by
  unfold waitObjReset
  split
  · have h := setWobj_same (s := s) ⟨false, .none, none⟩ x
    exact ⟨h.curr, h.state, h.elem⟩
  · exact ⟨rfl, fun _ => rfl, fun _ => rfl⟩

theorem signalLost_same (x : Entry) : SameTasks s (s.signalLost x) := by
  cases x with
  | task t => exact ⟨rfl, fun _ => rfl, fun _ => rfl⟩
  | elem e => exact waitObjReset_same _

theorem cancelTimer_same (x : Entry) : SameTasks s (s.cancelTimer x) := by
  cases x with
  | elem e => exact ⟨rfl, fun _ => rfl, fun _ => rfl⟩
  | task t =>
    rw [cancelTimer, taskCancelWakeupTimer]
    split
    · have h : SameTasks s (s.setTask t fun x => { x with timerReady := false, ticksBeforeWakeUp := 0 }) := setTask_same rfl
      exact ⟨h.curr, h.state, h.elem⟩
    · exact ⟨rfl, fun _ => rfl, fun _ => rfl⟩

/-- Of the tasks with `p` those that sleep are made runnable, unless it is the current one, and nothing else changes. -/
structure Wakes (p : Tid → Prop) (s s' : State) : Prop where
  curr : s'.currTask = s.currTask
  woken : ∀ u, p u → (s.task u).state = .sleeping → u ≠ s.currTask → (s'.task u).state = .runnable
  other : ∀ u, ¬(p u ∧ (s.task u).state = .sleeping) → (s'.task u).state = (s.task u).state
  elem : ∀ e, (s'.elem e).ti = (s.elem e).ti

theorem Wakes.ti {p : Tid → Prop} {s' : State} (h : Wakes p s s') (x : Entry) : s'.ti x = s.ti x := by
  cases x with
  | task t => rfl
  | elem e => exact h.elem e

theorem wakeUp_wakes (t : Tid) (ht : (s.task t).state = .sleeping) : Wakes (· = t) s (s.wakeUp t) := by
  have h := waitObjReset_same (s := s) (.task t)
  unfold wakeUp
  split
  · rename_i hcurr
    exact ⟨h.curr, fun u hu _ hne => absurd (hu.trans hcurr) hne, fun u _ => h.state u, h.elem⟩
  · refine ⟨h.curr, fun u hu _ _ => ?_, fun u hu => ?_, h.elem⟩
    · subst hu
      simp [taskChangeState, setTask]
    · have hne : u ≠ t := fun e => hu ⟨e, e ▸ ht⟩
      simpa [taskChangeState, setTask, hne] using h.state u

/-- **One entry**: its task is woken if it sleeps. -/
theorem kcondSignalInt_wakes (x : Entry) : Wakes (fun u => s.ti x = some u) s (s.kcondSignalInt x) := by
  have hlost : (∀ u, s.ti x = some u → (s.task u).state ≠ .sleeping) →
      Wakes (fun u => s.ti x = some u) s (s.signalLost x) := fun hno => by
    have h := signalLost_same (s := s) x
    exact ⟨h.curr, fun u hu hsl => absurd hsl (hno u hu), fun u _ => h.state u, h.elem⟩
  unfold kcondSignalInt
  split
  · rename_i hti
    exact hlost fun u hu => by rw [hti] at hu; cases hu
  · rename_i t hti
    split
    · rename_i hsl
      exact hlost fun u hu => Option.some.inj (hti.symm.trans hu) ▸ hsl
    · rename_i hsl
      have hsl := not_not.mp hsl
      have h := (cancelTimer_same (s := s) x).trans (waitObjReset_same x)
      have hw := wakeUp_wakes t ((h.state t).trans hsl)
      refine ⟨hw.curr.trans h.curr, fun u hu hs hne => ?_, fun u hu => ?_, fun e => (hw.elem e).trans (h.elem e)⟩
      · exact hw.woken u (Option.some.inj (hu.symm.trans hti)) ((h.state u).trans hs) (by rwa [h.curr])
      · rw [hw.other u fun hp => hu ⟨by rw [hti, hp.1], (h.state u).symm.trans hp.2⟩, h.state]

/-- **A list of entries**: their tasks are woken if they sleep. -/
theorem foldl_kcondSignalInt_wakes (xs : List Entry) :
    Wakes (fun u => ∃ x ∈ xs, s.ti x = some u) s (xs.foldl kcondSignalInt s) := by
  induction xs generalizing s with
  | nil => exact ⟨rfl, by simp, fun _ _ => rfl, fun _ => rfl⟩
  | cons x xs ih =>
    have h₁ := kcondSignalInt_wakes (s := s) x
    have h₂ := ih (s := s.kcondSignalInt x)
    have hrest : ∀ u, (∃ y ∈ xs, (s.kcondSignalInt x).ti y = some u) ↔ ∃ y ∈ xs, s.ti y = some u := fun u => by
      simp only [h₁.ti]
    refine ⟨h₂.curr.trans h₁.curr, fun u hu hsl hne => ?_, fun u hu => ?_, fun e => (h₂.elem e).trans (h₁.elem e)⟩
    · by_cases hx : s.ti x = some u
      · -- a task that was woken stays runnable
        have hr := h₁.woken u hx hsl hne
        have hkept := h₂.other u fun hp => by simp [hr] at hp
        exact hkept.trans hr
      · obtain ⟨y, hy, hyu⟩ := hu
        have hy' : y ∈ xs := (List.mem_cons.mp hy).resolve_left fun e => hx (e ▸ hyu)
        have hstate := h₁.other u fun hp => hx hp.1
        exact h₂.woken u ((hrest u).2 ⟨y, hy', hyu⟩) (hstate.trans hsl) (by rwa [h₁.curr])
    · have hx := h₁.other u fun hp => hu ⟨⟨x, List.mem_cons_self, hp.1⟩, hp.2⟩
      rw [List.foldl_cons, h₂.other u fun hp => ?_, hx]
      obtain ⟨y, hy, hyu⟩ := (hrest u).1 hp.1
      exact hu ⟨⟨y, List.mem_cons_of_mem _ hy, hyu⟩, hx ▸ hp.2⟩

/-! ## Who is woken -/

def AsleepOn (s : State) (c : Nat) (t : Tid) : Prop :=
  (s.task t).state = .sleeping ∧ (.task t ∈ s.waitList (.cond c) ∨
    (s.task t).wobj.type = .mwoWaiter ∧ ∃ e, .elem e ∈ s.waitList (.cond c) ∧ (s.elem e).ti = some t)

/-- The first entry of the list is of a task that sleeps on the condition. -/
def FirstAsleep (s : State) (c : Nat) : Prop :=
  ∃ x xs t, s.waitList (.cond c) = x :: xs ∧ s.ti x = some t ∧ s.AsleepOn c t

theorem AsleepOn.entry {c : Nat} {t : Tid} (h : s.AsleepOn c t) : ∃ x ∈ s.waitList (.cond c), s.ti x = some t := by
  rcases h.2 with hx | ⟨-, e, he, ht⟩
  · exact ⟨_, hx, rfl⟩
  · exact ⟨_, he, ht⟩

theorem kcondSignalOne_other {c : Nat} {t u : Tid} (ht : ((s.kcondSignalOne c).task t).state ≠ (s.task t).state)
    (hu : u ≠ t) : ((s.kcondSignalOne c).task u).state = (s.task u).state := by
  unfold kcondSignalOne at ht ⊢
  split at ht
  · exact absurd rfl ht
  · rename_i x xs _
    have hw := kcondSignalInt_wakes (s := s) x
    have hx : s.ti x = some t := by
      by_contra hx
      exact ht (hw.other t fun hp => hx hp.1)
    exact hw.other u fun hp => hu (Option.some.inj (hp.1.symm.trans hx))

/-- **The signals of a condition**, sent by a task that does not sleep: if tasks are asleep on the condition,
`kcond_signal_one` wakes one of them exactly if the first entry of the list is of such a task, and it changes the state of
no other task; `kcond_signal_all` wakes all of them. -/
theorem kcond_signal_wakes (s : State) (c : Nat) (hcurr : (s.task s.currTask).state ≠ .sleeping) :
    (((∃ t, s.AsleepOn c t) → ∃ t, s.AsleepOn c t ∧ ((s.kcondSignalOne c).task t).state = .runnable) ↔
      ((∃ t, s.AsleepOn c t) → s.FirstAsleep c)) ∧
    (∀ t u, ((s.kcondSignalOne c).task t).state ≠ (s.task t).state → u ≠ t →
      ((s.kcondSignalOne c).task u).state = (s.task u).state) ∧
    ∀ t, s.AsleepOn c t → ((s.kcondSignalAll c).task t).state = .runnable := by
  have hne : ∀ t, s.AsleepOn c t → t ≠ s.currTask := fun t ht e => hcurr (e ▸ ht.1)
  refine ⟨⟨fun hone hex => ?_, fun hfirst hex => ?_⟩, fun t u => kcondSignalOne_other, fun t ht => ?_⟩
  · obtain ⟨t, ht, hr⟩ := hone hex
    unfold kcondSignalOne at hr
    split at hr
    · rw [ht.1] at hr
      cases hr
    · rename_i x xs hlist
      by_cases hx : s.ti x = some t
      · exact ⟨x, xs, t, hlist, hx, ht⟩
      · rw [(kcondSignalInt_wakes x).other t fun hp => hx hp.1, ht.1] at hr
        cases hr
  · obtain ⟨x, xs, t, hlist, hx, ht⟩ := hfirst hex
    refine ⟨t, ht, ?_⟩
    unfold kcondSignalOne
    rw [hlist]
    exact (kcondSignalInt_wakes x).woken t hx ht.1 (hne t ht)
  · exact (foldl_kcondSignalInt_wakes _).woken t ht.entry ht.1 (hne t ht)

/-! ## A signal that is lost -/

def init : State where
  currTask := 0
  task := fun _ => ⟨.runnable, ⟨false, .none, none⟩, 0, false, false, false⟩
  elem := fun _ => ⟨⟨false, .none, none⟩, none, .none⟩
  waitList := fun _ => []
  timerWakeupList := []

/-- Task 1 waits for at most one tick and task 2 without a limit; the timer ticks, and task 3 runs. -/
def expired : State :=
  (((((init.switchToTask 1).kcondWait 0 1).switchToTask 2).kcondWait 0 0).tickAllTimers).switchToTask 3

/-- Task 1 waits on many objects and task 2 on the condition only; task 3 runs and sends a signal to task 1. -/
def interrupted : State :=
  let s := (((init.switchToTask 1).mobjWaiterSet 0 .kcond (.cond 0)).prepareToWaitOnMultiObj.switchToTask 2).kcondWait 0 0
  (s.switchToTask 3).signalWakeupTask 1

theorem expired_waits : expired.AsleepOn 0 2 ∧ (expired.task expired.currTask).state ≠ .sleeping :=
  ⟨⟨by decide, Or.inl (by decide)⟩, by decide⟩

/-- Task 3 signals all. -/
theorem kcond_signal_wakes_expired : expired.AsleepOn 0 2 ∧ ((expired.kcondSignalAll 0).task 2).state = .runnable :=
  ⟨expired_waits.1, (kcond_signal_wakes expired 0 expired_waits.2).2.2 2 expired_waits.1⟩

/-- Task 3 signals one: the first entry is of task 1, whose timer has expired or which got a signal, and task 2 is not
woken. -/
theorem kcond_signal_one_lost :
    (expired.AsleepOn 0 2 ∧ ¬∃ t, expired.AsleepOn 0 t ∧ ((expired.kcondSignalOne 0).task t).state = .runnable) ∧
    interrupted.AsleepOn 0 2 ∧
      ¬∃ t, interrupted.AsleepOn 0 t ∧ ((interrupted.kcondSignalOne 0).task t).state = .runnable := by
  refine ⟨⟨expired_waits.1, fun ⟨t, ht, hr⟩ => ?_⟩, ⟨by decide, Or.inl (by decide)⟩, fun ⟨t, ht, hr⟩ => ?_⟩
  · have hsame : expired.kcondSignalOne 0 = expired := rfl
    rw [hsame, ht.1] at hr
    cases hr
  · have hsame : interrupted.kcondSignalOne 0 = interrupted.waitObjReset (.elem 0) := rfl
    rw [hsame, (waitObjReset_same _).state, ht.1] at hr
    cases hr

end State

end Usax.Sync.Kcond
