import Usax.Lib.Runs
import Mathlib.Data.List.Nodup
import Usax.Sync.Kcond

/-!
# Wake-up timers

The functions of `timer.c` that arm, change and cancel the timer of a task, and the tick that counts all of them down, each
of them with interrupts disabled; in between tasks change their state and are switched to. The timers are those of
`Kcond.State`.

* `TimerReached.timers`: a task is in the list once if its counter is positive, and not at all otherwise.
* `TimerReached.timer_contract`: a timer that is armed with `n` ticks fires at the `n`-th tick only; after a cancellation
  that comes before the expiry there is no timer and no expiry to be seen.
* `cancel_after_expiry`: a cancellation that comes later leaves `timer_ready` set.
-/

namespace Usax.Sync.Kcond.State

/-! ## Steps -/

def taskUpdateWakeupTimerIfAny (s : State) (t : Tid) (newTicks : Nat) : State :=
  if 0 < (s.task t).ticksBeforeWakeUp then s.setTask t fun x => { x with ticksBeforeWakeUp := newTicks } else s

/-- The calls, with the changes of the state of a task by other parts of the kernel. -/
inductive TimerEv
  | set (t : Tid) (ticks : Nat)
  | update (t : Tid) (ticks : Nat)
  | cancel (t : Tid)
  | tick
  | change (t : Tid) (state : TaskState)
  | switch (t : Tid)
deriving DecidableEq

/-- One step; a timer is armed with a positive number of ticks. -/
def timerExec (s : State) : TimerEv → Option State
  | .set t ticks => if 0 < ticks then some (s.taskSetWakeupTimer t ticks) else none
  | .update t ticks => if 0 < ticks then some (s.taskUpdateWakeupTimerIfAny t ticks) else none
  | .cancel t => some (s.taskCancelWakeupTimer t)
  | .tick => some s.tickAllTimers
  | .change t state => some (s.taskChangeState t state)
  | .switch t => some (s.switchToTask t)

def NoTimers (s : State) : Prop := s.timerWakeupList = [] ∧ ∀ t, (s.task t).ticksBeforeWakeUp = 0

def TimerReached : State → Prop := Lib.Reached NoTimers timerExec fun _ _ => True

/-- The step is not a call for the timer of the task. -/
def TimerEv.spares (t : Tid) : TimerEv → Bool
  | .set u _ | .update u _ | .cancel u => u ≠ t
  | _ => true

/-- The step does not arm a timer of the task. -/
def TimerEv.arms (t : Tid) : TimerEv → Bool
  | .set u _ => u = t
  | _ => false

def ticksOf (evs : List TimerEv) : Nat := evs.countP (· = .tick)

/-! ## The list of the timers -/

variable {s s' : State} {t u : Tid} {n : Nat} {e : TimerEv} {evs : List TimerEv}

/-- The timers that run are the ones in the list. -/
structure Timers (s : State) : Prop where
  nodup : s.timerWakeupList.Nodup
  mem : ∀ t, t ∈ s.timerWakeupList ↔ 0 < (s.task t).ticksBeforeWakeUp

/-- A task at a tick at which its timer runs. -/
def ticked (x : Task) : Task :=
  if x.ticksBeforeWakeUp = 1 then
    { x with ticksBeforeWakeUp := 0, timerReady := true, state := if x.state = .sleeping then .runnable else x.state }
  else { x with ticksBeforeWakeUp := x.ticksBeforeWakeUp - 1 }

theorem ticked_ticks (x : Task) : (ticked x).ticksBeforeWakeUp = x.ticksBeforeWakeUp - 1 := by
  by_cases h : x.ticksBeforeWakeUp = 1 <;> simp [ticked, h]

theorem ticked_last {x : Task} (h : x.ticksBeforeWakeUp = 1) : (ticked x).timerReady = true ∧
    (x.state = .sleeping → (ticked x).state = .runnable) := by
  rw [ticked, if_pos h]
  exact ⟨rfl, fun hs => if_pos hs⟩

theorem ticked_other {x : Task} (h : x.ticksBeforeWakeUp ≠ 1) :
    (ticked x).timerReady = x.timerReady ∧ (ticked x).state = x.state := by
  rw [ticked, if_neg h]
  exact ⟨rfl, rfl⟩

@[simp] theorem setTask_self (f : Task → Task) : (s.setTask t f).task t = f (s.task t) := Function.update_self ..

@[simp] theorem setTask_of_ne (f : Task → Task) (h : u ≠ t) : (s.setTask t f).task u = s.task u :=
  Function.update_of_ne h ..

theorem tickTimer_task (hpos : 0 < (s.task t).ticksBeforeWakeUp) :
    (s.tickTimer t).task = Function.update s.task t (ticked (s.task t)) := by
  unfold tickTimer ticked
  by_cases h : (s.task t).ticksBeforeWakeUp = 1
  · rw [if_pos (by omega), if_pos h]
    rfl
  · rw [if_neg (by omega), if_neg h]
    rfl

theorem tickTimer_list (hpos : 0 < (s.task t).ticksBeforeWakeUp) (hnd : s.timerWakeupList.Nodup) :
    (s.tickTimer t).timerWakeupList =
      s.timerWakeupList.filter fun u => ¬(u = t ∧ (s.task t).ticksBeforeWakeUp = 1) := by
  unfold tickTimer
  by_cases h : (s.task t).ticksBeforeWakeUp = 1
  · rw [if_pos (by omega)]
    simp only [h, and_true, hnd.erase_eq_filter]
    refine List.filter_congr fun x _ => ?_
    by_cases hx : x = t <;> simp [hx]
  · rw [if_neg (by omega)]
    simp [h, setTask]

theorem foldl_tickTimer {l : List Tid} (hl : l.Nodup) (hnd : s.timerWakeupList.Nodup)
    (hpos : ∀ u ∈ l, 0 < (s.task u).ticksBeforeWakeUp) :
    (∀ u, (l.foldl tickTimer s).task u = if u ∈ l then ticked (s.task u) else s.task u) ∧
    (l.foldl tickTimer s).timerWakeupList =
      s.timerWakeupList.filter fun u => ¬(u ∈ l ∧ (s.task u).ticksBeforeWakeUp = 1) := by
  induction l generalizing s with
  | nil => simp
  | cons t l ih =>
    obtain ⟨htl, hl⟩ := List.nodup_cons.mp hl
    have htask := tickTimer_task (hpos t List.mem_cons_self)
    have hlist := tickTimer_list (hpos t List.mem_cons_self) hnd
    have hsame : ∀ u ∈ l, (s.tickTimer t).task u = s.task u := by
      intro u hu
      have hut : u ≠ t := fun h => htl (h ▸ hu)
      rw [htask, Function.update_of_ne hut]
    obtain ⟨ihtask, ihlist⟩ := @ih (s.tickTimer t) hl (hlist ▸ hnd.filter _) fun u hu => by
      rw [hsame u hu]
      exact hpos u (List.mem_cons_of_mem _ hu)
    rw [List.foldl_cons]
    refine ⟨fun u => ?_, ?_⟩
    · rw [ihtask u]
      by_cases hu : u ∈ l
      · rw [if_pos hu, if_pos (List.mem_cons_of_mem _ hu), hsame u hu]
      · rw [if_neg hu, htask]
        by_cases hut : u = t
        · subst hut
          simp
        · simp [hut, hu]
    · rw [ihlist, hlist, List.filter_filter]
      refine List.filter_congr fun u _ => ?_
      by_cases hu : u ∈ l
      · have hut : u ≠ t := fun h => htl (h ▸ hu)
        simp [hu, hut, hsame u hu]
      · by_cases hut : u = t
        · subst hut
          simp [hu]
        · simp [hut, hu]

theorem Timers.tick (h : s.Timers) :
    (∀ u, s.tickAllTimers.task u = if 0 < (s.task u).ticksBeforeWakeUp then ticked (s.task u) else s.task u) ∧
    s.tickAllTimers.timerWakeupList = s.timerWakeupList.filter fun u => (s.task u).ticksBeforeWakeUp ≠ 1 := by
  obtain ⟨htask, hlist⟩ := foldl_tickTimer h.nodup h.nodup fun u hu => (h.mem u).mp hu
  refine ⟨fun u => by rw [tickAllTimers, htask u]; simp only [h.mem u], ?_⟩
  rw [tickAllTimers, hlist]
  exact List.filter_congr fun u hu => by simp [hu]

theorem Timers.setTask (h : s.Timers) {f : Task → Task}
    (hf : 0 < (f (s.task t)).ticksBeforeWakeUp ↔ 0 < (s.task t).ticksBeforeWakeUp) : (s.setTask t f).Timers := by
  refine ⟨h.nodup, fun u => (h.mem u).trans ?_⟩
  by_cases hu : u = t
  · subst hu
    rw [setTask_self, hf]
  · rw [setTask_of_ne f hu]

theorem Timers.set (h : s.Timers) (hn : 0 < n) : (s.taskSetWakeupTimer t n).Timers := by
  by_cases h₀ : (s.task t).ticksBeforeWakeUp = 0
  · have hnot : t ∉ s.timerWakeupList := fun hc => by have := (h.mem t).mp hc; omega
    have hlist : (s.taskSetWakeupTimer t n).timerWakeupList = s.timerWakeupList ++ [t] := if_pos h₀
    refine ⟨by rw [hlist]; exact List.nodup_append.mpr ⟨h.nodup, List.nodup_singleton _, by grind⟩, fun u => ?_⟩
    rw [hlist, List.mem_append, List.mem_singleton, h.mem u]
    by_cases hu : u = t
    · subst hu
      simp [taskSetWakeupTimer, hn]
    · simp [taskSetWakeupTimer, hu]
  · have heq : s.taskSetWakeupTimer t n = s.setTask t fun x => { x with ticksBeforeWakeUp := n } := by
      simp [taskSetWakeupTimer, h₀, State.setTask]
    rw [heq]
    exact h.setTask (by dsimp only; omega)

theorem Timers.cancel (h : s.Timers) : (s.taskCancelWakeupTimer t).Timers := by
  unfold taskCancelWakeupTimer
  split_ifs with hpos
  · refine ⟨h.nodup.erase t, fun u => ?_⟩
    rw [h.nodup.mem_erase_iff, h.mem u]
    by_cases hu : u = t
    · subst hu
      simp
    · simp [hu]
  · exact h

theorem Timers.tickAll (h : s.Timers) : s.tickAllTimers.Timers := by
  obtain ⟨htask, hlist⟩ := h.tick
  refine ⟨hlist ▸ h.nodup.filter _, fun u => ?_⟩
  rw [hlist, htask u, List.mem_filter, h.mem u, decide_eq_true_eq]
  split_ifs with hpos
  · rw [ticked_ticks]
    omega
  · exact ⟨fun h => h.1, fun h => absurd h hpos⟩

theorem Timers.step (h : s.Timers) (he : s.timerExec e = some s') : s'.Timers := by
  cases e with
  | set t n =>
    obtain ⟨hn, ⟨⟩⟩ := Option.ite_none_right_eq_some.mp he
    exact h.set hn
  | update t n =>
    obtain ⟨hn, ⟨⟩⟩ := Option.ite_none_right_eq_some.mp he
    unfold taskUpdateWakeupTimerIfAny
    split_ifs with hpos
    · exact h.setTask (by dsimp only; omega)
    · exact h
  | cancel t =>
    obtain rfl := Option.some.inj he
    exact h.cancel
  | tick =>
    obtain rfl := Option.some.inj he
    exact h.tickAll
  | change t state =>
    obtain rfl := Option.some.inj he
    exact h.setTask Iff.rfl
  | switch t =>
    obtain rfl := Option.some.inj he
    have := @Timers.setTask s t h (fun x => { x with state := .running, timerReady := false }) Iff.rfl
    exact ⟨this.nodup, this.mem⟩

theorem TimerReached.timers (h : TimerReached s) : s.Timers :=
  Lib.Reached.invariant (fun s h₀ => ⟨by rw [h₀.1]; exact List.nodup_nil, fun t => by simp [h₀.1, h₀.2 t]⟩)
    (fun _ _ _ hs _ he => hs.step he) h

theorem Timers.execs (h : s.Timers) (he : Lib.execs timerExec s evs = some s') : s'.Timers := by
  induction evs generalizing s with
  | nil => exact Option.some.inj he ▸ h
  | cons e evs ih =>
    obtain ⟨s₁, he₁, he⟩ := Option.bind_eq_some_iff.mp he
    exact ih (h.step he₁) he

/-! ## One timer -/

theorem tickAllTimers_ticks (h : s.Timers) :
    (s.tickAllTimers.task t).ticksBeforeWakeUp = (s.task t).ticksBeforeWakeUp - 1 := by
  rw [h.tick.1 t]
  split_ifs with hpos
  · exact ticked_ticks _
  · omega

theorem Timers.ticks_step (h : s.Timers) (he : s.timerExec e = some s') (hsp : e.spares t) :
    (s'.task t).ticksBeforeWakeUp = (s.task t).ticksBeforeWakeUp - if e = .tick then 1 else 0 := by
  have hne {u : Tid} (hu : (decide (u ≠ t)) = true) : t ≠ u := fun h => by simp [h] at hu
  cases e with
  | set u n =>
    obtain ⟨-, ⟨⟩⟩ := Option.ite_none_right_eq_some.mp he
    simp [taskSetWakeupTimer, hne hsp]
  | update u n =>
    obtain ⟨-, ⟨⟩⟩ := Option.ite_none_right_eq_some.mp he
    by_cases hpos : 0 < (s.task u).ticksBeforeWakeUp <;> simp [taskUpdateWakeupTimerIfAny, hpos, hne hsp]
  | cancel u =>
    obtain rfl := Option.some.inj he
    by_cases hpos : 0 < (s.task u).ticksBeforeWakeUp <;> simp [taskCancelWakeupTimer, hpos, hne hsp]
  | tick =>
    obtain rfl := Option.some.inj he
    exact tickAllTimers_ticks h
  | change u state =>
    obtain rfl := Option.some.inj he
    by_cases hu : t = u <;> simp [taskChangeState, hu]
  | switch u =>
    obtain rfl := Option.some.inj he
    by_cases hu : t = u <;> simp [switchToTask, hu]

theorem Timers.ticks_execs (h : s.Timers) (he : Lib.execs timerExec s evs = some s') (hsp : ∀ e ∈ evs, e.spares t) :
    (s'.task t).ticksBeforeWakeUp = (s.task t).ticksBeforeWakeUp - ticksOf evs := by
  induction evs generalizing s with
  | nil => simp [← Option.some.inj he, ticksOf]
  | cons e evs ih =>
    obtain ⟨s₁, he₁, he⟩ := Option.bind_eq_some_iff.mp he
    rw [ih (h.step he₁) he fun e' h' => hsp e' (List.mem_cons_of_mem _ h'), h.ticks_step he₁ (hsp e List.mem_cons_self),
      ticksOf, ticksOf, List.countP_cons]
    by_cases htick : e = .tick <;> simp [htick]
    omega

theorem Timers.quiet_step (h : s.Timers) (he : s.timerExec e = some s') (ha : e.arms t = false)
    (hq : (s.task t).ticksBeforeWakeUp = 0 ∧ (s.task t).timerReady = false) :
    (s'.task t).ticksBeforeWakeUp = 0 ∧ (s'.task t).timerReady = false := by
  cases e with
  | set u n =>
    obtain ⟨-, ⟨⟩⟩ := Option.ite_none_right_eq_some.mp he
    have hu : t ≠ u := fun h => by simp [TimerEv.arms, h] at ha
    simpa [taskSetWakeupTimer, hu] using hq
  | update u n =>
    obtain ⟨-, ⟨⟩⟩ := Option.ite_none_right_eq_some.mp he
    unfold taskUpdateWakeupTimerIfAny
    split_ifs with hpos
    · have hu : t ≠ u := by rintro rfl; omega
      simpa [hu] using hq
    · exact hq
  | cancel u =>
    obtain rfl := Option.some.inj he
    unfold taskCancelWakeupTimer
    split_ifs
    · by_cases hu : t = u <;> simp [hu, hq]
    · exact hq
  | tick =>
    obtain rfl := Option.some.inj he
    rw [h.tick.1 t, if_neg (by omega)]
    exact hq
  | change u state =>
    obtain rfl := Option.some.inj he
    by_cases hu : t = u <;> simpa [taskChangeState, hu] using hq
  | switch u =>
    obtain rfl := Option.some.inj he
    by_cases hu : t = u
    · subst hu
      simp [switchToTask, hq]
    · simpa [switchToTask, hu] using hq

theorem Timers.quiet_execs (h : s.Timers) (he : Lib.execs timerExec s evs = some s') (ha : ∀ e ∈ evs, e.arms t = false)
    (hq : (s.task t).ticksBeforeWakeUp = 0 ∧ (s.task t).timerReady = false) :
    (s'.task t).ticksBeforeWakeUp = 0 ∧ (s'.task t).timerReady = false := by
  induction evs generalizing s with
  | nil => exact Option.some.inj he ▸ hq
  | cons e evs ih =>
    obtain ⟨s₁, he₁, he⟩ := Option.bind_eq_some_iff.mp he
    exact ih (h.step he₁) he (fun e' h' => ha e' (List.mem_cons_of_mem _ h'))
      (h.quiet_step he₁ (ha e List.mem_cons_self) hq)

/-- **The contract of the timers.** -/
theorem TimerReached.timer_contract (h : TimerReached s) (t : Tid) :
    -- the list
    s.timerWakeupList.count t = (if 0 < (s.task t).ticksBeforeWakeUp then 1 else 0) ∧
    -- the n-th tick, and no other one, after the timer was armed
    (∀ n s₁ evs s₂, s.timerExec (.set t n) = some s₁ → Lib.execs timerExec s₁ evs = some s₂ → (∀ e ∈ evs, e.spares t) →
      (s₂.task t).ticksBeforeWakeUp = n - ticksOf evs ∧
      if ticksOf evs + 1 = n then
        (s₂.tickAllTimers.task t).timerReady = true ∧ t ∉ s₂.tickAllTimers.timerWakeupList ∧
        ((s₂.task t).state = .sleeping → (s₂.tickAllTimers.task t).state = .runnable)
      else (s₂.tickAllTimers.task t).timerReady = (s₂.task t).timerReady ∧
        (s₂.tickAllTimers.task t).state = (s₂.task t).state) ∧
    -- a cancellation
    (s.taskCancelWakeupTimer t).task t = { s.task t with
      ticksBeforeWakeUp := 0
      timerReady := if 0 < (s.task t).ticksBeforeWakeUp then false else (s.task t).timerReady } ∧
    (0 < (s.task t).ticksBeforeWakeUp ∨ (s.task t).timerReady = false →
      ∀ evs s₂, Lib.execs timerExec (s.taskCancelWakeupTimer t) evs = some s₂ → (∀ e ∈ evs, e.arms t = false) →
        t ∉ s₂.timerWakeupList ∧ (s₂.task t).ticksBeforeWakeUp = 0 ∧ (s₂.task t).timerReady = false) := by
  have hi := h.timers
  have hcancel : (s.taskCancelWakeupTimer t).task t = { s.task t with
      ticksBeforeWakeUp := 0
      timerReady := if 0 < (s.task t).ticksBeforeWakeUp then false else (s.task t).timerReady } := by
    unfold taskCancelWakeupTimer
    split_ifs with hpos
    · simp
    · have h₀ : (s.task t).ticksBeforeWakeUp = 0 := by omega
      simp [← h₀]
  refine ⟨?_, fun n s₁ evs s₂ hset hrun hsp => ?_, hcancel, fun hready evs s₂ hrun ha => ?_⟩
  · rw [hi.nodup.count]
    simp only [hi.mem t]
  · have h₁ := hi.step hset
    have h₂ := h₁.execs hrun
    have hn : 0 < n ∧ (s₁.task t).ticksBeforeWakeUp = n := by
      obtain ⟨hn, ⟨⟩⟩ := Option.ite_none_right_eq_some.mp hset
      exact ⟨hn, by simp [taskSetWakeupTimer]⟩
    have hticks := h₁.ticks_execs hrun hsp
    rw [hn.2] at hticks
    refine ⟨hticks, ?_⟩
    rw [h₂.tick.1 t, h₂.tick.2]
    split_ifs with hlast hpos hpos
    · have hone : (s₂.task t).ticksBeforeWakeUp = 1 := by omega
      exact ⟨(ticked_last hone).1, by simp [hone], (ticked_last hone).2⟩
    · omega
    · exact ticked_other (by omega)
    · exact ⟨rfl, rfl⟩
  · have hq : ((s.taskCancelWakeupTimer t).task t).ticksBeforeWakeUp = 0 ∧
        ((s.taskCancelWakeupTimer t).task t).timerReady = false := by
      rw [hcancel]
      refine ⟨rfl, ?_⟩
      dsimp only
      split_ifs with hpos
      · rfl
      · exact hready.resolve_left hpos
    have h₂ := hi.cancel.execs hrun
    obtain ⟨hzero, hnot⟩ := hi.cancel.quiet_execs hrun ha hq
    exact ⟨fun hc => by have := (h₂.mem t).mp hc; omega, hzero, hnot⟩

/-- Before any timer, with the task 1 asleep. -/
def timersInit : State where
  currTask := 0
  task := fun t => ⟨if t = 1 then .sleeping else .running, ⟨false, .none, none⟩, 0, false, false, false⟩
  elem := fun _ => ⟨⟨false, .none, none⟩, none, .none⟩
  waitList := fun _ => []
  timerWakeupList := []

/-- The timer of task 2 is armed. -/
def armed : State := timersInit.taskSetWakeupTimer 2 3

/-- Task 1 arms its timer with two ticks, and the timer of task 2 is cancelled after the first of them, or before. -/
theorem timer_contract_two : TimerReached armed ∧ armed.timerWakeupList.count 2 = 1 ∧
    (∃ s, Lib.execs timerExec armed [.set 1 2, .tick, .cancel 2] = some s ∧ (s.task 1).ticksBeforeWakeUp = 1 ∧
      (s.tickAllTimers.task 1).state = .runnable) ∧
    ∃ s, Lib.execs timerExec armed [.cancel 2, .set 1 1, .tick] = some s ∧ 2 ∉ s.timerWakeupList ∧
      (s.task 2).timerReady = false := by
  have h₀ : TimerReached timersInit := .start ⟨rfl, fun _ => rfl⟩
  have h : TimerReached armed := h₀.step (l := .set 2 3) trivial rfl
  have hset := (h.timer_contract 1).2.1 2 _ [.tick, .cancel 2] _ rfl rfl (by simp [TimerEv.spares])
  have hcancel := (h.timer_contract 2).2.2.2 (.inl (by decide)) [.set 1 1, .tick] _ rfl (by simp [TimerEv.arms])
  exact ⟨h, (h.timer_contract 2).1, ⟨_, rfl, hset.1, hset.2.2.2 rfl⟩, _, rfl, hcancel.1, hcancel.2.2⟩

/-- **A stale expiry.** A timer that is cancelled after it has fired leaves `timer_ready` set. -/
theorem cancel_after_expiry :
    (Lib.execs timerExec timersInit [.set 1 1, .tick, .cancel 1]).map (fun s => (s.task 1).timerReady) = some true := by
  decide

end Usax.Sync.Kcond.State
