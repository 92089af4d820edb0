import Mathlib.Data.List.Nodup
import Mathlib.Data.List.Sort
import Usax.Common.Errno
import Usax.Lib.Runs

/-!
# Process groups and sessions

`sys_setsid` and `sys_setpgid` of `kernel/process.c`, with the functions of `sched.c` that go through all tasks, and what
`fork`, `execve`, `exit` and the removal of a zombie do to the process group and the session of a process. The processes
are the main threads of the task tree, by their numbers; kernel threads are in the group 0, which no process has.
-/

namespace Usax.Proc

open Common

/-- The fields of `struct process` and `struct task` that are used here. -/
structure Member where
  pid : Int
  pgid : Int
  sid : Int
  didCallExecve : Bool
  zombie : Bool
deriving DecidableEq, Repr

/-- The processes in the task tree, in the order of a visit; zombies too. -/
structure Table where
  tasks : List Member
deriving DecidableEq, Repr

namespace Table

def getProcess (s : Table) (pid : Int) : Option Member := s.tasks.find? fun p => p.pid = pid

def modify (s : Table) (pid : Int) (f : Member → Member) : Table :=
  ⟨s.tasks.map fun p => if p.pid = pid then f p else p⟩

def schedCountProcInGroup (s : Table) (pgid : Int) : Nat := s.tasks.countP fun p => p.pgid = pgid

def schedGetSessionOfGroup (s : Table) (pgid : Int) : Int :=
  match s.tasks.find? fun p => p.pgid = pgid with
  | some p => p.sid
  | none => -Errno.esrch.code

def sysSetsid (s : Table) (curr : Member) : Except Errno Table :=
  if s.schedCountProcInGroup curr.pid = 0 then
    .ok (s.modify curr.pid fun p => { p with pgid := p.pid, sid := p.pid })
  else .error .eperm

/-- The process that `sys_setpgid` is about. -/
def setpgidTarget (s : Table) (curr : Member) (pid : Int) : Except Errno Member :=
  if pid = 0 then .ok curr
  else
    match s.getProcess pid with
    | none => .error .esrch
    | some pi =>
      if pi.didCallExecve then .error .eacces
      else if pi.sid ≠ curr.sid then .error .eperm
      else .ok pi

def sysSetpgid (s : Table) (curr : Member) (pid pgid : Int) : Except Errno Table :=
  if pgid < 0 then .error .einval
  else
    match s.setpgidTarget curr pid with
    | .error e => .error e
    | .ok pi =>
      if pgid ≠ 0 then
        let sid := s.schedGetSessionOfGroup pgid
        if 0 ≤ sid ∧ sid ≠ pi.sid then .error .eperm
        else .ok (s.modify pi.pid fun p => { p with pgid := pgid })
      else .ok (s.modify pi.pid fun p => { p with pgid := p.pid })

/-- The new process of a `fork`, with a number that no task has, in its place in the tree. -/
def fork (s : Table) (curr : Member) (pid : Int) : Table :=
  ⟨s.tasks.orderedInsert (fun p q => p.pid ≤ q.pid) { curr with pid := pid, didCallExecve := false }⟩

inductive Ev
  | fork (curr pid : Int)
  | execve (curr : Int)
  | exit (curr : Int)
  | reap (pid : Int)
  | setsid (curr : Int)
  | setpgid (curr pid pgid : Int)

/-- The process that makes a call, which has not terminated. -/
def live (s : Table) (curr : Int) : Option Member := (s.getProcess curr).filter fun p => !p.zombie

/-- One call. A call that returns an error leaves the processes as they are. -/
def exec (s : Table) : Ev → Option Table
  | .fork curr pid => (s.live curr).bind fun p => if 0 < pid ∧ s.getProcess pid = none then some (s.fork p pid) else none
  | .execve curr => (s.live curr).map fun p => s.modify p.pid fun p => { p with didCallExecve := true }
  | .exit curr => (s.live curr).map fun p => s.modify p.pid fun p => { p with zombie := true }
  | .reap pid => some ⟨s.tasks.filter fun p => ¬(p.pid = pid ∧ p.zombie)⟩
  | .setsid curr => (s.live curr).map fun p => (s.sysSetsid p).toOption.getD s
  | .setpgid curr pid pgid => (s.live curr).map fun p => (s.sysSetpgid p pid pgid).toOption.getD s

/-- `init`, after `setup_first_process`. -/
def init : Table := ⟨[⟨1, 1, 1, false, false⟩]⟩

def Reached (ok : Table → Ev → Prop) : Table → Prop := Lib.Reached (· = init) exec ok

/-- A process becomes the leader of its own group only when no process of another session is in that group. -/
def Ok (s : Table) : Ev → Prop
  | .setpgid curr pid pgid => pgid = 0 → ∀ p ∈ s.live curr, ∀ pi, s.setpgidTarget p pid = .ok pi →
      ∀ q ∈ s.tasks, q.pgid = pi.pid → q.sid = pi.sid
  | _ => True

/-! ## One session for each group -/

/-- Numbers are unique and positive, and a group is in one session. -/
structure Inv (s : Table) : Prop where
  nodup : (s.tasks.map (·.pid)).Nodup
  pid : ∀ p ∈ s.tasks, 0 < p.pid
  sid : ∀ p ∈ s.tasks, 0 ≤ p.sid
  group : ∀ p ∈ s.tasks, ∀ q ∈ s.tasks, p.pgid = q.pgid → p.sid = q.sid

variable {s s' : Table} {p q pi curr : Member} {pid : Int} {f : Member → Member}

theorem mem_of_getProcess (h : s.getProcess pid = some p) : p ∈ s.tasks ∧ p.pid = pid :=
  ⟨List.mem_of_find?_eq_some h, by simpa using List.find?_some h⟩

theorem mem_of_live (h : s.live pid = some p) : p ∈ s.tasks ∧ p.pid = pid :=
  mem_of_getProcess (Option.filter_eq_some_iff.mp h).1

theorem Inv.eq_of_pid (h : s.Inv) (hp : p ∈ s.tasks) (hq : q ∈ s.tasks) (heq : p.pid = q.pid) : p = q :=
  List.inj_on_of_nodup_map h.nodup hp hq heq

theorem mem_of_setpgidTarget (hc : curr ∈ s.tasks) (h : s.setpgidTarget curr pid = .ok pi) : pi ∈ s.tasks := by
  unfold setpgidTarget at h
  split_ifs at h
  · cases h
    exact hc
  · split at h
    · cases h
    · next hp =>
      split_ifs at h
      cases h
      exact (mem_of_getProcess hp).1

/-- A process changes, but not its number: what is to show is that it fits in with the others. -/
theorem Inv.modify (h : s.Inv) (hpid : ∀ p, (f p).pid = p.pid) (hsid : ∀ p ∈ s.tasks, p.pid = pid → 0 ≤ (f p).sid)
    (hgroup : ∀ p ∈ s.tasks, p.pid = pid → ∀ q ∈ s.tasks, q.pid ≠ pid → (f p).pgid = q.pgid → (f p).sid = q.sid) :
    (s.modify pid f).Inv := by
  have hmem {q : Member} (hq : q ∈ (s.modify pid f).tasks) :
      ∃ p ∈ s.tasks, p.pid = pid ∧ q = f p ∨ p.pid ≠ pid ∧ q = p := by
    obtain ⟨p, hp, rfl⟩ := List.mem_map.mp hq
    by_cases heq : p.pid = pid
    · exact ⟨p, hp, .inl ⟨heq, if_pos heq⟩⟩
    · exact ⟨p, hp, .inr ⟨heq, if_neg heq⟩⟩
  refine ⟨?_, fun q hq => ?_, fun q hq => ?_, fun q hq r hr heq => ?_⟩
  · have hpids : (s.modify pid f).tasks.map (·.pid) = s.tasks.map (·.pid) := by
      rw [Table.modify, List.map_map]
      refine List.map_congr_left fun p _ => ?_
      rw [Function.comp_apply]
      split_ifs
      · exact hpid p
      · rfl
    rw [hpids]
    exact h.nodup
  · obtain ⟨p, hp, ⟨-, rfl⟩ | ⟨-, rfl⟩⟩ := hmem hq
    · rw [hpid]
      exact h.pid p hp
    · exact h.pid q hp
  · obtain ⟨p, hp, ⟨hp', rfl⟩ | ⟨-, rfl⟩⟩ := hmem hq
    · exact hsid p hp hp'
    · exact h.sid q hp
  · obtain ⟨p, hp, ⟨hp', rfl⟩ | ⟨hp', rfl⟩⟩ := hmem hq <;> obtain ⟨u, hu, ⟨hu', rfl⟩ | ⟨hu', rfl⟩⟩ := hmem hr
    · rw [h.eq_of_pid hp hu (hp'.trans hu'.symm)]
    · exact hgroup p hp hp' _ hu hu' heq
    · exact (hgroup u hu hu' _ hp hp' heq.symm).symm
    · exact h.group _ hp _ hu heq

theorem Inv.modify_flags (h : s.Inv) (hpid : ∀ p, (f p).pid = p.pid) (hpgid : ∀ p, (f p).pgid = p.pgid)
    (hsid : ∀ p, (f p).sid = p.sid) : (s.modify pid f).Inv := by
  apply h.modify hpid
  · intro p hp _
    rw [hsid]
    exact h.sid p hp
  · intro p hp _ q hq _ heq
    rw [hsid]
    exact h.group p hp q hq (by rwa [hpgid] at heq)

theorem Inv.fork (h : s.Inv) (hc : curr ∈ s.tasks) (hpid : 0 < pid) (hnone : s.getProcess pid = none) :
    (s.fork curr pid).Inv := by
  have hperm : (s.fork curr pid).tasks.Perm ({ curr with pid := pid, didCallExecve := false } :: s.tasks) :=
    List.perm_orderedInsert _ _ _
  have hmem {q : Member} (hq : q ∈ (s.fork curr pid).tasks) :
      q = { curr with pid := pid, didCallExecve := false } ∨ q ∈ s.tasks := by
    simpa using hperm.mem_iff.mp hq
  refine ⟨?_, fun q hq => ?_, fun q hq => ?_, fun q hq r hr heq => ?_⟩
  · rw [(hperm.map _).nodup_iff, List.map_cons, List.nodup_cons]
    refine ⟨fun hin => ?_, h.nodup⟩
    obtain ⟨q, hq, heq⟩ := List.mem_map.mp hin
    exact List.find?_eq_none.mp hnone q hq (decide_eq_true heq)
  · rcases hmem hq with rfl | hq
    · exact hpid
    · exact h.pid q hq
  · rcases hmem hq with rfl | hq
    · exact h.sid curr hc
    · exact h.sid q hq
  · rcases hmem hq with rfl | hq <;> rcases hmem hr with rfl | hr
    · rfl
    · exact h.group curr hc r hr heq
    · exact h.group q hq curr hc heq
    · exact h.group q hq r hr heq

theorem Inv.sysSetsid (h : s.Inv) (hs : s.sysSetsid curr = .ok s') : s'.Inv := by
  unfold Table.sysSetsid at hs
  split_ifs at hs with hcount
  cases hs
  have hnone := List.countP_eq_zero.mp hcount
  refine h.modify (fun _ => rfl) (fun p hp _ => (h.pid p hp).le) fun p _ hpid q hq _ heq => ?_
  exact absurd (decide_eq_true (heq.symm.trans hpid)) (hnone q hq)

/-- `sys_setpgid` compares the session with that of one process of the group, which is that of all. -/
theorem Inv.sysSetpgid {pgid : Int} (h : s.Inv) (hc : curr ∈ s.tasks) (hs : s.sysSetpgid curr pid pgid = .ok s')
    (hok : pgid = 0 → ∀ pi, s.setpgidTarget curr pid = .ok pi → ∀ q ∈ s.tasks, q.pgid = pi.pid → q.sid = pi.sid) :
    s'.Inv := by
  unfold Table.sysSetpgid at hs
  cases hpi : s.setpgidTarget curr pid with
  | error e =>
    rw [hpi] at hs
    split_ifs at hs
  | ok pi =>
    have hmem := mem_of_setpgidTarget hc hpi
    rw [hpi] at hs
    dsimp only at hs
    split_ifs at hs with hneg hne hperm
    · cases hs
      refine h.modify (fun _ => rfl) (fun p hp _ => h.sid p hp) fun p hp hpid q hq _ heq => ?_
      obtain rfl := h.eq_of_pid hp hmem hpid
      unfold schedGetSessionOfGroup at hperm
      cases hf : s.tasks.find? fun p => p.pgid = pgid with
      | none => exact absurd (decide_eq_true heq.symm) (List.find?_eq_none.mp hf q hq)
      | some r =>
        rw [hf] at hperm
        have hr := List.mem_of_find?_eq_some hf
        have hrpgid : r.pgid = pgid := by simpa using List.find?_some hf
        have hrsid : r.sid = p.sid := by
          by_contra hne
          exact hperm ⟨h.sid r hr, hne⟩
        exact hrsid.symm.trans (h.group r hr q hq (hrpgid.trans heq))
    · cases hs
      refine h.modify (fun _ => rfl) (fun p hp _ => h.sid p hp) fun p hp hpid q hq _ heq => ?_
      obtain rfl := h.eq_of_pid hp hmem hpid
      exact (hok (not_not.mp hne) p hpi q hq heq.symm).symm

theorem Inv.exec {e : Ev} (h : s.Inv) (hok : s.Ok e) (he : s.exec e = some s') : s'.Inv := by
  cases e with
  | fork curr pid =>
    obtain ⟨p, hp, he⟩ := Option.bind_eq_some_iff.mp he
    split_ifs at he with hc
    cases he
    exact h.fork (mem_of_live hp).1 hc.1 hc.2
  | execve curr =>
    obtain ⟨p, hp, rfl⟩ := Option.map_eq_some_iff.mp he
    exact h.modify_flags (fun _ => rfl) (fun _ => rfl) fun _ => rfl
  | exit curr =>
    obtain ⟨p, hp, rfl⟩ := Option.map_eq_some_iff.mp he
    exact h.modify_flags (fun _ => rfl) (fun _ => rfl) fun _ => rfl
  | reap pid =>
    cases he
    have hsub : (s.tasks.filter fun p => ¬(p.pid = pid ∧ p.zombie)).Sublist s.tasks := List.filter_sublist
    exact ⟨h.nodup.sublist (hsub.map _), fun p hp => h.pid p (hsub.subset hp), fun p hp => h.sid p (hsub.subset hp),
      fun p hp q hq => h.group p (hsub.subset hp) q (hsub.subset hq)⟩
  | setsid curr =>
    obtain ⟨p, hp, rfl⟩ := Option.map_eq_some_iff.mp he
    cases hs : s.sysSetsid p with
    | error e => exact h
    | ok u => exact h.sysSetsid hs
  | setpgid curr pid pgid =>
    obtain ⟨p, hp, rfl⟩ := Option.map_eq_some_iff.mp he
    cases hs : s.sysSetpgid p pid pgid with
    | error e => exact h
    | ok u => exact h.sysSetpgid (mem_of_live hp).1 hs fun h0 => hok h0 p hp

theorem Inv.init : init.Inv := ⟨by decide, by decide, by decide, by decide⟩

/-- **The live processes of a group are in one session.** -/
theorem group_in_one_session (h : Reached Ok s) : ∀ p ∈ s.tasks, ∀ q ∈ s.tasks, p.zombie = false → q.zombie = false →
    p.pgid = q.pgid → p.sid = q.sid := by
  have hinv : s.Inv := Lib.Reached.invariant (fun _ h => h ▸ Inv.init) (fun _ _ _ h hok he => h.exec hok he) h
  exact fun p hp q hq _ _ => hinv.group p hp q hq

instance {s : Table} : ∀ e, Decidable (s.Ok e)
  | .setpgid curr pid pgid =>
    have (p : Member) : Decidable (∀ pi, s.setpgidTarget p pid = .ok pi →
        ∀ q ∈ s.tasks, q.pgid = pi.pid → q.sid = pi.sid) :=
      match h : s.setpgidTarget p pid with
      | .error _ => .isTrue nofun
      | .ok pi => decidable_of_iff (∀ q ∈ s.tasks, q.pgid = pi.pid → q.sid = pi.sid)
        ⟨fun hq _ heq => by cases heq; exact hq, fun hq => hq pi rfl⟩
    inferInstanceAs (Decidable (pgid = 0 → ∀ p ∈ s.live curr, _))
  | .fork .. | .execve _ | .exit _ | .reap _ | .setsid _ => .isTrue trivial

/-- Process 3 joins the group that 2 made. -/
theorem group_in_one_session_joined : ∃ s, Reached Ok s ∧ s.tasks = [⟨1, 1, 1, false, false⟩, ⟨2, 2, 1, false, false⟩,
    ⟨3, 2, 1, false, false⟩] ∧ ∀ p ∈ s.tasks, ∀ q ∈ s.tasks, p.zombie = false → q.zombie = false →
    p.pgid = q.pgid → p.sid = q.sid := by
  have hrun : Lib.execs exec init [.fork 1 2, .fork 1 3, .setpgid 2 0 0, .setpgid 3 0 2] = some ⟨[⟨1, 1, 1, false, false⟩,
      ⟨2, 2, 1, false, false⟩, ⟨3, 2, 1, false, false⟩]⟩ := by decide
  have hr : Reached Ok _ := Lib.Reached.execs (.start rfl) (by decide) hrun
  exact ⟨_, hr, rfl, group_in_one_session hr⟩

/-- Process 3 of the session 1 makes the group 4, and then process 4 of the session 2 becomes its leader. -/
theorem group_in_two_sessions : ∃ s, Reached (fun _ _ => True) s ∧ ∃ p ∈ s.tasks, ∃ q ∈ s.tasks,
    p.zombie = false ∧ q.zombie = false ∧ p.pgid = q.pgid ∧ p.sid ≠ q.sid := by
  have hrun : Lib.execs exec init [.fork 1 2, .fork 1 3, .setsid 2, .fork 2 4, .setpgid 3 0 4, .setpgid 4 0 0] =
      some ⟨[⟨1, 1, 1, false, false⟩, ⟨2, 2, 2, false, false⟩, ⟨3, 4, 1, false, false⟩, ⟨4, 4, 2, false, false⟩]⟩ := by
    decide
  have hr : Reached (fun _ _ => True) _ := Lib.Reached.execs (.start rfl) (by decide) hrun
  exact ⟨_, hr, ⟨3, 4, 1, false, false⟩, by decide, ⟨4, 4, 2, false, false⟩, by decide, rfl, rfl, rfl, by decide⟩

end Table

end Usax.Proc
