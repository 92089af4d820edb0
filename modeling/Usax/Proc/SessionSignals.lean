import Mathlib.Data.List.Nodup

/-!
# Signals to a group and to a session

`send_signal_to_group` and `send_signal_to_session` of `sched.c`, with the checks of `send_signal2`. Both go through the
tree of the tasks, put the leader aside for the end and the current process after it, and both compare the number of the
group. A signal changes the signal sets, the state and the wait object of its task only, so the tree that is visited
stays as it is; what is followed here is to which processes signals are sent, in order (`sendToAll_sent`).
-/

namespace Usax.Proc.SessionSignals

structure Task where
  tid : Int
  pid : Int
  pgid : Int
  sid : Int
  isKernelThread : Bool
deriving DecidableEq, Repr

/-- The calls of `send_signal` up to now that returned 0, the leader that was found, and `count`. -/
structure Visit where
  sent : List Int
  leader : Option Int
  count : Nat
deriving DecidableEq, Repr

/-- `send_signal2`, with its return code as a condition. -/
def sendSignal2 (tasks : List Task) (pid tid : Int) (flProcess : Bool) : Bool :=
  match tasks.find? fun ti => ti.tid = tid with
  | none => false
  | some ti =>
    if ti.isKernelThread then false
    else if flProcess ∧ ti.pid ≠ tid then false
    else if ti.pid ≠ pid then false
    else true

namespace Visit

variable (tasks : List Task)

/-- `send_signal(pid, sig, true)`. -/
def send (v : Visit) (pid : Int) : Visit := if sendSignal2 tasks pid pid true then { v with sent := v.sent ++ [pid] } else v

def visitTask (curr id : Int) (v : Visit) (ti : Task) : Visit :=
  if ti.pgid = id ∧ ti.pid ≠ curr ∧ ti.pid ≠ 1 then
    let v := if ti.pid ≠ id then v.send tasks ti.pid else { v with leader := some ti.pid }
    { v with count := v.count + 1 }
  else v

end Visit

/-- The two functions, with `curr` as the process of the caller. -/
def sendToAll (tasks : List Task) (curr : Task) (id : Int) : Visit :=
  let v := tasks.foldl (Visit.visitTask tasks curr.pid id) ⟨[], none, 0⟩
  let v := v.leader.elim v (v.send tasks)
  if curr.pgid = id then { v.send tasks curr.pid with count := v.count + 1 } else v

def sendSignalToGroup (tasks : List Task) (curr : Task) (pgid : Int) : Visit := sendToAll tasks curr pgid

def sendSignalToSession (tasks : List Task) (curr : Task) (sid : Int) : Visit := sendToAll tasks curr sid

/-- The tasks of the tree: user processes have one thread, and the kernel threads are in the process 0. -/
structure Tree (tasks : List Task) : Prop where
  nodup : (tasks.map (·.tid)).Nodup
  user : ∀ ti ∈ tasks, ti.isKernelThread = false → ti.pid = ti.tid ∧ 0 < ti.tid
  kernel : ∀ ti ∈ tasks, ti.isKernelThread = true → ti.pid = 0 ∧ ti.pgid = 0 ∧ 0 < ti.tid

def IsProcess (tasks : List Task) (pid : Int) (p : Task → Prop) : Prop :=
  ∃ ti ∈ tasks, ti.isKernelThread = false ∧ ti.pid = pid ∧ p ti

/-! ## Who gets the signal -/

section

variable {tasks : List Task} {curr ti : Task} {id : Int} {v : Visit}

theorem Tree.eq_of_tid (ht : Tree tasks) {x y : Task} (hx : x ∈ tasks) (hy : y ∈ tasks) (h : x.tid = y.tid) : x = y :=
  List.inj_on_of_nodup_map ht.nodup hx hy h

theorem Tree.sendSignal2 (ht : Tree tasks) (hti : ti ∈ tasks) :
    sendSignal2 tasks ti.pid ti.pid true = !ti.isKernelThread := by
  unfold SessionSignals.sendSignal2
  cases hk : ti.isKernelThread with
  | false =>
    obtain ⟨hpid, -⟩ := ht.user ti hti hk
    have hfind : tasks.find? (fun t => t.tid = ti.pid) = some ti := by
      cases hf : tasks.find? (fun t => t.tid = ti.pid) with
      | none => exact absurd hpid.symm (by simpa using List.find?_eq_none.mp hf ti hti)
      | some t =>
        have htid : t.tid = ti.pid := by simpa using List.find?_some hf
        rw [ht.eq_of_tid (List.mem_of_find?_eq_some hf) hti (htid.trans hpid)]
    simp [hfind, hk]
  | true =>
    obtain ⟨hpid, -⟩ := ht.kernel ti hti hk
    have hfind : tasks.find? (fun t => t.tid = ti.pid) = none := by
      refine List.find?_eq_none.mpr fun t htt => ?_
      have : 0 < t.tid := by
        cases hkt : t.isKernelThread with
        | false => exact (ht.user t htt hkt).2
        | true => exact (ht.kernel t htt hkt).2.2
      simp only [decide_eq_true_eq]
      omega
    rw [hfind]
    rfl

def inLoop (curr id : Int) (ti : Task) : Bool :=
  decide (ti.pgid = id ∧ ti.pid ≠ curr ∧ ti.pid ≠ 1 ∧ ti.pid ≠ id) && !ti.isKernelThread

def isLeader (curr id : Int) (ti : Task) : Bool := decide (ti.pgid = id ∧ ti.pid ≠ curr ∧ ti.pid ≠ 1 ∧ ti.pid = id)

theorem visitTask_sent (ht : Tree tasks) (hti : ti ∈ tasks) (curr : Int) :
    (v.visitTask tasks curr id ti).sent = v.sent ++ if inLoop curr id ti then [ti.pid] else [] := by
  have hsend := ht.sendSignal2 hti
  unfold Visit.visitTask Visit.send inLoop
  grind

theorem visitTask_leader (curr : Int) :
    (v.visitTask tasks curr id ti).leader = if isLeader curr id ti then some id else v.leader := by
  unfold Visit.visitTask Visit.send isLeader
  grind

theorem foldl_visitTask (ht : Tree tasks) {curr : Int} {l : List Task} (hl : ∀ ti ∈ l, ti ∈ tasks) :
    (l.foldl (Visit.visitTask tasks curr id) v).sent = v.sent ++ (l.filter (inLoop curr id)).map (·.pid) ∧
    (l.foldl (Visit.visitTask tasks curr id) v).leader = if l.any (isLeader curr id) then some id else v.leader := by
  induction l generalizing v with
  | nil => simp
  | cons ti l ih =>
    obtain ⟨hsent, hleader⟩ := @ih (v.visitTask tasks curr id ti) fun t h => hl t (List.mem_cons_of_mem _ h)
    rw [List.foldl_cons]
    refine ⟨hsent.trans ?_, hleader.trans ?_⟩
    · rw [visitTask_sent ht (hl ti List.mem_cons_self), List.append_assoc, List.filter_cons]
      split_ifs <;> simp
    · rw [visitTask_leader, List.any_cons]
      cases isLeader curr id ti <;> cases l.any (isLeader curr id) <;> rfl

theorem send_leader (ht : Tree tasks) {curr : Int} (h : tasks.any (isLeader curr id) = true) :
    sendSignal2 tasks id id true = tasks.any fun ti => isLeader curr id ti && !ti.isKernelThread := by
  obtain ⟨ti, hti, hl⟩ := List.any_eq_true.mp h
  have hid : ti.pid = id := by simp only [isLeader, decide_eq_true_eq] at hl; exact hl.2.2.2
  rw [← hid, ht.sendSignal2 hti, hid]
  cases hk : ti.isKernelThread with
  | false => exact (List.any_eq_true.mpr ⟨ti, hti, by simp [hl, hk]⟩).symm
  | true =>
    refine (List.any_eq_false.mpr fun t htt hlt => ?_).symm
    simp only [isLeader, Bool.and_eq_true, decide_eq_true_eq, Bool.not_eq_true'] at hlt
    have := ht.user t htt hlt.2
    have := ht.kernel ti hti hk
    omega

/-- **The processes that get the signal**: the members of the group that are not its leader, the leader, and the process of
the caller. -/
theorem sendToAll_sent (ht : Tree tasks) (hcurr : curr ∈ tasks) :
    (sendToAll tasks curr id).sent = (tasks.filter (inLoop curr.pid id)).map (·.pid) ++
      (if tasks.any (fun ti => isLeader curr.pid id ti && !ti.isKernelThread) then [id] else []) ++
      if curr.pgid = id ∧ curr.isKernelThread = false then [curr.pid] else [] := by
  obtain ⟨hsent, hleader⟩ := @foldl_visitTask tasks id ⟨[], none, 0⟩ ht curr.pid tasks fun _ h => h
  have hsendCurr := ht.sendSignal2 hcurr
  unfold sendToAll
  generalize List.foldl (Visit.visitTask tasks curr.pid id) ⟨[], none, 0⟩ tasks = v at hsent hleader ⊢
  have hall : (v.leader.elim v (v.send tasks)).sent = (tasks.filter (inLoop curr.pid id)).map (·.pid) ++
      if tasks.any (fun ti => isLeader curr.pid id ti && !ti.isKernelThread) then [id] else [] := by
    cases hany : tasks.any (isLeader curr.pid id) with
    | false =>
      have hnone : tasks.any (fun ti => isLeader curr.pid id ti && !ti.isKernelThread) = false := by
        refine List.any_eq_false.mpr fun ti hti h => ?_
        rw [Bool.and_eq_true] at h
        exact List.any_eq_false.mp hany ti hti h.1
      simp [hleader, hany, hnone, hsent]
    | true =>
      rw [hleader, hany, if_pos rfl, Option.elim_some, Visit.send, send_leader ht hany]
      split_ifs <;> simp [hsent]
  rw [← hall]
  dsimp only
  generalize v.leader.elim v (v.send tasks) = v'
  unfold Visit.send
  grind

theorem mem_inLoop {curr pid : Int} : pid ∈ (tasks.filter (inLoop curr id)).map (·.pid) ↔
    (pid ≠ curr ∧ pid ≠ 1 ∧ pid ≠ id) ∧ IsProcess tasks pid (·.pgid = id) := by
  simp only [List.mem_map, List.mem_filter, inLoop, Bool.and_eq_true, decide_eq_true_eq, Bool.not_eq_true', IsProcess]
  grind

theorem mem_leader {curr pid : Int} :
    (pid ∈ if tasks.any (fun ti => isLeader curr id ti && !ti.isKernelThread) then [id] else []) ↔
      (pid ≠ curr ∧ pid ≠ 1 ∧ pid = id) ∧ IsProcess tasks pid (·.pgid = id) := by
  simp only [List.any_eq_true, isLeader, Bool.and_eq_true, decide_eq_true_eq, Bool.not_eq_true', IsProcess]
  split_ifs <;> grind

theorem nodup_inLoop (ht : Tree tasks) (curr : Int) : ((tasks.filter (inLoop curr id)).map (·.pid)).Nodup := by
  have heq : (tasks.filter (inLoop curr id)).map (·.pid) = (tasks.filter (inLoop curr id)).map (·.tid) := by
    refine List.map_congr_left fun ti hti => ?_
    rw [List.mem_filter, inLoop, Bool.and_eq_true, Bool.not_eq_true'] at hti
    exact (ht.user ti hti.1 hti.2.2).1
  rw [heq]
  exact ht.nodup.sublist (List.filter_sublist.map _)

theorem Tree.isProcess_iff (ht : Tree tasks) (hti : ti ∈ tasks) (hk : ti.isKernelThread = false) {p : Task → Prop} :
    IsProcess tasks ti.pid p ↔ p ti := by
  refine ⟨fun ⟨x, hx, hkx, hpid, hp⟩ => ?_, fun hp => ⟨ti, hti, hk, rfl, hp⟩⟩
  obtain rfl := ht.eq_of_tid hx hti (by rw [← (ht.user x hx hkx).1, ← (ht.user ti hti hk).1, hpid])
  exact hp

theorem isProcess_curr (ht : Tree tasks) (hcurr : curr ∈ tasks) :
    IsProcess tasks curr.pid (·.pgid = id) ↔ curr.pgid = id ∧ curr.isKernelThread = false := by
  cases hkc : curr.isKernelThread with
  | false => simp [ht.isProcess_iff hcurr hkc]
  | true =>
    refine ⟨fun ⟨ti, hti, hk, hpid, _⟩ => ?_, fun h => by simp at h⟩
    have := ht.user ti hti hk
    have := ht.kernel curr hcurr hkc
    omega

theorem mem_sent (ht : Tree tasks) (hcurr : curr ∈ tasks) {pid : Int} :
    pid ∈ (sendToAll tasks curr id).sent ↔ (pid ≠ 1 ∨ pid = curr.pid) ∧ IsProcess tasks pid (·.pgid = id) := by
  rw [sendToAll_sent ht hcurr, List.mem_append, List.mem_append, mem_inLoop, mem_leader]
  by_cases hc : pid = curr.pid
  · subst hc
    simp [← isProcess_curr ht hcurr]
  · split_ifs <;> simp [hc] <;> tauto

/-- Nobody gets the signal twice, and the process of the caller gets it at the end. -/
theorem nodup_sent (ht : Tree tasks) (hcurr : curr ∈ tasks) : (sendToAll tasks curr id).sent.Nodup ∧
    (curr.pid ∈ (sendToAll tasks curr id).sent → (sendToAll tasks curr id).sent.getLast? = some curr.pid) := by
  refine ⟨?_, fun hmem => ?_⟩
  · rw [sendToAll_sent ht hcurr]
    refine List.nodup_append.mpr ⟨List.nodup_append.mpr ⟨nodup_inLoop ht _, by split_ifs <;> simp, ?_⟩,
      by split_ifs <;> simp, ?_⟩
    · intro x hx y hy
      have hx := (mem_inLoop.mp hx).1
      have hy := (mem_leader.mp hy).1
      omega
    · intro x hx y hy
      have hy : y = curr.pid := by
        split_ifs at hy
        · exact List.mem_singleton.mp hy
        · cases hy
      rcases List.mem_append.mp hx with hx | hx
      · have := (mem_inLoop.mp hx).1
        omega
      · have := (mem_leader.mp hx).1
        omega
  · have hlast := (isProcess_curr ht hcurr).mp ((mem_sent ht hcurr).mp hmem).2
    rw [sendToAll_sent ht hcurr, if_pos hlast, List.getLast?_concat]

/-- **The processes of a session** get the signal, each of them once and the process of the caller at the end, if and only if
they are the ones of the group with the number of the session, `init` apart, and `init` does not call it for its own group. -/
theorem session_signalled (ht : Tree tasks) (hcurr : curr ∈ tasks) (sid : Int) :
    ((sendSignalToSession tasks curr sid).sent.Nodup ∧
    (∀ pid, pid ∈ (sendSignalToSession tasks curr sid).sent ↔ pid ≠ 1 ∧ IsProcess tasks pid (·.sid = sid)) ∧
    (curr.pid ∈ (sendSignalToSession tasks curr sid).sent →
      (sendSignalToSession tasks curr sid).sent.getLast? = some curr.pid)) ↔
    (curr.pid = 1 → curr.pgid ≠ sid) ∧
      ∀ ti ∈ tasks, ti.isKernelThread = false → ti.pid ≠ 1 → (ti.pgid = sid ↔ ti.sid = sid) := by
  unfold sendSignalToSession
  obtain ⟨hnodup, hlast⟩ := @nodup_sent tasks curr sid ht hcurr
  constructor
  · rintro ⟨-, hmem, -⟩
    refine ⟨fun h₁ hg => ?_, fun ti hti hk h₁ => ?_⟩
    · have hk : curr.isKernelThread = false := by
        by_contra hk
        have := ht.kernel curr hcurr (by simpa using hk)
        omega
      exact ((hmem curr.pid).mp ((mem_sent ht hcurr).mpr ⟨.inr rfl, (isProcess_curr ht hcurr).mpr ⟨hg, hk⟩⟩)).1 h₁
    · have := hmem ti.pid
      rw [mem_sent ht hcurr, ht.isProcess_iff hti hk, ht.isProcess_iff hti hk] at this
      simpa [h₁] using this
  · rintro ⟨hinit, hgroup⟩
    refine ⟨hnodup, fun pid => ?_, hlast⟩
    rw [mem_sent ht hcurr]
    by_cases h₁ : pid = 1
    · subst h₁
      refine ⟨fun ⟨h, hp⟩ => ?_, fun h => absurd rfl h.1⟩
      have hc : 1 = curr.pid := h.resolve_left (by simp)
      rw [hc] at hp
      exact absurd ((isProcess_curr ht hcurr).mp hp).1 (hinit hc.symm)
    · simp only [ne_eq, h₁, not_false_eq_true, true_or, true_and]
      refine exists_congr fun ti => and_congr_right fun hti => and_congr_right fun hk => and_congr_right fun hpid => ?_
      exact hgroup ti hti hk (hpid ▸ h₁)

end

/-- `init`, a shell with a job in the same group and session, and a kernel thread. -/
def oneGroup : List Task :=
  [⟨1, 1, 1, 1, false⟩, ⟨5, 5, 5, 5, false⟩, ⟨7, 7, 5, 5, false⟩, ⟨9, 9, 5, 5, false⟩, ⟨10000, 0, 0, 0, true⟩]

theorem session_signalled_group : Tree oneGroup ∧ (sendSignalToSession oneGroup ⟨7, 7, 5, 5, false⟩ 5).sent = [9, 5, 7] ∧
    ∀ pid, pid ∈ (sendSignalToSession oneGroup ⟨1, 1, 1, 1, false⟩ 5).sent ↔ pid ≠ 1 ∧ IsProcess oneGroup pid (·.sid = 5) := by
  have ht : Tree oneGroup := ⟨by decide, by decide, by decide⟩
  exact ⟨ht, by decide, ((session_signalled ht (by decide) 5).mpr (by decide)).2.1⟩

/-- **A job of the session is missed** when it is in a group of its own, and a process of another session gets the signal
when it is in the group with the number of the session. -/
theorem session_missed :
    (sendSignalToSession [⟨1, 1, 1, 1, false⟩, ⟨5, 5, 5, 5, false⟩, ⟨7, 7, 7, 5, false⟩] ⟨5, 5, 5, 5, false⟩ 5).sent =
      [5] ∧
    (sendSignalToSession [⟨1, 1, 1, 1, false⟩, ⟨5, 5, 5, 1, false⟩, ⟨7, 7, 7, 5, false⟩] ⟨7, 7, 7, 5, false⟩ 5).sent =
      [5] := by
  decide

end Usax.Proc.SessionSignals
