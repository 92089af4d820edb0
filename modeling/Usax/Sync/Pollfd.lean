import Mathlib.Data.List.Range
import Mathlib.Logic.Function.Basic
import Usax.Common.Errno
import Usax.Common.Utils

/-!
# The entries of `poll`

`sys_poll` copies the entries of the caller to `args_copybuf`, goes over them in passes, and copies them back. A pass goes over
`nfds` entries; only the size of the copy, which wraps around, was compared with the size of the buffer. An entry whose
descriptor is not open gets `POLLNVAL` and is not counted, and `poll_count_conds` changes the events that the caller gets back.

Each pass finds the files in some state (`PollEnv.view`), and the sleeps of the caller end for some reason (`Wake`).
-/

namespace Usax.Sync

open Common (Errno argsCopybufSize)

namespace PollFds

def pollin : UInt16 := 0x001
def pollpri : UInt16 := 0x002
def pollout : UInt16 := 0x004
def pollerr : UInt16 := 0x008
def pollnval : UInt16 := 0x020
def pollrdnorm : UInt16 := 0x040
def pollrdband : UInt16 := 0x080
def pollwrnorm : UInt16 := 0x100
def pollwrband : UInt16 := 0x200

structure Pollfd where
  fd : Int
  events : UInt16
  revents : UInt16
deriving DecidableEq, Repr

/-- `sizeof(struct pollfd)`. -/
def sizeofPollfd : Nat := 8

/-- What a handle is ready for, and for what it has conditions. The result of `vfs_except_ready` is for the bits of
`revents`. -/
structure Stream where
  readReady : Bool
  writeReady : Bool
  exceptReady : Int
  except_lt : exceptReady < 2 ^ 16
  rreadyCond : Bool
  wreadyCond : Bool
  exceptCond : Bool

/-! ## Passes -/

/-- The loops over the entries: an entry is changed, and adds to the count. -/
def eachFd (step : Nat → Pollfd → Pollfd × Nat) : (nfds : Nat) → (Nat → Pollfd) → (Nat → Pollfd) × Nat
  | 0, fds => (fds, 0)
  | i + 1, fds =>
    let r := eachFd step i fds
    let e := step i (r.1 i)
    (Function.update r.1 i e.1, r.2 + e.2)

def countReady (h : Option Stream) (p : Pollfd) : Pollfd × Nat :=
  match h with
  | none => ({ p with revents := pollnval }, 0)
  | some s =>
    if p.events &&& pollin ≠ 0 ∧ s.readReady then ({ p with revents := p.revents ||| pollin }, 1)
    else if p.events &&& pollout ≠ 0 ∧ s.writeReady then ({ p with revents := p.revents ||| pollout }, 1)
    else if s.exceptReady ≠ 0 then
      ({ p with revents := p.revents ||| if 0 < s.exceptReady then UInt16.ofNat s.exceptReady.toNat else pollerr }, 1)
    else (p, 0)

/-- The events that stand for input, and those for output. -/
def inEvents : UInt16 := pollin ||| pollrdnorm ||| pollrdband ||| pollpri

def outEvents : UInt16 := pollout ||| pollwrnorm ||| pollwrband

/-- The events after `poll_count_conds`. -/
def treatEvents (events : UInt16) : UInt16 :=
  let events := if events &&& inEvents ≠ 0 then events ||| pollin else events
  if events &&& outEvents ≠ 0 then events ||| pollout else events

def countConds (h : Option Stream) (p : Pollfd) : Pollfd × Nat :=
  match h with
  | none => ({ p with revents := pollnval }, 0)
  | some s =>
    ({ p with events := treatEvents p.events, revents := 0 },
      (if p.events &&& inEvents ≠ 0 ∧ s.rreadyCond then 1 else 0) +
        (if p.events &&& outEvents ≠ 0 ∧ s.wreadyCond then 1 else 0) + if s.exceptCond then 1 else 0)

/-- The turn of `poll_set_conds`, which links the waiter. -/
def setConds (h : Option Stream) (p : Pollfd) : Pollfd × Nat :=
  match h with
  | none => ({ p with revents := pollnval }, 0)
  | some _ => (p, 0)

/-! ## The call -/

/-- What ends a sleep of `poll_wait_on_cond`. -/
inductive Wake
  | cond | timer | signal
deriving DecidableEq, Repr

/-- The files at each pass, by entry; whether the copies and the allocation fail; the ends of the sleeps, and whether a signal is
pending at the end. -/
structure PollEnv where
  view : (pass i : Nat) → Option Stream
  faultIn : Bool
  faultOut : Bool
  noMem : Bool
  wakes : List Wake
  sig : Bool

section

variable (env : PollEnv) (nfds : Nat) (timeout : Int)

def PollEnv.ready (pass : Nat) (fds : Nat → Pollfd) : (Nat → Pollfd) × Nat :=
  eachFd (fun i => countReady (env.view pass i)) nfds fds

def PollEnv.finish (r : (Nat → Pollfd) × Nat) : Except Errno Nat × (Nat → Pollfd) :=
  (if env.sig then .error .eintr else .ok r.2, r.1)

/-- The loop of `poll_wait_on_cond`, from some pass on. There is no result if the caller sleeps on. -/
def waitLoop : List Wake → (pass : Nat) → (Nat → Pollfd) → Option (Except Errno Nat × (Nat → Pollfd))
  | [], pass, fds =>
    let r := env.ready nfds pass fds
    if 0 < r.2 then some (env.finish r) else none
  | w :: wakes, pass, fds =>
    let r := env.ready nfds pass fds
    if 0 < r.2 then some (env.finish r)
    else if w = .signal then some (.error .eintr, r.1)
    else if w = .timer ∧ 0 < timeout then some (env.finish (r.1, 0))
    else
      let r := env.ready nfds (pass + 1) r.1
      if r.2 = 0 then waitLoop wakes (pass + 2) r.1 else some (env.finish r)

/-- `poll_wait_on_cond`, after two passes. -/
def pollWaitOnCond (fds : Nat → Pollfd) : Option (Except Errno Nat × (Nat → Pollfd)) :=
  if env.noMem then some (.error .enomem, fds)
  else waitLoop env nfds timeout env.wakes 3 (eachFd (fun i => setConds (env.view 2 i)) nfds fds).1

/-- `sys_poll` between the copies: the first result is that of `ready_fds_cnt`. -/
def pollPasses (fds : Nat → Pollfd) : Option (Except Errno Nat × (Nat → Pollfd)) :=
  let fds := (eachFd (fun _ p => ({ p with revents := 0 }, 0)) nfds fds).1
  let r := env.ready nfds 0 fds
  if 0 < r.2 then some (.ok r.2, r.1)
  else
    let c := if timeout ≠ 0 then eachFd (fun i => countConds (env.view 1 i)) nfds r.1 else (r.1, 0)
    if 0 < c.2 then pollWaitOnCond env nfds timeout c.1
    else if 0 < timeout ∧ env.sig then some (.error .eintr, c.1)
    else
      let r := env.ready nfds 2 c.1
      some (.ok r.2, r.1)

variable [Machine]

/-- The number of bytes that are copied, a `size_t`. -/
def copySize : Nat := sizeofPollfd * nfds % 2 ^ Machine.nbits

def copyFds (dest src : Nat → Pollfd) : Nat → Pollfd := fun i => if i < copySize nfds / sizeofPollfd then src i else dest i

/-- The return value, the entries of the caller, and the memory from `args_copybuf` on. -/
structure PollResult where
  rc : Except Errno Nat
  user : Nat → Pollfd
  copybuf : Nat → Pollfd

def sysPoll (user copybuf : Nat → Pollfd) : Option PollResult :=
  if argsCopybufSize < copySize nfds then some ⟨.error .einval, user, copybuf⟩
  else if env.faultIn then some ⟨.error .efault, user, copybuf⟩
  else (pollPasses env nfds timeout (copyFds nfds copybuf user)).map fun r =>
    match r.1 with
    | .error e => ⟨.error e, user, r.2⟩
    | .ok cnt => if env.faultOut then ⟨.error .efault, user, r.2⟩ else ⟨.ok cnt, copyFds nfds user r.2, r.2⟩

end

/-! ## Loops over the entries -/

section

variable {step : Nat → Pollfd → Pollfd × Nat} {nfds i : Nat} {fds : Nat → Pollfd}

theorem eachFd_entry (step : Nat → Pollfd → Pollfd × Nat) (nfds : Nat) (fds : Nat → Pollfd) (i : Nat) :
    (eachFd step nfds fds).1 i = if i < nfds then (step i (fds i)).1 else fds i := by
  induction nfds with
  | zero => rfl
  | succ n ih =>
    simp only [eachFd]
    by_cases hi : i = n
    · subst hi
      rw [Function.update_self, ih, if_neg (Nat.lt_irrefl i), if_pos (Nat.lt_succ_self i)]
    · rw [Function.update_of_ne hi, ih]
      congr 1
      exact propext ⟨fun h => by omega, fun h => by omega⟩

theorem eachFd_count (step : Nat → Pollfd → Pollfd × Nat) (nfds : Nat) (fds : Nat → Pollfd) :
    (eachFd step nfds fds).2 = ((List.range nfds).map fun i => (step i (fds i)).2).sum := by
  induction nfds with
  | zero => rfl
  | succ n ih =>
    simp only [eachFd]
    rw [eachFd_entry, if_neg (Nat.lt_irrefl n), ih, List.range_succ, List.map_append, List.sum_append]
    simp

theorem eachFd_outside (hi : nfds ≤ i) : (eachFd step nfds fds).1 i = fds i := by
  rw [eachFd_entry, if_neg (Nat.not_lt.mpr hi)]

end

/-! ## Results -/

/-- The entries of the caller with no results in them. -/
def Clean (nfds : Nat) (user fds : Nat → Pollfd) : Prop := ∀ i < nfds, fds i = { user i with revents := 0 }

/-- The entries of the caller with results, and how many there are. -/
def Answered (nfds : Nat) (user fds : Nat → Pollfd) (cnt : Nat) : Prop :=
  (∀ i < nfds, (fds i).fd = (user i).fd ∧ (fds i).events = (user i).events) ∧
    cnt = (List.range nfds).countP fun i => (fds i).revents ≠ 0

section

variable {env : PollEnv} {nfds pass : Nat} {timeout : Int} {user fds : Nat → Pollfd}

theorem Answered.clean (h : Answered nfds user fds 0) : Clean nfds user fds := by
  intro i hi
  obtain ⟨hfd, hev⟩ := h.1 i hi
  have hrev : (fds i).revents = 0 := by
    simpa using List.countP_eq_zero.mp h.2.symm i (List.mem_range.mpr hi)
  show fds i = ⟨(user i).fd, (user i).events, 0⟩
  rw [← hfd, ← hev, ← hrev]

theorem sum_le_one_eq_countP {l : List Nat} {g : Nat → Nat} {p : Nat → Bool}
    (h : ∀ i ∈ l, g i = if p i then 1 else 0) : (l.map g).sum = l.countP p := by
  induction l with
  | nil => rfl
  | cons i l ih =>
    obtain ⟨hi, h⟩ := List.forall_mem_cons.mp h
    rw [List.map_cons, List.sum_cons, ih h, hi, List.countP_cons, Nat.add_comm]

theorem countReady_some (s : Stream) (p : Pollfd) : ∃ revents cnt,
    countReady (some s) { p with revents := 0 } = (⟨p.fd, p.events, revents⟩, cnt) ∧
      cnt = if decide (revents ≠ 0) then 1 else 0 := by
  have hor : ∀ x : UInt16, (0 : UInt16) ||| x = x := fun x => by simp
  simp only [countReady, hor]
  by_cases hin : p.events &&& pollin ≠ 0 ∧ s.readReady = true
  · exact ⟨pollin, 1, if_pos hin, rfl⟩
  by_cases hout : p.events &&& pollout ≠ 0 ∧ s.writeReady = true
  · exact ⟨pollout, 1, by rw [if_neg hin, if_pos hout], rfl⟩
  by_cases hex : s.exceptReady ≠ 0
  · have hne : (if 0 < s.exceptReady then UInt16.ofNat s.exceptReady.toNat else pollerr) ≠ 0 := fun h0 => by
      split_ifs at h0 with hpos
      · have hlt := s.except_lt
        have hnat := congrArg UInt16.toNat h0
        simp only [UInt16.toNat_ofNat', UInt16.toNat_zero] at hnat
        rw [Nat.mod_eq_of_lt (by omega)] at hnat
        omega
      · exact absurd h0 (by decide)
    exact ⟨_, 1, by rw [if_neg hin, if_neg hout, if_pos hex], by rw [decide_eq_true hne, if_pos rfl]⟩
  · exact ⟨0, 0, by rw [if_neg hin, if_neg hout, if_neg hex], rfl⟩

/-- **A pass** over entries that are all open counts those with results. -/
theorem Clean.ready (h : Clean nfds user fds) (hopen : ∀ i < nfds, (env.view pass i).isSome = true) :
    Answered nfds user (env.ready nfds pass fds).1 (env.ready nfds pass fds).2 := by
  have hturn : ∀ i < nfds, ∃ revents cnt, countReady (env.view pass i) (fds i) = (⟨(user i).fd, (user i).events, revents⟩, cnt) ∧
      cnt = if decide (revents ≠ 0) then 1 else 0 := fun i hi => by
    obtain ⟨s, hs⟩ := Option.isSome_iff_exists.mp (hopen i hi)
    rw [hs, h i hi]
    exact countReady_some s (user i)
  have hentry : ∀ i < nfds, (env.ready nfds pass fds).1 i = (countReady (env.view pass i) (fds i)).1 := fun i hi => by
    rw [PollEnv.ready, eachFd_entry, if_pos hi]
  refine ⟨fun i hi => ?_, ?_⟩
  · obtain ⟨revents, cnt, hr, -⟩ := hturn i hi
    rw [hentry i hi, hr]
    exact ⟨rfl, rfl⟩
  · refine (eachFd_count _ nfds fds).trans (sum_le_one_eq_countP fun i hi => ?_)
    obtain ⟨revents, cnt, hr, hcnt⟩ := hturn i (List.mem_range.mp hi)
    rw [hentry i (List.mem_range.mp hi), hr]
    exact hcnt

theorem ready_outside {i : Nat} (hi : nfds ≤ i) : (env.ready nfds pass fds).1 i = fds i := eachFd_outside hi

/-- What a call leaves and returns: the entries of others are left, and a count is that of the entries. -/
def Returns (nfds : Nat) (user fds : Nat → Pollfd) (r : Except Errno Nat × (Nat → Pollfd)) : Prop :=
  (∀ i, nfds ≤ i → r.2 i = fds i) ∧ ∀ cnt, r.1 = .ok cnt → Answered nfds user r.2 cnt

theorem Returns.trans {fds' : Nat → Pollfd} {r : Except Errno Nat × (Nat → Pollfd)} (h : Returns nfds user fds' r)
    (hout : ∀ i, nfds ≤ i → fds' i = fds i) : Returns nfds user fds r :=
  ⟨fun i hi => (h.1 i hi).trans (hout i hi), h.2⟩

theorem Returns.error {e : Errno} {fds' : Nat → Pollfd} (hout : ∀ i, nfds ≤ i → fds' i = fds i) :
    Returns nfds user fds (.error e, fds') := ⟨hout, fun _ hc => nomatch hc⟩

theorem Answered.finish {q : (Nat → Pollfd) × Nat} (h : Answered nfds user q.1 q.2) :
    Returns nfds user q.1 (env.finish q) := by
  refine ⟨fun _ _ => rfl, fun cnt hc => ?_⟩
  simp only [PollEnv.finish] at hc ⊢
  split_ifs at hc
  exact Except.ok.inj hc ▸ h

theorem waitLoop_answered (hopen : ∀ k, ∀ i < nfds, (env.view k i).isSome = true) : ∀ (wakes : List Wake) (pass : Nat)
    (fds : Nat → Pollfd), Clean nfds user fds → ∀ r, waitLoop env nfds timeout wakes pass fds = some r →
      Returns nfds user fds r := by
  intro wakes
  induction wakes with
  | nil =>
    intro pass fds h r he
    simp only [waitLoop] at he
    split_ifs at he
    obtain rfl := Option.some.inj he
    exact (h.ready (hopen pass)).finish.trans fun i hi => ready_outside hi
  | cons w wakes ih =>
    intro pass fds h r he
    have ha := h.ready (hopen pass)
    simp only [waitLoop] at he
    split_ifs at he with hpos hsig htimer hzero
    · obtain rfl := Option.some.inj he
      exact ha.finish.trans fun i hi => ready_outside hi
    · obtain rfl := Option.some.inj he
      exact .error fun i hi => ready_outside hi
    all_goals
      rw [Nat.eq_zero_of_not_pos hpos] at ha
    · obtain rfl := Option.some.inj he
      exact (Answered.finish (q := (_, 0)) ha).trans fun i hi => ready_outside hi
    all_goals
      have ha' := ha.clean.ready (hopen (pass + 1))
    · rw [hzero] at ha'
      exact (ih (pass + 2) _ ha'.clean r he).trans fun i hi => by rw [ready_outside hi, ready_outside hi]
    · obtain rfl := Option.some.inj he
      exact ha'.finish.trans fun i hi => by rw [ready_outside hi, ready_outside hi]

/-- `poll_count_conds` and `poll_set_conds` leave the entries, if the events are as the former makes them. -/
theorem Clean.countConds (h : Clean nfds user fds) (hopen : ∀ i < nfds, (env.view pass i).isSome = true)
    (hev : ∀ i < nfds, treatEvents (user i).events = (user i).events) :
    Clean nfds user (eachFd (fun i => countConds (env.view pass i)) nfds fds).1 := by
  intro i hi
  obtain ⟨s, hs⟩ := Option.isSome_iff_exists.mp (hopen i hi)
  rw [eachFd_entry, if_pos hi, hs, h i hi]
  simp only [PollFds.countConds, hev i hi]

theorem Clean.setConds (h : Clean nfds user fds) (hopen : ∀ i < nfds, (env.view pass i).isSome = true) :
    Clean nfds user (eachFd (fun i => setConds (env.view pass i)) nfds fds).1 := by
  intro i hi
  obtain ⟨s, hs⟩ := Option.isSome_iff_exists.mp (hopen i hi)
  rw [eachFd_entry, if_pos hi, hs]
  exact h i hi

/-- An entry is ready at the first pass, and the call returns after it. -/
def ReadyAtOnce (env : PollEnv) (nfds : Nat) (user : Nat → Pollfd) : Prop :=
  ∃ i < nfds, 0 < (countReady (env.view 0 i) { user i with revents := 0 }).2

/-- The descriptors are open at each pass, and the events are as `poll_count_conds` makes them if the call waits. -/
structure Waits (env : PollEnv) (nfds : Nat) (timeout : Int) (user : Nat → Pollfd) : Prop where
  opened : ∀ k, ∀ i < nfds, (env.view k i).isSome = true
  events : timeout = 0 ∨ ∀ i < nfds, treatEvents (user i).events = (user i).events

theorem Clean.ready_pos (h : Clean nfds user fds) (hat : ReadyAtOnce env nfds user) : 0 < (env.ready nfds 0 fds).2 := by
  obtain ⟨i, hi, hpos⟩ := hat
  rw [← h i hi] at hpos
  rw [PollEnv.ready, eachFd_count]
  exact hpos.trans_le (List.le_sum_of_mem (List.mem_map.mpr ⟨i, List.mem_range.mpr hi, rfl⟩))

/-- **The passes** of a call. -/
theorem pollPasses_answered (hfirst : ∀ i < nfds, (env.view 0 i).isSome = true)
    (hwait : ReadyAtOnce env nfds user ∨ Waits env nfds timeout user) (hcopy : ∀ i < nfds, fds i = user i)
    {r : Except Errno Nat × (Nat → Pollfd)} (he : pollPasses env nfds timeout fds = some r) : Returns nfds user fds r := by
  obtain ⟨fds₀, hfds₀⟩ : ∃ f, f = (eachFd (fun _ p => ({ p with revents := 0 }, 0)) nfds fds).1 := ⟨_, rfl⟩
  have hclean : Clean nfds user fds₀ := fun i hi => by rw [hfds₀, eachFd_entry, if_pos hi, hcopy i hi]
  have hout₀ : ∀ i, nfds ≤ i → fds₀ i = fds i := fun i hi => by rw [hfds₀, eachFd_outside hi]
  have ha := hclean.ready hfirst
  unfold pollPasses at he
  rw [← hfds₀] at he
  dsimp only at he
  by_cases hpos : 0 < (env.ready nfds 0 fds₀).2
  · rw [if_pos hpos] at he
    obtain rfl := Option.some.inj he
    exact ⟨fun i hi => (ready_outside hi).trans (hout₀ i hi), fun cnt hc => Except.ok.inj hc ▸ ha⟩
  obtain ⟨hopen, hev⟩ := hwait.resolve_left fun hat => hpos (hclean.ready_pos hat)
  rw [if_neg hpos] at he
  rw [Nat.eq_zero_of_not_pos hpos] at ha
  obtain ⟨c, hc⟩ : ∃ c, c = if timeout ≠ 0 then
      eachFd (fun i => countConds (env.view 1 i)) nfds (env.ready nfds 0 fds₀).1 else ((env.ready nfds 0 fds₀).1, 0) := ⟨_, rfl⟩
  rw [← hc] at he
  have hcclean : Clean nfds user c.1 := by
    rw [hc]
    split_ifs with ht
    · exact ha.clean.countConds (hopen 1) (hev.resolve_left ht)
    · exact ha.clean
  have hcout : ∀ i, nfds ≤ i → c.1 i = fds i := fun i hi => by
    rw [hc]
    split_ifs
    · rw [eachFd_outside hi, ready_outside hi, hout₀ i hi]
    · rw [ready_outside hi, hout₀ i hi]
  split_ifs at he with hcnt hsig
  · unfold pollWaitOnCond at he
    split_ifs at he
    · obtain rfl := Option.some.inj he
      exact .error hcout
    · exact (waitLoop_answered hopen _ _ _ (hcclean.setConds (hopen 2)) r he).trans fun i hi => by
        rw [eachFd_outside hi, hcout i hi]
  · obtain rfl := Option.some.inj he
    exact .error hcout
  · obtain rfl := Option.some.inj he
    exact ⟨fun i hi => (ready_outside hi).trans (hcout i hi), fun cnt hc => Except.ok.inj hc ▸ hcclean.ready (hopen 2)⟩

/-- The size of the entries is refused; or it does not wrap around, the descriptors are open at the first pass, and an entry
is ready then or the call can wait. -/
def Pollable [Machine] (env : PollEnv) (nfds : Nat) (timeout : Int) (user : Nat → Pollfd) : Prop :=
  argsCopybufSize < copySize nfds ∨
    sizeofPollfd * nfds < 2 ^ Machine.nbits ∧ (∀ i < nfds, (env.view 0 i).isSome = true) ∧
      (ReadyAtOnce env nfds user ∨ Waits env nfds timeout user)

end

/-! ## Calls -/

def readable : Stream := ⟨true, false, 0, by decide, true, false, false⟩

def waiting : Stream := ⟨false, false, 0, by decide, true, false, false⟩

/-- The files at each pass, with no failures, and a sleep that a condition ends. -/
def PollEnv.of (view : (pass i : Nat) → Option Stream) : PollEnv := ⟨view, false, false, false, [.cond], false⟩

def oneFd (fd : Int) (events : UInt16) : Nat → Pollfd := fun i => if i = 0 then ⟨fd, events, 0⟩ else ⟨0, 0, 0⟩

theorem eachFd_count_pos {step : Nat → Pollfd → Pollfd × Nat} {nfds : Nat} {fds : Nat → Pollfd} (hn : 0 < nfds)
    (h : 0 < (step 0 (fds 0)).2) : 0 < (eachFd step nfds fds).2 := by
  obtain ⟨n, rfl⟩ : ∃ n, nfds = n + 1 := ⟨nfds - 1, by omega⟩
  rw [eachFd_count, List.range_succ_eq_map, List.map_cons, List.sum_cons]
  omega

theorem sysPoll_first [Machine] {env : PollEnv} {nfds : Nat} {timeout : Int} {user copybuf fds : Nat → Pollfd}
    (hsize : copySize nfds ≤ argsCopybufSize) (hin : env.faultIn = false) (hout : env.faultOut = false)
    (hfds : fds = (eachFd (fun _ p => ({ p with revents := 0 }, 0)) nfds (copyFds nfds copybuf user)).1)
    (hpos : 0 < (env.ready nfds 0 fds).2) :
    sysPoll env nfds timeout user copybuf =
      some ⟨.ok (env.ready nfds 0 fds).2, copyFds nfds user (env.ready nfds 0 fds).1, (env.ready nfds 0 fds).1⟩ := by
  simp only [sysPoll, if_neg (Nat.not_lt.mpr hsize), hin, hout, Bool.false_eq_true, if_false, pollPasses, ← hfds, if_pos hpos,
    Option.map_some]

end PollFds

end Usax.Sync
