import Mathlib.Data.List.Basic
import Mathlib.Tactic.Tauto

/-!
# New process numbers

`create_new_pid` of `sched.c`. One visit of the tasks, in the order of their numbers, moves two candidates forward:
`lowest_available` from 0 and `lowest_after_current_max` from the number after the last one that was given. A candidate
also moves over the group and the session of a process whose leader is gone, and then the visit is repeated, but only
when the first candidate is the one that is taken.
-/

namespace Usax.Proc.NewPid

/-! ## Data model -/

def maxPid : Int := 8191

/-- The fields of `struct task` and of its process that are used here. -/
structure Task where
  tid : Int
  pgid : Int
  sid : Int
  isMainThread : Bool
  isKernelThread : Bool
deriving DecidableEq, Repr

/-- `struct create_pid_visit_ctx`. -/
structure Ctx where
  kernelTid : Bool
  lowestAvailInvalid : Bool
  idOff : Int
  lowestAvailable : Int
  lowestAfterCurrentMax : Int
deriving DecidableEq, Repr

/-- `inc_candicate_if_matches`: the candidate, and whether it has moved. -/
def incCandicateIfMatches (cand id val : Int) : Int × Bool :=
  if cand ≠ val then (cand, false)
  else if cand = id then (cand, false)
  else (cand + 1, true)

/-- The two calls of `inc_candicate_if_matches` for one candidate. -/
def incForTask (cand tid : Int) (ti : Task) : Int × Bool :=
  let (cand, r₁) := incCandicateIfMatches cand tid ti.pgid
  let (cand, r₂) := incCandicateIfMatches cand tid ti.sid
  (cand, r₁ || r₂)

namespace Ctx

/-- The end of `create_new_pid_visit_cb`. -/
def incIfTaken (ctx : Ctx) (tid : Int) : Ctx :=
  { ctx with
    lowestAvailable := if ctx.lowestAvailable = tid then tid + 1 else ctx.lowestAvailable
    lowestAfterCurrentMax := if ctx.lowestAfterCurrentMax = tid then tid + 1 else ctx.lowestAfterCurrentMax }

def createNewPidVisitCb (ctx : Ctx) (ti : Task) : Ctx :=
  let tid := ti.tid - ctx.idOff
  if ctx.kernelTid then
    if !ti.isKernelThread then ctx else ctx.incIfTaken tid
  else if !ti.isMainThread then ctx
  else if tid < ctx.lowestAvailable then ctx
  else
    let (l, r) := incForTask ctx.lowestAvailable tid ti
    let (a, r') := incForTask ctx.lowestAfterCurrentMax tid ti
    incIfTaken { ctx with
      lowestAvailable := l
      lowestAfterCurrentMax := a
      lowestAvailInvalid := ctx.lowestAvailInvalid || r || r' } tid

/-- `iterate_over_tasks` with it. -/
def visit (ctx : Ctx) (tasks : List Task) : Ctx := tasks.foldl createNewPidVisitCb ctx

/-- The choice of `create_id_common`. -/
def choose (ctx : Ctx) (maxId : Int) : Int :=
  if ctx.lowestAfterCurrentMax ≤ maxId then ctx.lowestAfterCurrentMax
  else if ctx.lowestAvailable ≤ maxId then ctx.lowestAvailable
  else -1

/-- `create_id_common`, with a bound on the rounds of its loop. -/
def createIdCommon (tasks : List Task) (maxId : Int) : (fuel : Nat) → Ctx → Option Int
  | 0, _ => none
  | fuel + 1, ctx =>
    let ctx := { ctx with lowestAvailInvalid := false }.visit tasks
    let r := ctx.choose maxId
    if r = ctx.lowestAvailable ∧ ctx.lowestAvailInvalid then createIdCommon tasks maxId fuel ctx else some r

def forPid (currentMaxPid : Int) : Ctx := ⟨false, false, 0, 0, currentMaxPid + 1⟩

end Ctx

def createNewPid (tasks : List Task) (currentMaxPid : Int) (fuel : Nat) : Option Int :=
  Ctx.createIdCommon tasks maxPid fuel (.forPid currentMaxPid)

/-! ## What is in use -/

/-- The number belongs to the task, its group or its session. -/
def Task.Has (ti : Task) (id : Int) : Prop := id = ti.tid ∨ id = ti.pgid ∨ id = ti.sid

def Used (tasks : List Task) (id : Int) : Prop := ∃ ti ∈ tasks, ti.Has id

/-- The tasks in the tree: in the order of their numbers, and a task that is not the main thread of its process is a kernel
thread, with a number above all pids, in the process of a main thread. -/
structure Tree (tasks : List Task) : Prop where
  sorted : tasks.Pairwise fun x y => x.tid < y.tid
  nonneg : ∀ ti ∈ tasks, 0 ≤ ti.tid
  thread : ∀ ti ∈ tasks, ti.isMainThread = false →
    maxPid < ti.tid ∧ ∃ main ∈ tasks, main.isMainThread ∧ main.pgid = ti.pgid ∧ main.sid = ti.sid

/-- A group or session without a leader is out of the way of the candidates: there is a pid above the last one that is not in
use, and the number is not between them; or it is not above the last pid, and below that of a member. -/
def LeadersBelow (tasks : List Task) (currentMaxPid : Int) : Prop :=
  ∀ id ≤ maxPid, Used tasks id → (∃ ti ∈ tasks, ti.isMainThread ∧ id = ti.tid) ∨
    (id ≤ currentMaxPid ∧ ∃ ti ∈ tasks, ti.isMainThread ∧ ti.Has id ∧ id < ti.tid) ∨
    ∃ free, currentMaxPid < free ∧ free ≤ maxPid ∧ ¬Used tasks free ∧ (id ≤ currentMaxPid ∨ free < id)

/-! ## One task -/

section

variable {cand tid : Int} {ti : Task} {ctx : Ctx} {tasks : List Task}

theorem incForTask_spec (cand : Int) (ti : Task) :
    cand ≤ (incForTask cand ti.tid ti).1 ∧
    (∀ v, cand ≤ v → v < (incForTask cand ti.tid ti).1 → ti.Has v) ∧
    (cand ≤ ti.tid → (incForTask cand ti.tid ti).1 ≤ ti.tid) ∧
    ((incForTask cand ti.tid ti).2 = true → cand < (incForTask cand ti.tid ti).1) ∧
    ((incForTask cand ti.tid ti).2 = false →
      (incForTask cand ti.tid ti).1 = cand ∧ (ti.Has cand → cand = ti.tid)) := by
  unfold incForTask incCandicateIfMatches Task.Has
  dsimp only
  split_ifs <;> dsimp only at * <;> simp only [Bool.or_false, Bool.or_true, reduceCtorEq] <;> grind

/-- What `create_new_pid_visit_cb` does with one task. -/
structure Moved (ctx : Ctx) (ti : Task) (ctx' : Ctx) : Prop where
  user : ctx'.kernelTid = false ∧ ctx'.idOff = 0
  low : ctx.lowestAvailable ≤ ctx'.lowestAvailable
  lowHas : ∀ v, ctx.lowestAvailable ≤ v → v < ctx'.lowestAvailable → ti.Has v
  lowLe : ctx.lowestAvailable ≤ ti.tid → ctx'.lowestAvailable ≤ ti.tid + 1
  lowNe : ti.isMainThread → ctx'.lowestAvailable ≠ ti.tid
  after : ctx.lowestAfterCurrentMax ≤ ctx'.lowestAfterCurrentMax
  afterHas : ∀ v, ctx.lowestAfterCurrentMax ≤ v → v < ctx'.lowestAfterCurrentMax → ti.isMainThread ∧ ti.Has v
  afterNe : ti.isMainThread → ctx.lowestAvailable ≤ ti.tid → ctx'.lowestAfterCurrentMax ≠ ti.tid
  invalid : ctx'.lowestAvailInvalid → ctx.lowestAvailInvalid ∨ ctx.lowestAvailable < ctx'.lowestAvailable ∨
    ctx.lowestAfterCurrentMax < ctx'.lowestAfterCurrentMax
  valid : ctx'.lowestAvailInvalid = false → ctx.lowestAvailInvalid = false ∧
    (ctx'.lowestAvailable ≠ ctx.lowestAvailable → ctx.lowestAvailable = ti.tid) ∧
    (ti.isMainThread → ctx.lowestAvailable < ti.tid → ¬ti.Has ctx.lowestAvailable)

theorem createNewPidVisitCb_moved (ti : Task) (hk : ctx.kernelTid = false) (h₀ : ctx.idOff = 0) :
    Moved ctx ti (ctx.createNewPidVisitCb ti) := by
  obtain ⟨hl, hlHas, hlLe, hlMoved, hlStays⟩ := incForTask_spec ctx.lowestAvailable ti
  obtain ⟨ha, haHas, haLe, haMoved, haStays⟩ := incForTask_spec ctx.lowestAfterCurrentMax ti
  unfold Ctx.createNewPidVisitCb
  simp only [hk, h₀, Int.sub_zero, Bool.false_eq_true, if_false]
  split_ifs with hm hlt
  · constructor <;> grind
  · constructor <;> grind
  · unfold Ctx.incIfTaken
    constructor <;> dsimp only <;> grind [Task.Has]

/-! ## One visit -/

theorem visit_cons : ctx.visit (ti :: tasks) = (ctx.createNewPidVisitCb ti).visit tasks := rfl

structure Visited (ctx : Ctx) (tasks : List Task) (ctx' : Ctx) : Prop where
  user : ctx'.kernelTid = false ∧ ctx'.idOff = 0
  low : ctx.lowestAvailable ≤ ctx'.lowestAvailable
  lowUsed : ∀ v, ctx.lowestAvailable ≤ v → v < ctx'.lowestAvailable → Used tasks v
  after : ctx.lowestAfterCurrentMax ≤ ctx'.lowestAfterCurrentMax
  afterUsed : ∀ v, ctx.lowestAfterCurrentMax ≤ v → v < ctx'.lowestAfterCurrentMax → Used tasks v
  invalid : ctx'.lowestAvailInvalid → ctx.lowestAvailInvalid ∨ ctx.lowestAvailable < ctx'.lowestAvailable ∨
    ctx.lowestAfterCurrentMax < ctx'.lowestAfterCurrentMax
  valid : ctx'.lowestAvailInvalid = false → ctx.lowestAvailInvalid = false

theorem Used.cons {v : Int} (h : Used tasks v) : Used (ti :: tasks) v :=
  h.imp fun _ h => ⟨List.mem_cons_of_mem _ h.1, h.2⟩

theorem visit_visited (tasks : List Task) (hk : ctx.kernelTid = false) (h₀ : ctx.idOff = 0) :
    Visited ctx tasks (ctx.visit tasks) := by
  induction tasks generalizing ctx with
  | nil => constructor <;> simp [Ctx.visit, hk, h₀] <;> omega
  | cons ti tasks ih =>
    have hm := createNewPidVisitCb_moved ti hk h₀
    have hv := ih hm.user.1 hm.user.2
    rw [visit_cons]
    refine ⟨hv.user, Int.le_trans hm.low hv.low, fun v h h' => ?_, Int.le_trans hm.after hv.after, fun v h h' => ?_,
      fun h => ?_, fun h => (hm.valid (hv.valid h)).1⟩
    · by_cases hlt : v < (ctx.createNewPidVisitCb ti).lowestAvailable
      · exact ⟨ti, List.mem_cons_self, hm.lowHas v h hlt⟩
      · exact (hv.lowUsed v (Int.not_lt.mp hlt) h').cons
    · by_cases hlt : v < (ctx.createNewPidVisitCb ti).lowestAfterCurrentMax
      · exact ⟨ti, List.mem_cons_self, (hm.afterHas v h hlt).2⟩
      · exact (hv.afterUsed v (Int.not_lt.mp hlt) h').cons
    · have h₁ := hm.low
      have h₂ := hv.low
      have h₃ := hm.after
      have h₄ := hv.after
      rcases hv.invalid h with h | h | h
      · rcases hm.invalid h with h | h | h
        · exact .inl h
        · exact .inr (.inl (by omega))
        · exact .inr (.inr (by omega))
      · exact .inr (.inl (by omega))
      · exact .inr (.inr (by omega))

theorem visit_stays (hk : ctx.kernelTid = false) (h₀ : ctx.idOff = 0) (hv : (ctx.visit tasks).lowestAvailInvalid = false)
    (hlt : ∀ ti ∈ tasks, ctx.lowestAvailable < ti.tid) : (ctx.visit tasks).lowestAvailable = ctx.lowestAvailable := by
  induction tasks generalizing ctx with
  | nil => rfl
  | cons ti tasks ih =>
    have hm := createNewPidVisitCb_moved ti hk h₀
    rw [visit_cons] at hv ⊢
    have hvalid := (hm.valid ((visit_visited tasks hm.user.1 hm.user.2).valid hv)).2
    have heq : (ctx.createNewPidVisitCb ti).lowestAvailable = ctx.lowestAvailable := by
      by_contra hne
      have := hlt ti List.mem_cons_self
      have := hvalid.1 hne
      omega
    rw [← heq]
    exact ih hm.user.1 hm.user.2 hv fun t ht => by rw [heq]; exact hlt t (List.mem_cons_of_mem _ ht)

/-- Where the first candidate stops when no leader was missed: at no task, and at no number below a task that has it. -/
theorem visit_fresh (hk : ctx.kernelTid = false) (h₀ : ctx.idOff = 0) (hs : tasks.Pairwise fun x y => x.tid < y.tid)
    (hv : (ctx.visit tasks).lowestAvailInvalid = false) :
    ∀ ti ∈ tasks, ti.isMainThread → (ctx.visit tasks).lowestAvailable ≠ ti.tid ∧
      (ti.Has (ctx.visit tasks).lowestAvailable → ti.tid < (ctx.visit tasks).lowestAvailable) := by
  induction tasks generalizing ctx with
  | nil => simp
  | cons ti tasks ih =>
    obtain ⟨hlt, hs⟩ := List.pairwise_cons.mp hs
    have hm := createNewPidVisitCb_moved ti hk h₀
    rw [visit_cons] at hv ⊢
    have hvis := visit_visited tasks hm.user.1 hm.user.2
    have hvalid := (hm.valid (hvis.valid hv)).2
    have hle := hvis.low
    intro t ht hmain
    rcases List.mem_cons.mp ht with rfl | ht
    · have hne := hm.lowNe hmain
      by_cases hgt : t.tid < (ctx.createNewPidVisitCb t).lowestAvailable
      · exact ⟨by omega, fun _ => by omega⟩
      · -- the candidate is still below the task, and so below all that come later
        have hstays := visit_stays hm.user.1 hm.user.2 hv fun u hu => by have := hlt u hu; omega
        have hlow := hm.low
        have heq : (ctx.createNewPidVisitCb t).lowestAvailable = ctx.lowestAvailable := by
          by_contra hne
          have := hvalid.1 hne
          omega
        rw [hstays]
        refine ⟨hne, fun hhas => absurd ?_ (hvalid.2 hmain (by omega))⟩
        rwa [← heq]
    · exact ih hm.user.1 hm.user.2 hs hv t ht hmain

/-- Where the second candidate stops after a visit that begins below all tasks, when all that it meets has a leader. -/
theorem visit_after (hk : ctx.kernelTid = false) (h₀ : ctx.idOff = 0) {seen : List Task}
    (hs : (seen ++ tasks).Pairwise fun x y => x.tid < y.tid) (hle : ∀ ti ∈ tasks, ctx.lowestAvailable ≤ ti.tid)
    (hseen : ∀ ti ∈ seen, ti.isMainThread → ctx.lowestAfterCurrentMax ≠ ti.tid)
    (hlead : ∀ ti ∈ tasks, ∀ v, ctx.lowestAfterCurrentMax ≤ v → v < (ctx.visit tasks).lowestAfterCurrentMax → ti.Has v →
      ∃ t ∈ seen ++ tasks, t.isMainThread ∧ v = t.tid) :
    ∀ ti ∈ seen ++ tasks, ti.isMainThread → (ctx.visit tasks).lowestAfterCurrentMax ≠ ti.tid := by
  induction tasks generalizing ctx seen with
  | nil => simpa [Ctx.visit] using hseen
  | cons ti tasks ih =>
    have hm := createNewPidVisitCb_moved ti hk h₀
    obtain ⟨-, hs₂, hs₁₂⟩ := List.pairwise_append.mp hs
    obtain ⟨hlt, -⟩ := List.pairwise_cons.mp hs₂
    have hti := hle ti List.mem_cons_self
    have hafter := hm.after
    rw [visit_cons] at hlead ⊢
    have hle' := (visit_visited tasks hm.user.1 hm.user.2).after
    rw [List.append_cons] at hs hlead ⊢
    refine ih hm.user.1 hm.user.2 hs (fun t ht => ?_) (fun t ht hmain => ?_) (fun t ht v hge => ?_)
    · have := hm.lowLe hti
      have := hlt t ht
      omega
    · rcases List.mem_append.mp ht with ht | ht
      · intro heq
        have hne := hseen t ht hmain
        have hlt' := hs₁₂ t ht ti List.mem_cons_self
        -- the candidate has moved, so it was the number of a task, which has not been seen yet
        obtain ⟨-, hhas⟩ := hm.afterHas _ (Int.le_refl _) (by omega)
        obtain ⟨u, hu, humain, hueq⟩ := hlead ti List.mem_cons_self _ (Int.le_refl _) (by omega) hhas
        rw [List.append_assoc, List.mem_append] at hu
        rcases hu with hu | hu
        · exact hseen u hu humain hueq
        · rcases List.mem_cons.mp hu with rfl | hu
          · omega
          · have := hlt u hu
            omega
      · obtain rfl := List.mem_singleton.mp ht
        exact hm.afterNe hmain hti
    · exact hlead t (List.mem_cons_of_mem _ ht) v (by omega)

/-! ## All visits -/

/-- A number for the next process: every smaller one is in use if there is none, and it is not in use if `ok`. -/
def Good (tasks : List Task) (ok : Prop) (r : Int) : Prop :=
  (r = -1 ∧ ∀ id, 0 ≤ id → id ≤ maxPid → Used tasks id) ∨ (0 ≤ r ∧ r ≤ maxPid ∧ (ok → ¬Used tasks r))

/-- The tasks leave the second candidate where it is. -/
def Settled (tasks : List Task) (ctx : Ctx) : Prop :=
  ctx.lowestAfterCurrentMax ≤ maxPid → ¬Used tasks ctx.lowestAfterCurrentMax

theorem Settled.visit {ctx' : Ctx} (h : Settled tasks ctx) (hv : Visited ctx tasks ctx') : Settled tasks ctx' := by
  intro hle hused
  have hge := hv.after
  by_cases heq : ctx.lowestAfterCurrentMax = ctx'.lowestAfterCurrentMax
  · exact h (by omega) (heq ▸ hused)
  · exact h (by omega) (hv.afterUsed _ (Int.le_refl _) (by omega))

theorem Tree.main (ht : Tree tasks) {v : Int} (hv : v ≤ maxPid) (h : Used tasks v) :
    ∃ ti ∈ tasks, ti.isMainThread ∧ ti.Has v := by
  obtain ⟨ti, hti, hhas⟩ := h
  cases hm : ti.isMainThread with
  | true => exact ⟨ti, hti, hm, hhas⟩
  | false =>
    obtain ⟨hgt, main, hmain, hmm, hg, hsid⟩ := ht.thread ti hti hm
    refine ⟨main, hmain, hmm, ?_⟩
    rcases hhas with h | h | h
    · omega
    · exact .inr (.inl (by rw [h, hg]))
    · exact .inr (.inr (by rw [h, hsid]))

theorem visit_good (ht : Tree tasks) {currentMaxPid : Int} {ok : Prop} (hok : ok → LeadersBelow tasks currentMaxPid)
    (hk : ctx.kernelTid = false) (h₀ : ctx.idOff = 0) (hpos : 0 ≤ ctx.lowestAvailable) (hcur : 0 ≤ ctx.lowestAfterCurrentMax)
    (hlow : ∀ id, 0 ≤ id → id < ctx.lowestAvailable → Used tasks id)
    (hup : ∀ id, currentMaxPid < id → id < ctx.lowestAfterCurrentMax → Used tasks id)
    (hset : ok → Settled tasks (ctx.visit tasks))
    (hlast : ¬((ctx.visit tasks).choose maxPid = (ctx.visit tasks).lowestAvailable ∧
      (ctx.visit tasks).lowestAvailInvalid)) : Good tasks ok ((ctx.visit tasks).choose maxPid) := by
  have hv := visit_visited tasks hk h₀
  have hl := hv.low
  have ha := hv.after
  unfold Ctx.choose at *
  split_ifs at * with hamax hlmax
  · exact .inr ⟨by omega, hamax, fun h => hset h hamax⟩
  · refine .inr ⟨by omega, hlmax, fun h hused => ?_⟩
    obtain ⟨ti, hti, hm, hhas⟩ := ht.main hlmax hused
    have hfresh := visit_fresh hk h₀ ht.sorted (by simpa using hlast)
    rcases hok h _ hlmax hused with ⟨t, htt, hm, heq⟩ | ⟨-, t, htt, hm, hhas, hlt⟩ | ⟨free, hgt, hfmax, hfree, -⟩
    · exact (hfresh t htt hm).1 heq
    · have := (hfresh t htt hm).2 hhas
      omega
    · -- the second candidate has passed all the pids above the last one
      refine hfree ?_
      by_cases hlt : free < ctx.lowestAfterCurrentMax
      · exact hup free hgt hlt
      · exact hv.afterUsed free (by omega) (by omega)
  · refine .inl ⟨rfl, fun id h h' => ?_⟩
    by_cases hlt : id < ctx.lowestAvailable
    · exact hlow id h hlt
    · exact hv.lowUsed id (by omega) (by omega)

theorem createIdCommon_good (ht : Tree tasks) {currentMaxPid : Int} {ok : Prop}
    (hok : ok → LeadersBelow tasks currentMaxPid) {top : Int} (htop : ∀ v, Used tasks v → v < top) {fuel : Nat}
    (hk : ctx.kernelTid = false) (h₀ : ctx.idOff = 0) (hpos : 0 ≤ ctx.lowestAvailable) (hcur : 0 ≤ ctx.lowestAfterCurrentMax)
    (hlow : ∀ id, 0 ≤ id → id < ctx.lowestAvailable → Used tasks id)
    (hup : ∀ id, currentMaxPid < id → id < ctx.lowestAfterCurrentMax → Used tasks id)
    (hset : ok → Settled tasks ({ ctx with lowestAvailInvalid := false }.visit tasks))
    (hfuel : (top - ctx.lowestAvailable).toNat + (top - ctx.lowestAfterCurrentMax).toNat < fuel) :
    ∃ r, ctx.createIdCommon tasks maxPid fuel = some r ∧ Good tasks ok r := by
  induction fuel generalizing ctx with
  | zero => omega
  | succ fuel ih =>
    have hv : Visited { ctx with lowestAvailInvalid := false } tasks _ := visit_visited tasks hk h₀
    rw [Ctx.createIdCommon]
    split_ifs with hagain
    · have hl : ctx.lowestAvailable ≤ _ := hv.low
      have ha : ctx.lowestAfterCurrentMax ≤ _ := hv.after
      refine ih hv.user.1 hv.user.2 (by omega) (by omega) (fun id h h' => ?_) (fun id h h' => ?_)
        (fun h => ?_) ?_
      · by_cases hlt : id < ctx.lowestAvailable
        · exact hlow id h hlt
        · exact hv.lowUsed id (Int.not_lt.mp hlt) h'
      · by_cases hlt : id < ctx.lowestAfterCurrentMax
        · exact hup id h hlt
        · exact hv.afterUsed id (Int.not_lt.mp hlt) h'
      · exact @Settled.visit { Ctx.visit _ tasks with lowestAvailInvalid := false } _ _ (hset h)
          (visit_visited tasks hv.user.1 hv.user.2)
      · -- a candidate that has moved was in use
        rcases hv.invalid hagain.2 with h | h | h
        · cases h
        · have := htop _ (hv.lowUsed _ (Int.le_refl _) h)
          dsimp only at h this
          omega
        · have := htop _ (hv.afterUsed _ (Int.le_refl _) h)
          dsimp only at h this
          omega
    · exact ⟨_, rfl, visit_good ht hok hk h₀ hpos hcur hlow hup hset hagain⟩

theorem exists_top (tasks : List Task) : ∃ top, ∀ v, Used tasks v → v < top := by
  induction tasks with
  | nil => exact ⟨0, fun v h => by obtain ⟨ti, hti, -⟩ := h; cases hti⟩
  | cons ti tasks ih =>
    obtain ⟨top, htop⟩ := ih
    refine ⟨max top (max ti.tid (max ti.pgid ti.sid) + 1), fun v h => ?_⟩
    obtain ⟨t, ht, hhas⟩ := h
    rcases List.mem_cons.mp ht with rfl | ht
    · rcases hhas with h | h | h <;> omega
    · have := htop v ⟨t, ht, hhas⟩
      omega

theorem settled_first (ht : Tree tasks) {currentMaxPid : Int} (hl : LeadersBelow tasks currentMaxPid) :
    Settled tasks ((Ctx.forPid currentMaxPid).visit tasks) := by
  intro hmax hused
  have hv : Visited (.forPid currentMaxPid) tasks _ := visit_visited tasks rfl rfl
  have hge : currentMaxPid + 1 ≤ _ := hv.after
  -- the candidate has passed no number that is not in use
  have hpassed (v free : Int) (hfree : ¬Used tasks free) (hgt : currentMaxPid < free) (hlt : free < v) :
      ¬v ≤ ((Ctx.forPid currentMaxPid).visit tasks).lowestAfterCurrentMax := fun hle =>
    hfree (hv.afterUsed free hgt (by omega))
  rcases hl _ hmax hused with ⟨t, htt, hm, heq⟩ | ⟨hle, -⟩ | ⟨free, hgt, -, hfree, hle | hlt⟩
  · refine @visit_after _ _ rfl rfl [] ht.sorted ht.nonneg (fun _ h => by cases h) (fun ti hti v hge hlt hhas => ?_)
      t htt hm heq
    have hge : currentMaxPid + 1 ≤ v := hge
    rcases hl v (by omega) ⟨ti, hti, hhas⟩ with h | ⟨hle, -⟩ | ⟨free, hgt, -, hfree, hle | hlt'⟩
    · exact h
    · omega
    · omega
    · exact absurd (by omega) (hpassed v free hfree hgt hlt')
  · omega
  · omega
  · exact absurd (Int.le_refl _) (hpassed _ free hfree hgt hlt)

end

/-- The kernel's main thread, `init`, and two processes in the groups of leaders that are gone. -/
def orphans : List Task :=
  [⟨1, 1, 1, true, false⟩, ⟨4, 100, 1, true, false⟩, ⟨5, 3, 1, true, false⟩, ⟨10000, 0, 0, true, true⟩]

end Usax.Proc.NewPid
