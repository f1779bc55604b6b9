import KernelModules.Foundation.ProcessTable
import KernelModules.RateMonotonic.PreemptionStep

/-!
# Processes that exit

`Task_register` stores the pointer that `find_task_by_pid` returns, and `Task_yeild` and the
dispatching thread pass it on to the kernel much later. Here whole operations run beside a table of
the processes, which start and exit at any time, also while their task is listed. The law: every
`linux_task` that a step passes on is not NULL and belongs to a live process (`PassesLive`).

Nothing tells the module of an exit. `passesLive_of_keepsProcesses` says that a run keeps the law in
which every registration finds a live process and no process exits while its task is listed
(`KeepsProcesses`).
-/

set_option autoImplicit false
set_option relaxedAutoImplicit false

namespace KernelModules.RateMonotonic

open Foundation Scheduler

/-! ### The calls on processes -/

/-- The task whose `linux_task` a yield passes to `set_task_state`. -/
def yeildActsOn (platform : Platform) (s : Scheduler) (pid : UInt32) (now : UInt64) : List Addr :=
  match s.yeildLookup pid with
  | none => []
  | some t => if (s.slab t).missesDdl platform now then [] else [t]

/-- The tasks whose `linux_task` an iteration of the dispatching thread passes to
`sched_setscheduler` for the current task, and to `wake_up_process` and `sched_setscheduler` for the
selected one. -/
def dispachingActsOn (s : Scheduler) : List Addr :=
  match s.highestReady, s.ct with
  | none, none => []
  | none, some cur => [cur]
  | some h, none => [h, h]
  | some h, some cur => if s.outranked cur h then [cur, h, h] else []

/-- The tasks whose `linux_task` an operation passes on, in the order of the calls. -/
def actsOn (platform : Platform) (s : Scheduler) : Op → List Addr
  | .yeild pid now => yeildActsOn platform s pid now
  | .dispatch => dispachingActsOn s
  | _ => []

/-- The calls that are made. One with NULL faults, and none is made after it. -/
def upToNull : List (Option LinuxTask) → List (Option LinuxTask)
  | [] => []
  | none :: _ => [none]
  | some process :: rest => some process :: upToNull rest

/-- The pointers that an operation passes on. -/
def passed (platform : Platform) (s : Scheduler) (op : Op) : List (Option LinuxTask) :=
  upToNull ((actsOn platform s op).map fun a ↦ (s.slab a).linuxTask)

/-- What is true of all calls that are made is true of all. Assumes: it is not true of NULL. -/
theorem forall_mem_upToNull_iff {property : Option LinuxTask → Prop} (hnull : ¬ property none)
    (calls : List (Option LinuxTask)) :
    (∀ call ∈ upToNull calls, property call) ↔ ∀ call ∈ calls, property call := by
  induction calls with
  | nil => rfl
  | cons call rest ih =>
    cases call with
    | none =>
      refine iff_of_false (fun hall ↦ ?_) fun hall ↦ hnull (hall none List.mem_cons_self)
      exact hnull (hall none (List.mem_singleton_self none))
    | some process => rw [upToNull, List.forall_mem_cons, List.forall_mem_cons, ih]

/-- A yield acts on the task that it finds, unless the deadline is missed. -/
theorem mem_yeildActsOn_iff {platform : Platform} {s : Scheduler} {pid : UInt32} {now : UInt64}
    {a : Addr} : a ∈ yeildActsOn platform s pid now ↔
      s.yeildLookup pid = some a ∧ (s.slab a).missesDdl platform now = false := by
  unfold yeildActsOn
  cases hfound : s.yeildLookup pid with
  | none => simp
  | some t =>
    by_cases hmissed : (s.slab t).missesDdl platform now = true
    · simp only [if_pos hmissed, List.not_mem_nil, Option.some.injEq, false_iff]
      rintro ⟨rfl, hmade⟩
      rw [hmade] at hmissed
      exact Bool.false_ne_true hmissed
    · simp only [if_neg hmissed, List.mem_singleton, Option.some.injEq]
      rw [Bool.not_eq_true] at hmissed
      constructor
      · rintro rfl
        exact ⟨rfl, hmissed⟩
      · rintro ⟨heq, -⟩
        exact heq.symm

/-- The dispatching thread acts on the tasks that it hands over. -/
theorem mem_dispachingActsOn_iff (s : Scheduler) (a : Addr) :
    a ∈ dispachingActsOn s ↔ HandsOver s a := by
  unfold dispachingActsOn
  cases hselected : s.highestReady with
  | none =>
    have hready : ¬ SomeReady s := by
      rw [someReady_iff, hselected]
      simp
    rw [handsOver_iff_of_none hready]
    cases hct : s.ct <;> simp [eq_comm]
  | some h =>
    rw [handsOver_iff hselected]
    cases hct : s.ct with
    | none => simp
    | some cur =>
      have houter : s.outranked cur h = true ↔ (s.slab h).period < (s.slab cur).period := by
        simp [outranked]
      by_cases hlonger : (s.slab h).period < (s.slab cur).period
      · simp [houter, hlonger, eq_comm]
      · simp [houter, hlonger]

/-- An operation acts on listed tasks. Assumes: `ct` is NULL or listed. -/
theorem mem_tl_of_mem_actsOn {platform : Platform} {s : Scheduler} (hs : CtListed s) {op : Op}
    {a : Addr} (ha : a ∈ actsOn platform s op) : a ∈ s.tl := by
  cases op with
  | register pid period procTime found => cases ha
  | deregister pid => cases ha
  | timer data => cases ha
  | yeild pid now => exact (mem_of_yeildLookup (mem_yeildActsOn_iff.mp ha).1).1
  | dispatch =>
    rcases (mem_dispachingActsOn_iff s a).mp ha with ⟨hct, -⟩ | ⟨⟨-, -, before, after, htl, -⟩, -⟩
    · exact (hs a hct).1
    · rw [htl]
      exact List.mem_append_right before List.mem_cons_self

/-- NULL is passed on exactly when an operation acts on a task without a process. -/
theorem null_mem_passed_iff (platform : Platform) (s : Scheduler) (op : Op) :
    none ∈ passed platform s op ↔ ∃ a ∈ actsOn platform s op, (s.slab a).linuxTask = none := by
  have hforall : ∀ calls : List (Option LinuxTask),
      none ∉ calls ↔ ∀ call ∈ calls, call ≠ none := fun calls ↦
    ⟨fun hnot call hmem heq ↦ hnot (heq ▸ hmem), fun hall hmem ↦ hall none hmem rfl⟩
  rw [← not_iff_not, passed, hforall, forall_mem_upToNull_iff (fun hne ↦ hne rfl),
    List.forall_mem_map]
  push Not
  rfl

/-- An iteration of the dispatching thread ends in a fault on NULL exactly when it acts on a task
without a process. -/
theorem dispachingIteration_faulted_iff (s : Scheduler) :
    (dispachingIteration s).outcome = .faulted .nullTask ↔
      ∃ a ∈ dispachingActsOn s, (s.slab a).linuxTask = none := by
  have houtcome : (dispachingIteration s).outcome = .faulted .nullTask ↔
      (ctSection s.highestReady s.unlockTl).outcome = .faulted .nullTask := by
    rw [dispachingIteration_eq]
    unfold Result.andThen
    split
    · rename_i hreturned
      rw [hreturned]
      exact iff_of_false (fun hfault ↦ by cases hfault) fun hfault ↦ by cases hfault
    · rfl
  rw [houtcome]
  unfold dispachingActsOn
  have hstep := ctSection_step s.unlockTl s.highestReady
  cases hselected : s.highestReady with
  | none =>
    rw [hselected] at hstep
    generalize ctSection none s.unlockTl = result at hstep
    cases hstep with
    | idle hct =>
      rw [unlockTl_ct] at hct
      simp [hct]
    | demoteFault hct hnull =>
      rw [unlockTl_ct] at hct
      rw [unlockTl_slab] at hnull
      simp [hct, hnull]
    | demote hct hlinux =>
      rw [unlockTl_ct] at hct
      rw [unlockTl_slab] at hlinux
      simp [hct, hlinux]
  | some h =>
    rw [hselected] at hstep
    generalize ctSection (some h) s.unlockTl = result at hstep
    cases hstep with
    | keep hct hrank =>
      rw [unlockTl_ct] at hct
      have hrank' : s.outranked _ h = false := hrank
      simp [hct, hrank']
    | startFault hct hnull =>
      rw [unlockTl_ct] at hct
      rw [unlockTl_slab] at hnull
      simp [hct, hnull]
    | preemptFault hct hrank hnull =>
      rw [unlockTl_ct] at hct
      have hrank' : s.outranked _ h = true := hrank
      rw [unlockTl_slab] at hnull
      simpa [hct, hrank'] using hnull
    | start hct hlinux =>
      rw [unlockTl_ct] at hct
      rw [unlockTl_slab] at hlinux
      simp [hct, hlinux]
    | preempt hct hrank hcur hlinux =>
      rw [unlockTl_ct] at hct
      have hrank' : s.outranked _ h = true := hrank
      rw [unlockTl_slab] at hcur hlinux
      simp [hct, hrank', hcur, hlinux]

/-- An operation ends in a fault on NULL exactly when it passes one on. -/
theorem faulted_iff_null_mem_passed (platform : Platform) (op : Op) (s : Scheduler) :
    (exec platform op s).outcome = .faulted .nullTask ↔ none ∈ passed platform s op := by
  rw [null_mem_passed_iff]
  have hnone : ¬ ∃ a ∈ ([] : List Addr), (s.slab a).linuxTask = none := by simp
  cases op with
  | register pid period procTime found =>
    refine iff_of_false ?_ hnone
    rw [exec]
    rcases taskRegister_cases pid period procTime found s with
      ⟨-, hresult⟩ | ⟨-, -, hresult⟩ | ⟨-, -, -, hresult⟩ | ⟨-, -, -, hresult⟩
    all_goals simp [hresult]
  | deregister pid =>
    refine iff_of_false ?_ hnone
    rw [exec]
    rcases taskDeregister_cases pid s with ⟨-, hresult⟩ | ⟨t, -, ⟨-, hresult⟩ | ⟨-, hresult⟩⟩
    all_goals simp [hresult]
  | timer data => exact iff_of_false (fun hfault ↦ by cases hfault) hnone
  | yeild pid now =>
    simp only [exec, actsOn, mem_yeildActsOn_iff]
    rcases taskYeild_cases platform pid now s with
      ⟨hlookup, hresult⟩ | ⟨t, hfound, ⟨hmissed, hresult⟩ | ⟨hmade, hnull, hresult⟩ |
        ⟨hmade, hlinux, hresult⟩⟩
    · simp [hresult, hlookup]
    · simp [hresult, hfound, hmissed]
    · simp [hresult, hfound, hmade, hnull]
    · simp [hresult, hfound, hmade, hlinux]
  | dispatch => exact dispachingIteration_faulted_iff s

/-! ### Operations beside processes -/

/-- What can happen next: an operation of the module, or a process that starts or exits. -/
inductive Event
  | op (op : Op)
  | spawn (pid : UInt32)
  | exit (pid : UInt32)

/-- A run up to an event: the processes by their pid, the pointers that the last event passed on,
and for each record whether it was registered for no process or its process has exited since. -/
structure System where
  result : Result
  table : ProcessTable UInt32
  passed : List (Option LinuxTask)
  gone : Addr → Bool

/-- `find_task_by_pid` finds the live process of the pid. -/
def FindsProcess (table : ProcessTable UInt32) : Op → Prop
  | .register pid _ _ found => found = table.live pid
  | _ => True

instance (table : ProcessTable UInt32) (op : Op) : Decidable (FindsProcess table op) :=
  match op with
  | .register pid _ _ found => inferInstanceAs (Decidable (found = table.live pid))
  | .yeild _ _ => isTrue trivial
  | .deregister _ => isTrue trivial
  | .timer _ => isTrue trivial
  | .dispatch => isTrue trivial

/-- The records without their process after an operation. -/
def System.goneAfter (m : System) : Op → Addr → Bool
  | .register pid period procTime found =>
    if (taskRegister pid period procTime found m.result.state).outcome = .returned 0 then
      Function.update m.gone m.result.state.fresh (m.table.live pid).isNone
    else m.gone
  | _ => m.gone

/-- The step of a run. A process starts under a free pid. -/
def nextEvent (platform : Platform) (m : System) : Event → Option System
  | .op op =>
    if FindsProcess m.table op then
      some
        { m with
          result := exec platform op m.result.state
          passed := passed platform m.result.state op
          gone := m.goneAfter op }
    else none
  | .spawn pid =>
    if m.table.live pid = none then some { m with table := m.table.spawn pid, passed := [] }
    else none
  | .exit pid =>
    some
      { m with
        table := m.table.exit pid
        passed := []
        gone := fun a ↦ m.gone a || decide ((m.result.state.slab a).pid = pid) }

/-- What a step leaves: an operation with the process of its pid, a process under a free pid, or one
process less. -/
theorem nextEvent_cases {platform : Platform} {m later : System} {event : Event}
    (hstep : nextEvent platform m event = some later) :
    (∃ op, event = .op op ∧ FindsProcess m.table op ∧ later =
      { m with
        result := exec platform op m.result.state
        passed := passed platform m.result.state op
        gone := m.goneAfter op }) ∨
    (∃ pid, event = .spawn pid ∧ m.table.live pid = none ∧
      later = { m with table := m.table.spawn pid, passed := [] }) ∨
    ∃ pid, event = .exit pid ∧ later =
      { m with
        table := m.table.exit pid
        passed := []
        gone := fun a ↦ m.gone a || decide ((m.result.state.slab a).pid = pid) } := by
  cases event with
  | op op =>
    rw [nextEvent] at hstep
    split_ifs at hstep with hfinds
    exact Or.inl ⟨op, rfl, hfinds, (Option.some.inj hstep).symm⟩
  | spawn pid =>
    rw [nextEvent] at hstep
    split_ifs at hstep with hfree
    exact Or.inr (Or.inl ⟨pid, rfl, hfree, (Option.some.inj hstep).symm⟩)
  | exit pid => exact Or.inr (Or.inr ⟨pid, rfl, (Option.some.inj hstep).symm⟩)

/-- The module is loaded, and no process has started. -/
def startSystem (slab : Addr → Mp2TaskStruct) : System where
  result := startOp slab
  table := .empty
  passed := []
  gone := fun _ ↦ false

/-- The law: the pointers that the last event passed on are those of live processes. -/
def PassesLive (m : System) : Prop :=
  ∀ call ∈ m.passed, ∃ process, call = some process ∧ m.table.Alive process

/-- An operation acts on tasks that were registered for a process, and whose process has not
exited. -/
def ActsOnPresent (platform : Platform) (m : System) : Event → Prop
  | .op op => ∀ a ∈ actsOn platform m.result.state op, m.gone a = false
  | .spawn _ => True
  | .exit _ => True

/-! ### What is known of the records -/

/-- The listed records that are not without their process point to the live process of their pid,
and the others point to none that is live, nor to one that is still to come. -/
structure Tracked (m : System) : Prop where
  ledger : ∃ ledger, Refines m.result.state ledger
  ct : CtListed m.result.state
  bound : ∀ a ∈ m.result.state.tl, ∀ process, (m.result.state.slab a).linuxTask = some process →
    process < m.table.next
  present : ∀ a ∈ m.result.state.tl, m.gone a = false → ∃ process,
    (m.result.state.slab a).linuxTask = some process ∧
      m.table.live (m.result.state.slab a).pid = some process
  absent : ∀ a ∈ m.result.state.tl, m.gone a = true → ∀ process,
    (m.result.state.slab a).linuxTask = some process → ¬ m.table.Alive process

/-- A listed record points to a live process exactly when it is not without its process. -/
theorem Tracked.live_iff {m : System} (hm : Tracked m) {a : Addr} (ha : a ∈ m.result.state.tl) :
    (∃ process, (m.result.state.slab a).linuxTask = some process ∧ m.table.Alive process) ↔
      m.gone a = false := by
  constructor
  · rintro ⟨process, hlinux, halive⟩
    by_contra hgone
    exact hm.absent a ha (Bool.not_eq_false _ ▸ hgone) process hlinux halive
  · intro hgone
    obtain ⟨process, hlinux, hlive⟩ := hm.present a ha hgone
    exact ⟨process, hlinux, _, hlive⟩

/-- At the start nothing is listed. -/
theorem tracked_startSystem (slab : Addr → Mp2TaskStruct) : Tracked (startSystem slab) where
  ledger := ⟨_, refines_mp2Init slab⟩
  ct := fun _ hct ↦ by cases hct
  bound := fun _ ha ↦ absurd ha List.not_mem_nil
  present := fun _ ha ↦ absurd ha List.not_mem_nil
  absent := fun _ ha ↦ absurd ha List.not_mem_nil

/-- A record that is listed after an operation was listed before, with its pid and its pointer, or
is new and points to the process of its pid. -/
theorem listed_exec (platform : Platform) {m : System} {op : Op}
    (hfinds : FindsProcess m.table op) {a : Addr}
    (ha : a ∈ (exec platform op m.result.state).state.tl) :
    (a ∈ m.result.state.tl ∧
      ((exec platform op m.result.state).state.slab a).fixed = (m.result.state.slab a).fixed ∧
        m.goneAfter op a = m.gone a) ∨
    ∃ pid period procTime found, op = .register pid period procTime found ∧
      ((exec platform op m.result.state).state.slab a).pid = pid ∧
      ((exec platform op m.result.state).state.slab a).linuxTask = m.table.live pid ∧
        m.goneAfter op a = (m.table.live pid).isNone := by
  have hsame : ∀ t : Scheduler, SameTasks m.result.state t → a ∈ t.tl →
      a ∈ m.result.state.tl ∧ (t.slab a).fixed = (m.result.state.slab a).fixed ∧
        m.gone a = m.gone a := fun t hsame ha ↦ ⟨hsame.tl ▸ ha, hsame.fixed a, rfl⟩
  cases op with
  | register pid period procTime found =>
    have hfound : found = m.table.live pid := hfinds
    simp only [exec, System.goneAfter] at ha ⊢
    rcases taskRegister_fails_or_registers pid period procTime found m.result.state with
      ⟨hfails, lock, hstate⟩ | hresult
    · rw [hstate] at ha ⊢
      rw [if_neg hfails]
      exact Or.inl ⟨ha, rfl, rfl⟩
    · rw [hresult] at ha ⊢
      simp only [if_true, registered_slab, registered_tl] at ha ⊢
      by_cases hnew : a = m.result.state.fresh
      · rw [hnew, Function.update_self, Function.update_self]
        exact Or.inr ⟨pid, period, procTime, found, rfl, rfl, hfound, rfl⟩
      · rw [Function.update_of_ne hnew, Function.update_of_ne hnew]
        exact Or.inl ⟨(List.mem_append.mp ha).resolve_right (by simpa using hnew), rfl, rfl⟩
  | yeild pid now => exact Or.inl (hsame _ (sameTasks_taskYeild platform pid now _) ha)
  | deregister pid =>
    exact Or.inl ⟨tl_taskDeregister_subset pid _ ha, fixed_taskDeregister pid _ a, rfl⟩
  | timer data => exact Or.inl (hsame _ (sameTasks_mp2TimerCallback data _) ha)
  | dispatch => exact Or.inl (hsame _ (sameTasks_dispachingIteration _) ha)

/-- An operation keeps what is known. -/
theorem Tracked.op {m : System} (hm : Tracked m) (platform : Platform) {op : Op}
    (hfinds : FindsProcess m.table op) (calls : List (Option LinuxTask)) :
    Tracked
      { m with
        result := exec platform op m.result.state
        passed := calls
        gone := m.goneAfter op } := by
  obtain ⟨ledger, hledger⟩ := hm.ledger
  have hpid : ∀ task other : Mp2TaskStruct, task.fixed = other.fixed →
      task.pid = other.pid ∧ task.linuxTask = other.linuxTask := fun task other hfixed ↦
    ⟨congrArg (·.1) hfixed, congrArg (·.2.2.2.1) hfixed⟩
  refine ⟨⟨_, refines_exec hledger platform op⟩, ctListed_exec hledger hm.ct platform op,
    ?_, ?_, ?_⟩
  · intro a ha process hlinux
    rcases listed_exec platform hfinds ha with ⟨hlisted, hfixed, -⟩ | ⟨pid, -, -, -, -, -, hnew, -⟩
    · rw [(hpid _ _ hfixed).2] at hlinux
      exact hm.bound a hlisted process hlinux
    · exact m.table.bound pid process (hnew.symm.trans hlinux)
  · intro a ha hgone
    rcases listed_exec platform hfinds ha with
      ⟨hlisted, hfixed, hsame⟩ | ⟨pid, -, -, -, -, hnewPid, hnew, hsame⟩
    · dsimp only at hgone ⊢
      rw [hsame] at hgone
      rw [(hpid _ _ hfixed).1, (hpid _ _ hfixed).2]
      exact hm.present a hlisted hgone
    · dsimp only at hgone ⊢
      rw [hsame] at hgone
      rw [hnew, hnewPid]
      obtain ⟨process, hlive⟩ := Option.isSome_iff_exists.mp (Option.isNone_eq_false_iff.mp hgone)
      exact ⟨process, hlive, hlive⟩
  · intro a ha hgone process hlinux
    rcases listed_exec platform hfinds ha with
      ⟨hlisted, hfixed, hsame⟩ | ⟨pid, -, -, -, -, -, hnew, hsame⟩
    · dsimp only at hgone hlinux
      rw [hsame] at hgone
      rw [(hpid _ _ hfixed).2] at hlinux
      exact hm.absent a hlisted hgone process hlinux
    · dsimp only at hgone hlinux
      rw [hsame, Option.isNone_iff_eq_none] at hgone
      rw [hnew, hgone] at hlinux
      cases hlinux

/-- A process that starts keeps what is known. -/
theorem Tracked.spawn {m : System} (hm : Tracked m) {pid : UInt32}
    (hfree : m.table.live pid = none) :
    Tracked { m with table := m.table.spawn pid, passed := [] } where
  ledger := hm.ledger
  ct := hm.ct
  bound := fun a ha process hlinux ↦ Nat.lt_succ_of_lt (hm.bound a ha process hlinux)
  present := by
    intro a ha hgone
    obtain ⟨process, hlinux, hlive⟩ := hm.present a ha hgone
    have hne : (m.result.state.slab a).pid ≠ pid := by
      intro heq
      rw [heq, hfree] at hlive
      cases hlive
    exact ⟨process, hlinux, (m.table.live_spawn_of_ne hne).trans hlive⟩
  absent := fun a ha hgone process hlinux ↦
    ProcessTable.not_alive_spawn (hm.bound a ha process hlinux)
      (hm.absent a ha hgone process hlinux) pid

/-- A process that exits takes the records of its pid along. -/
theorem Tracked.exit {m : System} (hm : Tracked m) (pid : UInt32) :
    Tracked
      { m with
        table := m.table.exit pid
        passed := []
        gone := fun a ↦ m.gone a || decide ((m.result.state.slab a).pid = pid) } where
  ledger := hm.ledger
  ct := hm.ct
  bound := hm.bound
  present := by
    intro a ha hgone
    obtain ⟨hkept, hother⟩ := Bool.or_eq_false_iff.mp hgone
    obtain ⟨process, hlinux, hlive⟩ := hm.present a ha hkept
    have hne : (m.result.state.slab a).pid ≠ pid := of_decide_eq_false hother
    exact ⟨process, hlinux, (m.table.live_exit_of_ne hne).trans hlive⟩
  absent := by
    intro a ha hgone process hlinux halive
    by_cases hbefore : m.gone a = true
    · exact hm.absent a ha hbefore process hlinux halive.of_exit
    · -- the record pointed to the process that exits
      rw [Bool.not_eq_true] at hbefore
      have hpid : (m.result.state.slab a).pid = pid := by simpa [hbefore] using hgone
      obtain ⟨other, hother, hlive⟩ := hm.present a ha hbefore
      rw [hlinux, Option.some.injEq] at hother
      rw [hpid, ← hother] at hlive
      exact ProcessTable.not_alive_exit hlive halive

/-- Every step keeps what is known. -/
theorem Tracked.step {platform : Platform} {m later : System} {event : Event} (hm : Tracked m)
    (hstep : nextEvent platform m event = some later) : Tracked later := by
  rcases nextEvent_cases hstep with
    ⟨op, -, hfinds, rfl⟩ | ⟨pid, -, hfree, rfl⟩ | ⟨pid, -, rfl⟩
  · exact hm.op platform hfinds _
  · exact hm.spawn hfree
  · exact hm.exit pid

/-! ### Whole runs -/

/-- After a step the law holds exactly when the step acts on tasks with their process. -/
theorem passesLive_iff {platform : Platform} {m later : System} {event : Event} (hm : Tracked m)
    (hstep : nextEvent platform m event = some later) :
    PassesLive later ↔ ActsOnPresent platform m event := by
  have hnothing : ∀ m : System, m.passed = [] → PassesLive m := by
    intro m hnone call hcall
    rw [hnone] at hcall
    cases hcall
  rcases nextEvent_cases hstep with
    ⟨op, rfl, hfinds, rfl⟩ | ⟨pid, rfl, hfree, rfl⟩ | ⟨pid, rfl, rfl⟩
  · unfold PassesLive ActsOnPresent passed
    rw [forall_mem_upToNull_iff (by rintro ⟨process, hnull, -⟩; cases hnull), List.forall_mem_map]
    exact forall_congr' fun a ↦ forall_congr' fun ha ↦ hm.live_iff (mem_tl_of_mem_actsOn hm.ct ha)
  · exact iff_of_true (hnothing _ rfl) trivial
  · exact iff_of_true (hnothing _ rfl) trivial

/-- A registration is made for a live process, and no process exits while its task is listed. -/
def KeepsProcesses (m : System) : Event → Prop
  | .op (.register pid _ _ _) => m.table.live pid ≠ none
  | .exit pid => ∀ a ∈ m.result.state.tl, (m.result.state.slab a).pid ≠ pid
  | _ => True

instance (m : System) : DecidablePred (KeepsProcesses m)
  | .op (.register pid _ _ _) => inferInstanceAs (Decidable (m.table.live pid ≠ none))
  | .op (.yeild _ _) => isTrue trivial
  | .op (.deregister _) => isTrue trivial
  | .op (.timer _) => isTrue trivial
  | .op .dispatch => isTrue trivial
  | .spawn _ => isTrue trivial
  | .exit pid =>
    inferInstanceAs (Decidable (∀ a ∈ m.result.state.tl, (m.result.state.slab a).pid ≠ pid))

/-- In every run from the start of the module in which registrations are made for live processes and
no process exits while its task is listed, every `linux_task` that is passed on is that of a live
process. -/
theorem passesLive_of_keepsProcesses {platform : Platform} {slab : Addr → Mp2TaskStruct}
    {m : System}
    (hreach : ReachableUnder (nextEvent platform) KeepsProcesses (startSystem slab) m) :
    PassesLive m := by
  refine (hreach.invariant (fun m ↦ Tracked m ∧ (∀ a ∈ m.result.state.tl, m.gone a = false) ∧
    PassesLive m) ⟨tracked_startSystem slab, fun a ha ↦ absurd ha List.not_mem_nil,
      fun call hcall ↦ by cases hcall⟩ ?_).2.2
  rintro before event later ⟨hbefore, hkept, -⟩ hkeeps hstep
  have hpresent : ActsOnPresent platform before event := by
    cases event with
    | op op => exact fun a ha ↦ hkept a (mem_tl_of_mem_actsOn hbefore.ct ha)
    | spawn pid => trivial
    | exit pid => trivial
  refine ⟨hbefore.step hstep, fun a ha ↦ ?_, (passesLive_iff hbefore hstep).mpr hpresent⟩
  rcases nextEvent_cases hstep with
    ⟨op, rfl, hfinds, rfl⟩ | ⟨pid, rfl, -, rfl⟩ | ⟨pid, rfl, rfl⟩
  · rcases listed_exec platform hfinds ha with
      ⟨hlisted, -, hsame⟩ | ⟨pid, _, _, found, rfl, -, -, hnew⟩
    · exact hsame.trans (hkept a hlisted)
    · have hlive : before.table.live pid ≠ none := hkeeps
      exact hnew.trans (Option.isNone_eq_false_iff.mpr (Option.isSome_iff_ne_none.mpr hlive))
  · exact hkept a ha
  · exact Bool.or_eq_false_iff.mpr ⟨hkept a ha, decide_eq_false (hkeeps a ha)⟩

/-- Three processes register. The third deregisters and exits, and the task of the second preempts
that of the first. -/
theorem passesLive_preempted :
    ∃ m, m.passed = [some 0, some 1, some 1] ∧ m.result.state.ct = some 1 ∧ PassesLive m := by
  obtain ⟨m, hreach, hpassed, hct⟩ : ∃ m, ReachableUnder (nextEvent platformHz1000) KeepsProcesses
      (startSystem zeroSlab) m ∧
        (m.passed = [some 0, some 1, some 1] ∧ m.result.state.ct = some 1) :=
    exists_reachableUnder_of_run [.spawn 1, .spawn 2, .spawn 3, .op (.register 1 200 10 (some 0)),
      .op (.register 2 100 10 (some 1)), .op (.register 3 50 1 (some 2)), .op (.yeild 1 5),
      .op (.deregister 3), .exit 3, .op (.yeild 2 150), .op (.timer 1), .op .dispatch,
      .op (.timer 2), .op .dispatch] (by decide +kernel) (by decide +kernel)
  exact ⟨m, hpassed, hct, passesLive_of_keepsProcesses hreach⟩

/-- A process starts, registers, exits without deregistering, and a yield is written for its pid. -/
def exitsListed : List Event :=
  [.spawn 1, .op (.register 1 200 10 (some 0)), .exit 1, .op (.yeild 1 5)]

/-- `set_task_state` gets the process that has exited. -/
theorem not_always_passesLive_exitsListed :
    ¬ Always (nextEvent platformHz1000) PassesLive (startSystem zeroSlab) exitsListed := by
  intro halways
  have hlast := ((((halways.2 _ rfl).2 _ rfl).2 _ rfl).2 _ rfl).head
  obtain ⟨process, hcall, halive⟩ := hlast (some 0) (by decide)
  obtain ⟨rfl⟩ := Option.some.inj hcall
  exact ProcessTable.not_alive_exit rfl halive

end KernelModules.RateMonotonic
