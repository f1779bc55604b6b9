import KernelModules.Foundation.TransitionSystem
import KernelModules.RateMonotonic.DispachingThread

/-!
# Runs of whole operations

The scheduler as a transition system whose steps are whole operations: `Task_register`,
`Task_yeild`, `Task_deregister`, the timer callback and an iteration of the dispatching thread, in
any order and with any arguments. A state of the system is what the last operation ended with and
the state it left, so that a run shows its return codes and its faults. The callback may run at any
time with any pid, and the dispatching thread at any time, which covers every run in which only
pending timers expire and only a woken thread runs.

An operation that is neither a registration nor a removal keeps what was fixed when the tasks were
registered (`SameTasks`).
-/

set_option autoImplicit false
set_option relaxedAutoImplicit false

namespace KernelModules.RateMonotonic

open Foundation Scheduler

/-! ### The system -/

/-- An operation on the scheduler with its arguments. -/
inductive Op
  | register (pid : UInt32) (period procTime : UInt64) (found : Option LinuxTask)
  | yeild (pid : UInt32) (now : UInt64)
  | deregister (pid : UInt32)
  | timer (data : UInt32)
  | dispatch

/-- Runs an operation. -/
def exec (platform : Platform) : Op → Scheduler → Result
  | .register pid period procTime found, s => taskRegister pid period procTime found s
  | .yeild pid now, s => taskYeild platform pid now s
  | .deregister pid, s => taskDeregister pid s
  | .timer data, s => ⟨.returned 0, mp2TimerCallback data s⟩
  | .dispatch, s => dispachingIteration s

/-- The state `mp2_init` leaves once the dispatching thread sleeps, over a slab of arbitrary
content. -/
def mp2Init (slab : Addr → Mp2TaskStruct) : Scheduler where
  slab := slab
  fresh := 0
  tl := []
  ct := none
  totalUtil := 0
  tlLock := false
  ctLock := false
  dispaching := .interruptible

/-- The step of the system. Every operation can be started in every state. -/
def nextOp (platform : Platform) (before : Result) (op : Op) : Option Result :=
  some (exec platform op before.state)

/-- The start of the system. -/
def startOp (slab : Addr → Mp2TaskStruct) : Result := ⟨.returned 0, mp2Init slab⟩

/-- Runs operations one after another. -/
def execAll (platform : Platform) (start : Result) (ops : List Op) : Result :=
  ops.foldl (fun before op ↦ exec platform op before.state) start

/-- A slab of zeroed records. -/
def zeroSlab : Addr → Mp2TaskStruct := fun _ ↦
  ⟨none, ⟨0, none⟩, .sleeping, 0, 0, 0, 0⟩

/-- Every list of operations is a run. -/
theorem run_nextOp (platform : Platform) (start : Result) (ops : List Op) :
    run (nextOp platform) start ops = some (execAll platform start ops) := by
  induction ops generalizing start with
  | nil => rfl
  | cons op rest ih => exact ih (exec platform op start.state)

/-- The outcome of every list of operations is reachable. -/
theorem reachable_execAll (platform : Platform) (start : Result) (ops : List Op) :
    Reachable (nextOp platform) start (execAll platform start ops) :=
  reachable_of_run (run_nextOp platform start ops)

/-! ### What registration fixes -/

/-- The fields that no operation writes after the registration. -/
def Mp2TaskStruct.fixed (task : Mp2TaskStruct) :
    UInt32 × UInt64 × UInt64 × Option LinuxTask × UInt32 :=
  (task.pid, task.period, task.procTime, task.linuxTask, task.timer.data)

/-- The second state lists the same tasks as the first, with the same fixed fields and the same
total. -/
structure SameTasks (s t : Scheduler) : Prop where
  tl : t.tl = s.tl
  fresh : t.fresh = s.fresh
  totalUtil : t.totalUtil = s.totalUtil
  fixed : ∀ a, (t.slab a).fixed = (s.slab a).fixed

namespace SameTasks

variable {s t u : Scheduler}

/-- A change of `ct`, of a lock or of the dispatching thread keeps the tasks. -/
theorem of_slab_eq (htl : t.tl = s.tl) (hfresh : t.fresh = s.fresh)
    (htotal : t.totalUtil = s.totalUtil) (hslab : t.slab = s.slab) : SameTasks s t :=
  ⟨htl, hfresh, htotal, fun a ↦ by rw [hslab]⟩

theorem trans (hfirst : SameTasks s t) (hsecond : SameTasks t u) : SameTasks s u where
  tl := hsecond.tl.trans hfirst.tl
  fresh := hsecond.fresh.trans hfirst.fresh
  totalUtil := hsecond.totalUtil.trans hfirst.totalUtil
  fixed := fun a ↦ (hsecond.fixed a).trans (hfirst.fixed a)

theorem pid (hsame : SameTasks s t) (a : Addr) : (t.slab a).pid = (s.slab a).pid :=
  congrArg (·.1) (hsame.fixed a)

theorem period (hsame : SameTasks s t) (a : Addr) : (t.slab a).period = (s.slab a).period :=
  congrArg (·.2.1) (hsame.fixed a)

theorem procTime (hsame : SameTasks s t) (a : Addr) : (t.slab a).procTime = (s.slab a).procTime :=
  congrArg (·.2.2.1) (hsame.fixed a)

theorem linuxTask (hsame : SameTasks s t) (a : Addr) :
    (t.slab a).linuxTask = (s.slab a).linuxTask :=
  congrArg (·.2.2.2.1) (hsame.fixed a)

theorem timerData (hsame : SameTasks s t) (a : Addr) :
    (t.slab a).timer.data = (s.slab a).timer.data :=
  congrArg (·.2.2.2.2) (hsame.fixed a)

theorem share (hsame : SameTasks s t) (a : Addr) : (t.slab a).share = (s.slab a).share := by
  unfold Mp2TaskStruct.share
  rw [hsame.procTime, hsame.period]

theorem listed (hsame : SameTasks s t) (pid : UInt32) : t.listed pid = s.listed pid := by
  unfold Scheduler.listed
  rw [hsame.tl]
  congr 1
  funext a
  rw [hsame.pid]

end SameTasks

namespace Scheduler

theorem sameTasks_lockTl (s : Scheduler) : SameTasks s s.lockTl := .of_slab_eq rfl rfl rfl rfl

theorem sameTasks_unlockTl (s : Scheduler) : SameTasks s s.unlockTl := .of_slab_eq rfl rfl rfl rfl

theorem sameTasks_lockCt (s : Scheduler) : SameTasks s s.lockCt := .of_slab_eq rfl rfl rfl rfl

theorem sameTasks_unlockCt (s : Scheduler) : SameTasks s s.unlockCt := .of_slab_eq rfl rfl rfl rfl

theorem sameTasks_wakeDispaching (s : Scheduler) : SameTasks s s.wakeDispaching :=
  .of_slab_eq rfl rfl rfl rfl

/-- A write that keeps the fixed fields keeps the tasks. -/
theorem sameTasks_modify {write : Mp2TaskStruct → Mp2TaskStruct}
    (hkeep : ∀ task, (write task).fixed = task.fixed) (s : Scheduler) (a : Addr) :
    SameTasks s (s.modify a write) :=
  ⟨rfl, rfl, rfl, slab_modify_of_keep Mp2TaskStruct.fixed hkeep s a⟩

theorem sameTasks_setState (s : Scheduler) (a : Addr) (state : TaskState) :
    SameTasks s (s.setState a state) := by
  refine sameTasks_modify ?_ s a
  intro task
  rfl

theorem sameTasks_advanceDdl (s : Scheduler) (platform : Platform) (now : UInt64) (t : Addr) :
    SameTasks s (s.advanceDdl platform now t) := by
  refine sameTasks_modify ?_ s t
  intro task
  rfl

theorem sameTasks_modTimer (s : Scheduler) (platform : Platform) (t : Addr) :
    SameTasks s (s.modTimer platform t) := by
  refine sameTasks_modify ?_ s t
  intro task
  rfl

theorem sameTasks_delTimer (s : Scheduler) (a : Addr) : SameTasks s (s.delTimer a) := by
  refine sameTasks_modify ?_ s a
  intro task
  rfl

theorem sameTasks_putToSleep (s : Scheduler) (platform : Platform) (now : UInt64) (t : Addr) :
    SameTasks s (s.putToSleep platform now t) :=
  ((sameTasks_advanceDdl s platform now t).trans (sameTasks_modTimer _ platform t)).trans
    (sameTasks_setState _ t .sleeping)

theorem sameTasks_markReady (s : Scheduler) (data : UInt32) : SameTasks s (s.markReady data) :=
  ⟨markReady_tl s data, markReady_fresh s data, markReady_totalUtil s data,
    slab_markReady_of_keep Mp2TaskStruct.fixed (fun _ _ ↦ rfl) s data⟩

theorem sameTasks_releaseCt (s : Scheduler) (t : Addr) : SameTasks s (s.releaseCt t) :=
  .of_slab_eq (releaseCt_tl s t) (releaseCt_fresh s t) (releaseCt_totalUtil s t)
    (releaseCt_slab s t)

end Scheduler

/-- A yield keeps the tasks, whatever it returns. -/
theorem sameTasks_taskYeild (platform : Platform) (pid : UInt32) (now : UInt64) (s : Scheduler) :
    SameTasks s (taskYeild platform pid now s).state := by
  rcases taskYeild_cases platform pid now s with
    ⟨-, hresult⟩ | ⟨t, -, ⟨-, hresult⟩ | ⟨-, -, hresult⟩ | ⟨-, -, hresult⟩⟩
  · rw [hresult]
    exact sameTasks_unlockTl s
  · rw [hresult]
    exact (sameTasks_advanceDdl s platform now t).trans (sameTasks_lockTl _)
  · rw [hresult]
    exact (sameTasks_putToSleep s platform now t).trans (sameTasks_lockTl _)
  · rw [hresult]
    exact (sameTasks_putToSleep s platform now t).trans (.of_slab_eq rfl rfl rfl rfl)

/-- The timer callback keeps the tasks. -/
theorem sameTasks_mp2TimerCallback (data : UInt32) (s : Scheduler) :
    SameTasks s (mp2TimerCallback data s) :=
  (sameTasks_markReady s data).trans (sameTasks_wakeDispaching _)

/-- The section under `ct_lock` keeps the tasks. -/
theorem sameTasks_ctSection (highest : Option Addr) (s : Scheduler) :
    SameTasks s (ctSection highest s).state := by
  have hstep := ctSection_step s highest
  generalize ctSection highest s = result at hstep
  cases hstep with
  | idle => exact sameTasks_unlockCt s
  | demoteFault => exact (sameTasks_setState s _ .ready).trans (sameTasks_lockCt _)
  | demote => exact (sameTasks_setState s _ .ready).trans (sameTasks_unlockCt _)
  | keep => exact sameTasks_unlockCt s
  | startFault => exact sameTasks_lockCt s
  | preemptFault => exact (sameTasks_setState s _ .ready).trans (sameTasks_lockCt _)
  | start => exact (sameTasks_setState s _ .running).trans (.of_slab_eq rfl rfl rfl rfl)
  | preempt =>
    exact ((sameTasks_setState s _ .ready).trans (sameTasks_setState _ _ .running)).trans
      (.of_slab_eq rfl rfl rfl rfl)

/-- An iteration of the dispatching thread keeps the tasks. -/
theorem sameTasks_dispachingIteration (s : Scheduler) :
    SameTasks s (dispachingIteration s).state := by
  have hsection := (sameTasks_unlockTl s).trans (sameTasks_ctSection s.highestReady s.unlockTl)
  rw [dispachingIteration_eq]
  unfold Result.andThen
  split
  · exact hsection.trans (.of_slab_eq rfl rfl rfl rfl)
  · exact hsection

/-- A removal lists no new task. -/
theorem tl_taskDeregister_subset (pid : UInt32) (s : Scheduler) :
    (taskDeregister pid s).state.tl ⊆ s.tl := by
  rcases taskDeregister_cases pid s with ⟨-, hresult⟩ | ⟨t, -, ⟨-, hresult⟩ | ⟨-, hresult⟩⟩
  · rw [hresult]
    exact List.Subset.refl _
  · rw [hresult, releaseCt_tl]
    exact List.Subset.refl _
  · rw [hresult, unlockTl_tl, removeTask_tl, releaseCt_tl]
    exact List.erase_subset

/-- A removal keeps the fixed fields of every record. -/
theorem fixed_taskDeregister (pid : UInt32) (s : Scheduler) (a : Addr) :
    ((taskDeregister pid s).state.slab a).fixed = (s.slab a).fixed := by
  rcases taskDeregister_cases pid s with ⟨-, hresult⟩ | ⟨t, -, ⟨-, hresult⟩ | ⟨-, hresult⟩⟩
  · rw [hresult, unlockTl_slab]
  · rw [hresult, releaseCt_slab, lockTl_slab]
  · rw [hresult, unlockTl_slab, removeTask, (sameTasks_delTimer _ t).fixed, listDel_slab,
      subUtil_slab, releaseCt_slab, lockTl_slab]

/-- A task that is listed after an operation was listed before, with the fields that its
registration has fixed, or is the one that the operation has registered. -/
theorem fixed_of_mem_tl_exec (platform : Platform) {op : Op} {s : Scheduler} {a : Addr}
    (ha : a ∈ (exec platform op s).state.tl) :
    (a ∈ s.tl ∧ ((exec platform op s).state.slab a).fixed = (s.slab a).fixed) ∨
      ∃ pid period procTime found, op = .register pid period procTime found ∧
        s.listed pid = false ∧
        (exec platform op s).state.slab a = newTask pid period procTime found := by
  have hsame : ∀ t, SameTasks s t → a ∈ t.tl → a ∈ s.tl ∧ (t.slab a).fixed = (s.slab a).fixed :=
    fun t hsame ha ↦ ⟨hsame.tl ▸ ha, hsame.fixed a⟩
  cases op with
  | register pid period procTime found =>
    simp only [exec] at ha ⊢
    rcases taskRegister_cases pid period procTime found s with
      ⟨-, hresult⟩ | ⟨-, -, hresult⟩ | ⟨-, -, -, hresult⟩ | ⟨hpid, -, -, hresult⟩
    · rw [hresult] at ha ⊢
      exact Or.inl (hsame _ (sameTasks_lockTl s) ha)
    · rw [hresult] at ha ⊢
      exact Or.inl ⟨ha, rfl⟩
    · rw [hresult] at ha ⊢
      exact Or.inl (hsame _ (sameTasks_unlockTl s) ha)
    · rw [hresult] at ha ⊢
      simp only [registered_slab, registered_tl] at ha ⊢
      by_cases hnew : a = s.fresh
      · rw [hnew, Function.update_self]
        exact Or.inr ⟨pid, period, procTime, found, rfl, hpid, rfl⟩
      · rw [Function.update_of_ne hnew]
        exact Or.inl ⟨(List.mem_append.mp ha).resolve_right (by simpa using hnew), rfl⟩
  | yeild pid now => exact Or.inl (hsame _ (sameTasks_taskYeild platform pid now s) ha)
  | deregister pid =>
    exact Or.inl ⟨tl_taskDeregister_subset pid s ha, fixed_taskDeregister pid s a⟩
  | timer data => exact Or.inl (hsame _ (sameTasks_mp2TimerCallback data s) ha)
  | dispatch => exact Or.inl (hsame _ (sameTasks_dispachingIteration s) ha)

end KernelModules.RateMonotonic
