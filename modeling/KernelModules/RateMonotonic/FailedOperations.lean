import KernelModules.RateMonotonic.AtomicRuns

/-!
# What a failed operation leaves behind

`Task_register`, `Task_yeild` and `Task_deregister` return -1 on five branches. Four of them are
taken before anything is written. The fifth is the missed deadline of `Task_yeild`, which is tested
after `next_ddl` has been advanced: the call fails and the record of the task has changed.

`Unchanged` compares the task list, the listed records, `total_util` and `ct` before and after a
call. `failsAtomically_iff` says which failed calls leave them as they were.
-/

set_option autoImplicit false
set_option relaxedAutoImplicit false

namespace KernelModules.RateMonotonic

open Scheduler

/-! ### Unchanged data -/

/-- The list, every field of every listed task, the total and the current task are as before. The
locks and the dispatching thread are left out. -/
structure Unchanged (before after : Scheduler) : Prop where
  tl : after.tl = before.tl
  task : ∀ a ∈ before.tl, after.slab a = before.slab a
  totalUtil : after.totalUtil = before.totalUtil
  ct : after.ct = before.ct

namespace Unchanged

variable {s t : Scheduler}

/-- Taking or releasing `tl_lock` changes no data. -/
theorem lockTl (s : Scheduler) : Unchanged s s.lockTl := ⟨rfl, fun _ _ ↦ rfl, rfl, rfl⟩

theorem unlockTl (s : Scheduler) : Unchanged s s.unlockTl := ⟨rfl, fun _ _ ↦ rfl, rfl, rfl⟩

end Unchanged

/-! ### The advanced deadline -/

/-- A deadline that is set and advanced is the same exactly when the period is no jiffies long. -/
theorem nextDeadline_eq_self_iff {task : Mp2TaskStruct} (platform : Platform) (now : UInt64)
    (hset : task.nextDdl ≠ 0) :
    task.nextDeadline platform now = task.nextDdl ↔
      platform.msecsToJiffies task.period.toUInt32 = 0 := by
  unfold Mp2TaskStruct.nextDeadline
  rw [if_neg hset]
  constructor
  · intro hsame
    have hcancel :
        task.nextDdl + platform.msecsToJiffies task.period.toUInt32 = task.nextDdl + 0 := by
      rw [hsame, UInt64.add_zero]
    exact (UInt64.add_right_inj _).mp hcancel
  · intro hzero
    rw [hzero, UInt64.add_zero]

/-- A yield misses the deadline exactly when one was set and the moved one has passed. -/
theorem missesDdl_iff {task : Mp2TaskStruct} {platform : Platform} {now : UInt64} :
    task.missesDdl platform now = true ↔
      task.nextDdl ≠ 0 ∧ task.nextDdl + platform.msecsToJiffies task.period.toUInt32 < now := by
  unfold Mp2TaskStruct.missesDdl
  rw [Bool.and_eq_true, decide_eq_true_iff, decide_eq_true_iff]
  refine and_congr_right fun hset ↦ ?_
  rw [Mp2TaskStruct.nextDeadline, if_neg hset]

/-- Advancing the deadline of a listed task changes nothing exactly when the deadline stays the
same. -/
theorem unchanged_advanceDdl_iff {s : Scheduler} {t : Addr} (ht : t ∈ s.tl) (platform : Platform)
    (now : UInt64) :
    Unchanged s (s.advanceDdl platform now t).lockTl ↔
      (s.slab t).nextDeadline platform now = (s.slab t).nextDdl := by
  constructor
  · intro hsame
    have htask := congrArg Mp2TaskStruct.nextDdl (hsame.task t ht)
    rw [lockTl_slab, advanceDdl, slab_modify_self] at htask
    exact htask
  · intro hdeadline
    refine ⟨rfl, fun a _ ↦ ?_, rfl, rfl⟩
    rw [lockTl_slab, advanceDdl]
    by_cases hat : a = t
    · rw [hat, slab_modify_self, hdeadline]
    · rw [slab_modify_of_ne s hat]

/-! ### Failed operations -/

/-- The operations of `scheduler.c` that return a code. -/
def ReturnsCode : Op → Prop
  | .register .. | .yeild .. | .deregister .. => True
  | .timer .. | .dispatch => False

/-- If the operation returns -1, it leaves the data as it was. -/
def FailsAtomically (platform : Platform) (op : Op) (s : Scheduler) : Prop :=
  (exec platform op s).outcome = .returned (-1) → Unchanged s (exec platform op s).state

/-- The operation is a yield of a listed task that comes after a deadline it has to move: the task
has yielded before, its period is at least a jiffy, and the moved deadline has passed. -/
def YieldsLate (platform : Platform) (s : Scheduler) : Op → Prop
  | .yeild pid now => ∃ t ∈ s.yeildLookup pid, (s.slab t).nextDdl ≠ 0 ∧
      platform.msecsToJiffies (s.slab t).period.toUInt32 ≠ 0 ∧
        (s.slab t).nextDdl + platform.msecsToJiffies (s.slab t).period.toUInt32 < now
  | _ => False

/-- A registration that returns -1 has changed nothing. -/
theorem unchanged_taskRegister {pid : UInt32} {period procTime : UInt64} {found : Option LinuxTask}
    {s : Scheduler} (hfails : (taskRegister pid period procTime found s).outcome = .returned (-1)) :
    Unchanged s (taskRegister pid period procTime found s).state := by
  rcases taskRegister_cases pid period procTime found s with
    ⟨-, hresult⟩ | ⟨-, -, hresult⟩ | ⟨-, -, -, hresult⟩ | ⟨-, -, -, hresult⟩
  · rw [hresult]
    exact .lockTl s
  · rw [hresult] at hfails
    cases hfails
  · rw [hresult]
    exact .unlockTl s
  · rw [hresult] at hfails
    cases hfails

/-- A removal that returns -1 has changed nothing. -/
theorem unchanged_taskDeregister {pid : UInt32} {s : Scheduler}
    (hfails : (taskDeregister pid s).outcome = .returned (-1)) :
    Unchanged s (taskDeregister pid s).state := by
  rcases taskDeregister_cases pid s with ⟨-, hresult⟩ | ⟨t, -, ⟨-, hresult⟩ | ⟨-, hresult⟩⟩
  · rw [hresult]
    exact .unlockTl s
  · rw [hresult] at hfails
    cases hfails
  · rw [hresult] at hfails
    cases hfails

/-- A yield is late when the task it finds misses the deadline and has a period of some jiffies. -/
theorem yieldsLate_iff {platform : Platform} {pid : UInt32} {now : UInt64} {s : Scheduler}
    {t : Addr} (hfound : s.yeildLookup pid = some t) :
    YieldsLate platform s (.yeild pid now) ↔
      (s.slab t).missesDdl platform now = true ∧
        platform.msecsToJiffies (s.slab t).period.toUInt32 ≠ 0 := by
  rw [YieldsLate, hfound, missesDdl_iff]
  constructor
  · rintro ⟨_, ⟨⟩, hset, hperiod, hlate⟩
    exact ⟨⟨hset, hlate⟩, hperiod⟩
  · rintro ⟨⟨hset, hlate⟩, hperiod⟩
    exact ⟨t, rfl, hset, hperiod, hlate⟩

/-- A yield fails atomically exactly when it is not late for a deadline it moves. -/
theorem failsAtomically_yeild_iff (platform : Platform) (pid : UInt32) (now : UInt64)
    (s : Scheduler) :
    FailsAtomically platform (.yeild pid now) s ↔ ¬ YieldsLate platform s (.yeild pid now) := by
  unfold FailsAtomically
  simp only [exec]
  rcases taskYeild_cases platform pid now s with
    ⟨hnone, hresult⟩ | ⟨t, hfound, ⟨hmissed, hresult⟩ | ⟨hmade, -, hresult⟩ | ⟨hmade, -, hresult⟩⟩
  · rw [hresult]
    refine iff_of_true (fun _ ↦ .unlockTl s) ?_
    rintro ⟨t, hmem, -⟩
    rw [hnone] at hmem
    cases hmem
  · -- the early return on a missed deadline
    have hset := (missesDdl_iff.mp hmissed).1
    rw [hresult, yieldsLate_iff hfound, forall_prop_of_true rfl,
      unchanged_advanceDdl_iff (mem_of_yeildLookup hfound).1, nextDeadline_eq_self_iff _ _ hset]
    simp [hmissed]
  · rw [hresult, yieldsLate_iff hfound, hmade]
    simp
  · rw [hresult, yieldsLate_iff hfound, hmade]
    simp

/-- `Task_register`, `Task_yeild` and `Task_deregister` fail without an effect exactly when the call
is not a yield that moves a deadline and is still late. -/
theorem failsAtomically_iff (platform : Platform) (s : Scheduler) {op : Op} (hop : ReturnsCode op) :
    FailsAtomically platform op s ↔ ¬ YieldsLate platform s op := by
  cases op with
  | register pid period procTime found => exact iff_of_true unchanged_taskRegister id
  | yeild pid now => exact failsAtomically_yeild_iff platform pid now s
  | deregister pid => exact iff_of_true unchanged_taskDeregister id
  | timer data => cases hop
  | dispatch => cases hop

/-- A yield in time fails on no branch, and a registration of a listed pid fails without an
effect. -/
theorem failsAtomically_iff_listed :
    let s := (execAll platformHz1000 (startOp zeroSlab) [.register 1 100 10 (some 1)]).state
    FailsAtomically platformHz1000 (.register 1 50 5 none) s ↔
      ¬ YieldsLate platformHz1000 s (.register 1 50 5 none) :=
  failsAtomically_iff platformHz1000 _ trivial

/-- The second yield of a task comes after its deadline. It returns -1, with the deadline moved from
105 to 205. -/
theorem failsAtomically_late :
    ¬ ∀ (platform : Platform) (s : Scheduler) (op : Op), ReturnsCode op →
      FailsAtomically platform op s := by
  intro hall
  have hunchanged := hall platformHz1000
    (execAll platformHz1000 (startOp zeroSlab) [.register 1 100 10 (some 1), .yeild 1 5]).state
    (.yeild 1 300) trivial (by decide)
  have hddl := congrArg Mp2TaskStruct.nextDdl (hunchanged.task 0 (by decide))
  exact absurd hddl (by decide)

end KernelModules.RateMonotonic
