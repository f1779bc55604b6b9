import Mathlib

/-!
# Task records and the shared state of the scheduler

The data of `scheduler.h`, `scheduler.c` and `mp2_main.c`. A `struct mp2_task_struct` lives at an
address of the slab `mp2_task_cache`. The task list `tl` is the list of the addresses that are
linked into it, in list order, and `ct` is NULL or the address of the current task.

`kmem_cache_alloc` returns an address that was never handed out before, so that an address names
one allocation, and it never fails. `kmem_cache_free` leaves the bytes of the record as they are: a
pointer kept past the free still reads the old fields, and whether an access is to a freed record
is decided by the task list.

What the code uses of the kernel outside the repository is the `Platform`: the width of
`unsigned long` and the function `msecs_to_jiffies`, which takes an `unsigned int`.
-/

set_option autoImplicit false
set_option relaxedAutoImplicit false

namespace KernelModules.RateMonotonic

/-! ### Records -/

/-- The task states `SLEEPING` (1), `READY` (2) and `RUNNING` (3). -/
inductive TaskState
  | sleeping
  | ready
  | running
  deriving DecidableEq, Repr

/-- The address of a slab object. -/
abbrev Addr := ℕ

/-- A `struct task_struct` of the kernel, the process a task record stands for. -/
abbrev LinuxTask := ℕ

/-- A `struct timer_list` whose function is `mp2_timer_callback`: the argument of the function, and
the expiry time while the timer is pending. -/
structure TimerList where
  data : UInt32
  expires : Option UInt64
  deriving DecidableEq, Repr

/-- `struct mp2_task_struct`. The pointer `linux_task` is `none` when it is NULL. -/
structure Mp2TaskStruct where
  linuxTask : Option LinuxTask
  timer : TimerList
  state : TaskState
  pid : UInt32
  period : UInt64
  procTime : UInt64
  nextDdl : UInt64
  deriving DecidableEq, Repr

/-- The scheduling state of the kernel thread `dispaching_thread`. -/
inductive ThreadState
  | running
  | interruptible
  deriving DecidableEq, Repr

/-- What the code uses of the kernel it is built for. -/
structure Platform where
  longBits : ℕ
  msecsToJiffies : UInt32 → UInt64

/-- The conversion of a 64-bit value to `unsigned long`. -/
def Platform.ulong (platform : Platform) (value : UInt64) : UInt64 :=
  UInt64.ofNat (value.toNat % 2 ^ platform.longBits)

/-- `time_after_eq(now, expires)`: the wrapped difference of the counters is not negative as a
`long`. -/
def Platform.timeAfterEq (platform : Platform) (now expires : UInt64) : Bool :=
  (platform.ulong (now - expires)).toNat < 2 ^ (platform.longBits - 1)

/-- A 64-bit kernel with `HZ` 1000, where a millisecond is a jiffy up to the maximum offset. -/
def platformHz1000 : Platform where
  longBits := 64
  msecsToJiffies := fun msecs ↦ if msecs.toNat < 2 ^ 31 then msecs.toUInt64 else 2 ^ 62 - 2

/-! ### The shared state -/

/-- The globals of the module: the slab with the next address it hands out, the task list, the
current task, `total_util`, the two mutexes, and the state of the dispatching thread. -/
structure Scheduler where
  slab : Addr → Mp2TaskStruct
  fresh : Addr
  tl : List Addr
  ct : Option Addr
  totalUtil : UInt64
  tlLock : Bool
  ctLock : Bool
  dispaching : ThreadState

namespace Scheduler

/-- `mutex_lock_interruptible(&tl_lock)`, granted. -/
@[simps] def lockTl (s : Scheduler) : Scheduler := { s with tlLock := true }

/-- `mutex_unlock(&tl_lock)`. -/
@[simps] def unlockTl (s : Scheduler) : Scheduler := { s with tlLock := false }

/-- `mutex_lock_interruptible(&ct_lock)`, granted. -/
@[simps] def lockCt (s : Scheduler) : Scheduler := { s with ctLock := true }

/-- `mutex_unlock(&ct_lock)`. -/
@[simps] def unlockCt (s : Scheduler) : Scheduler := { s with ctLock := false }

/-- `wake_up_process(dispaching_thread)`. A thread that is not sleeping stays as it is. -/
@[simps] def wakeDispaching (s : Scheduler) : Scheduler := { s with dispaching := .running }

/-- Assigns `ct`. -/
@[simps] def setCt (s : Scheduler) (task : Option Addr) : Scheduler := { s with ct := task }

/-- Writes to the record at an address. -/
@[simps] def modify (s : Scheduler) (a : Addr) (write : Mp2TaskStruct → Mp2TaskStruct) :
    Scheduler :=
  { s with slab := Function.update s.slab a (write (s.slab a)) }

/-- Assigns the state of the task at an address. -/
def setState (s : Scheduler) (a : Addr) (state : TaskState) : Scheduler :=
  s.modify a fun task ↦ { task with state := state }

/-- `kmem_cache_alloc(mp2_task_cache, GFP_KERNEL)` and the assignments that initialise the record;
the record is at the address `s.fresh`. -/
@[simps] def kmemCacheAlloc (s : Scheduler) (task : Mp2TaskStruct) : Scheduler :=
  { s with slab := Function.update s.slab s.fresh task, fresh := s.fresh + 1 }

/-- `list_add_tail(&task->list, &tl->list)`. -/
@[simps] def listAddTail (s : Scheduler) (a : Addr) : Scheduler := { s with tl := s.tl ++ [a] }

/-- `list_del(&task->list)`. -/
@[simps] def listDel (s : Scheduler) (a : Addr) : Scheduler := { s with tl := s.tl.erase a }

/-- `del_timer(&task->timer)`. -/
def delTimer (s : Scheduler) (a : Addr) : Scheduler :=
  s.modify a fun task ↦ { task with timer := { task.timer with expires := none } }

/-- The record at the written address. -/
theorem slab_modify_self (s : Scheduler) (a : Addr) (write : Mp2TaskStruct → Mp2TaskStruct) :
    (s.modify a write).slab a = write (s.slab a) := by
  simp [modify]

/-- The records at the other addresses. -/
theorem slab_modify_of_ne (s : Scheduler) {a b : Addr} (hne : b ≠ a)
    (write : Mp2TaskStruct → Mp2TaskStruct) : (s.modify a write).slab b = s.slab b := by
  simp [modify, hne]

/-- A field that a write keeps is kept in every record. Assumes: a write that keeps the field of
every record. -/
theorem slab_modify_of_keep {β : Type*} (field : Mp2TaskStruct → β)
    {write : Mp2TaskStruct → Mp2TaskStruct} (hkeep : ∀ task, field (write task) = field task)
    (s : Scheduler) (a b : Addr) : field ((s.modify a write).slab b) = field (s.slab b) := by
  by_cases hab : b = a
  · rw [hab, slab_modify_self, hkeep]
  · rw [slab_modify_of_ne s hab]

/-- A change of state keeps every other field of every record. -/
theorem slab_setState_of_keep {β : Type*} (field : Mp2TaskStruct → β)
    (hkeep : ∀ task state, field { task with state := state } = field task) (s : Scheduler)
    (a : Addr) (state : TaskState) (b : Addr) :
    field ((s.setState a state).slab b) = field (s.slab b) :=
  slab_modify_of_keep field (fun task ↦ hkeep task state) s a b

/-- The states after a change of state. -/
theorem state_setState (s : Scheduler) (a : Addr) (state : TaskState) (b : Addr) :
    ((s.setState a state).slab b).state = if b = a then state else (s.slab b).state := by
  unfold setState
  split_ifs with hba
  · rw [hba, slab_modify_self]
  · rw [slab_modify_of_ne s hba]

/-- A state that a change of state did not bring about was there before. -/
theorem state_of_setState {s : Scheduler} {a b : Addr} {state other : TaskState}
    (hother : ((s.setState b state).slab a).state = other) (hne : state ≠ other) :
    a ≠ b ∧ (s.slab a).state = other := by
  rw [state_setState] at hother
  split_ifs at hother with hab
  · exact absurd hother hne
  · exact ⟨hab, hother⟩

/-- The records of the task list, in list order. -/
def listing (s : Scheduler) : List Mp2TaskStruct := s.tl.map s.slab

end Scheduler

/-! ### Results -/

/-- The faults that end an operation in the kernel: a division by zero, and a call with a NULL
`linux_task`. -/
inductive Fault
  | divideError
  | nullTask
  deriving DecidableEq, Repr

/-- How an operation ends. -/
inductive Outcome
  | returned (code : Int)
  | faulted (fault : Fault)
  deriving DecidableEq, Repr

/-- What an operation ends with, and the state it leaves. -/
structure Result where
  outcome : Outcome
  state : Scheduler

end KernelModules.RateMonotonic
