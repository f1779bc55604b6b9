import KernelModules.RateMonotonic.TaskStruct

/-!
# The operations of `scheduler.c`

`Task_register`, `Task_yeild`, `Task_deregister`, `Task_get_highest` and `Task_destroy`, each run
from its first statement to its last with nothing in between. A lock call is granted; the two locks
record who left them held, since `Task_register` returns with `tl_lock` held on a pid that is listed
and `Task_yeild` on a missed deadline. `find_task_by_pid` is read from the argument `found`, and
`jiffies` from the argument `now`.

Every operation has one case lemma, which says everything it can do (`taskRegister_cases`,
`taskYeild_cases`, `taskDeregister_cases`). `Task_get_highest` computes the first minimum of the
periods over the listed `READY` tasks (`highestReady_eq_argmin`).
-/

set_option autoImplicit false
set_option relaxedAutoImplicit false

namespace KernelModules.RateMonotonic

/-! ### Fixed-point utilisation -/

/-- `SHIFT_BITS`. -/
def shiftBits : UInt64 := 20

/-- `MAX_UTIL`. -/
def maxUtil : UInt64 := 726663

/-- The share of a task, `(proc_time << SHIFT_BITS) / period` on 64 bits. -/
def share (procTime period : UInt64) : UInt64 := (procTime <<< shiftBits) / period

/-- The share of a task record. -/
def Mp2TaskStruct.share (task : Mp2TaskStruct) : UInt64 :=
  RateMonotonic.share task.procTime task.period

/-- The share as a natural number: the shift is taken modulo `2^64` and the division truncates. -/
theorem toNat_share (procTime period : UInt64) :
    (share procTime period).toNat = procTime.toNat * 2 ^ 20 % 2 ^ 64 / period.toNat := by
  rw [share, UInt64.toNat_div, UInt64.toNat_shiftLeft, Nat.shiftLeft_eq]
  rfl

namespace Scheduler

/-! ### Task_register -/

/-- Some listed task has the pid. -/
def listed (s : Scheduler) (pid : UInt32) : Bool := s.tl.any fun itr ↦ (s.slab itr).pid = pid

/-- The duplicate check finds a pid exactly when a listed task has it. -/
theorem listed_iff {s : Scheduler} {pid : UInt32} :
    s.listed pid = true ↔ ∃ a ∈ s.tl, (s.slab a).pid = pid := by
  simp [listed]

/-- The admission test passes. -/
def admits (s : Scheduler) (period procTime : UInt64) : Bool :=
  !decide (maxUtil ≤ s.totalUtil + share procTime period)

/-- The record `Task_register` fills in. -/
def newTask (pid : UInt32) (period procTime : UInt64) (found : Option LinuxTask) :
    Mp2TaskStruct where
  linuxTask := found
  timer := { data := pid, expires := none }
  state := .sleeping
  pid := pid
  period := period
  procTime := procTime
  nextDdl := 0

/-- `total_util += (proc_time << SHIFT_BITS) / period`. -/
@[simps] def addUtil (s : Scheduler) (period procTime : UInt64) : Scheduler :=
  { s with totalUtil := s.totalUtil + share procTime period }

/-- The state an admitted registration leaves. -/
@[simps] def registered (s : Scheduler) (pid : UInt32) (period procTime : UInt64)
    (found : Option LinuxTask) : Scheduler :=
  { s with
    slab := Function.update s.slab s.fresh (newTask pid period procTime found)
    fresh := s.fresh + 1
    tl := s.tl ++ [s.fresh]
    totalUtil := s.totalUtil + share procTime period
    tlLock := false }

/-- What holds of every listed record after a registration holds of the old ones and of the new one.
Assumes: listed records that are allocated. -/
theorem forall_registered_iff {s : Scheduler} (hfresh : ∀ a ∈ s.tl, a < s.fresh) {pid : UInt32}
    {period procTime : UInt64} {found : Option LinuxTask} (property : Addr → Mp2TaskStruct → Prop) :
    (∀ a ∈ (s.registered pid period procTime found).tl,
        property a ((s.registered pid period procTime found).slab a)) ↔
      (∀ a ∈ s.tl, property a (s.slab a)) ∧
        property s.fresh (newTask pid period procTime found) := by
  rw [registered_tl, List.forall_mem_append, List.forall_mem_singleton, registered_slab,
    Function.update_self]
  refine and_congr_left' (forall₂_congr fun a ha ↦ ?_)
  rw [registered_slab, Function.update_of_ne (hfresh a ha).ne]

end Scheduler

open Scheduler

/-- `Task_register`. -/
def taskRegister (pid : UInt32) (period procTime : UInt64) (found : Option LinuxTask)
    (s : Scheduler) : Result :=
  let s := s.lockTl
  -- the early return leaves `tl_lock` held
  if s.listed pid then ⟨.returned (-1), s⟩
  else
    let s := s.unlockTl
    if period = 0 then ⟨.faulted .divideError, s⟩
    else if !s.admits period procTime then ⟨.returned (-1), s⟩
    else
      let s := s.addUtil period procTime
      let new := s.fresh
      let s := s.kmemCacheAlloc (newTask pid period procTime found)
      let s := s.lockTl
      let s := s.listAddTail new
      ⟨.returned 0, s.unlockTl⟩

section Register

variable {pid : UInt32} {period procTime : UInt64} {found : Option LinuxTask} {s : Scheduler}

/-- A pid that is listed is turned down, with `tl_lock` held. -/
theorem taskRegister_of_listed (hpid : s.listed pid = true) :
    taskRegister pid period procTime found s = ⟨.returned (-1), s.lockTl⟩ := by
  have hlisted : s.lockTl.listed pid = true := hpid
  rw [taskRegister, if_pos hlisted]

/-- A period of 0 divides by zero. -/
theorem taskRegister_of_zero (hpid : s.listed pid = false) (hperiod : period = 0) :
    taskRegister pid period procTime found s = ⟨.faulted .divideError, s.unlockTl⟩ := by
  have hlisted : ¬ s.lockTl.listed pid = true := by
    rw [show s.lockTl.listed pid = false from hpid]
    exact Bool.false_ne_true
  rw [taskRegister, if_neg hlisted, if_pos hperiod]
  rfl

/-- A request that the admission test does not pass is turned down. -/
theorem taskRegister_of_full (hpid : s.listed pid = false) (hperiod : period ≠ 0)
    (hfull : s.admits period procTime = false) :
    taskRegister pid period procTime found s = ⟨.returned (-1), s.unlockTl⟩ := by
  have hlisted : s.lockTl.listed pid = false := hpid
  have hadmits : s.lockTl.unlockTl.admits period procTime = false := hfull
  simp only [taskRegister, hlisted, hadmits, hperiod, Bool.false_eq_true, if_false, Bool.not_false,
    if_true]
  rfl

/-- A request that passes is registered. -/
theorem taskRegister_of_room (hpid : s.listed pid = false) (hperiod : period ≠ 0)
    (hroom : s.admits period procTime = true) :
    taskRegister pid period procTime found s =
      ⟨.returned 0, s.registered pid period procTime found⟩ := by
  have hlisted : s.lockTl.listed pid = false := hpid
  have hadmits : s.lockTl.unlockTl.admits period procTime = true := hroom
  simp only [taskRegister, hlisted, hadmits, hperiod, Bool.false_eq_true, if_false, Bool.not_true]
  rfl

end Register

/-- What `Task_register` can do. -/
theorem taskRegister_cases (pid : UInt32) (period procTime : UInt64) (found : Option LinuxTask)
    (s : Scheduler) :
    (s.listed pid = true ∧
      taskRegister pid period procTime found s = ⟨.returned (-1), s.lockTl⟩) ∨
    (s.listed pid = false ∧ period = 0 ∧
      taskRegister pid period procTime found s = ⟨.faulted .divideError, s.unlockTl⟩) ∨
    (s.listed pid = false ∧ period ≠ 0 ∧ s.admits period procTime = false ∧
      taskRegister pid period procTime found s = ⟨.returned (-1), s.unlockTl⟩) ∨
    (s.listed pid = false ∧ period ≠ 0 ∧ s.admits period procTime = true ∧
      taskRegister pid period procTime found s =
        ⟨.returned 0, s.registered pid period procTime found⟩) := by
  cases hpid : s.listed pid with
  | true => exact .inl ⟨rfl, taskRegister_of_listed hpid⟩
  | false =>
    by_cases hperiod : period = 0
    · exact .inr (.inl ⟨rfl, hperiod, taskRegister_of_zero hpid hperiod⟩)
    · cases hroom : s.admits period procTime with
      | false =>
        exact .inr (.inr (.inl ⟨rfl, hperiod, rfl, taskRegister_of_full hpid hperiod hroom⟩))
      | true =>
        exact .inr (.inr (.inr ⟨rfl, hperiod, rfl, taskRegister_of_room hpid hperiod hroom⟩))

/-- A registration that fails leaves all but `tl_lock` as it was, and the others register a task. -/
theorem taskRegister_fails_or_registers (pid : UInt32) (period procTime : UInt64)
    (found : Option LinuxTask) (s : Scheduler) :
    ((taskRegister pid period procTime found s).outcome ≠ .returned 0 ∧
      ∃ lock, (taskRegister pid period procTime found s).state = { s with tlLock := lock }) ∨
    taskRegister pid period procTime found s =
      ⟨.returned 0, s.registered pid period procTime found⟩ := by
  rcases taskRegister_cases pid period procTime found s with
    ⟨-, hresult⟩ | ⟨-, -, hresult⟩ | ⟨-, -, -, hresult⟩ | ⟨-, -, -, hresult⟩
  · rw [hresult]
    exact .inl ⟨by simp, true, rfl⟩
  · rw [hresult]
    exact .inl ⟨by simp, false, rfl⟩
  · rw [hresult]
    exact .inl ⟨by simp, false, rfl⟩
  · exact .inr hresult

/-! ### Task_yeild -/

namespace Scheduler

/-- The search loop of `Task_yeild`, which keeps the last match. -/
def yeildLookup (s : Scheduler) (pid : UInt32) : Option Addr :=
  s.tl.foldl (fun found itr ↦ if (s.slab itr).pid = pid then some itr else found) none

/-- The search loop finds the first match from the end of the list. -/
theorem yeildLookup_eq (s : Scheduler) (pid : UInt32) :
    s.yeildLookup pid = s.tl.reverse.find? fun itr ↦ (s.slab itr).pid = pid := by
  unfold yeildLookup
  induction s.tl using List.reverseRecOn with
  | nil => rfl
  | append_singleton front itr ih =>
    rw [List.foldl_concat, ih, List.reverse_concat, List.find?_cons]
    by_cases hpid : (s.slab itr).pid = pid <;> simp [hpid]

/-- The task the search loop finds is listed and has the pid. -/
theorem mem_of_yeildLookup {s : Scheduler} {pid : UInt32} {t : Addr}
    (hfound : s.yeildLookup pid = some t) : t ∈ s.tl ∧ (s.slab t).pid = pid := by
  rw [yeildLookup_eq] at hfound
  have hpid := List.find?_some hfound
  exact ⟨List.mem_reverse.mp (List.mem_of_find?_eq_some hfound), by simpa using hpid⟩

end Scheduler

/-- The deadline that a yield at time `now` sets. -/
def Mp2TaskStruct.nextDeadline (task : Mp2TaskStruct) (platform : Platform) (now : UInt64) :
    UInt64 :=
  if task.nextDdl = 0 then platform.ulong (now + platform.msecsToJiffies task.period.toUInt32)
  else task.nextDdl + platform.msecsToJiffies task.period.toUInt32

/-- A yield at time `now` comes after the deadline it sets. The first yield is not checked. -/
def Mp2TaskStruct.missesDdl (task : Mp2TaskStruct) (platform : Platform) (now : UInt64) : Bool :=
  decide (task.nextDdl ≠ 0) && decide (task.nextDeadline platform now < now)

namespace Scheduler

/-- Assigns `next_ddl`, in either branch of `Task_yeild`. -/
def advanceDdl (s : Scheduler) (platform : Platform) (now : UInt64) (t : Addr) : Scheduler :=
  s.modify t fun task ↦ { task with nextDdl := task.nextDeadline platform now }

/-- `mod_timer(&yeild_task->timer, yeild_task->next_ddl)`. -/
def modTimer (s : Scheduler) (platform : Platform) (t : Addr) : Scheduler :=
  s.modify t fun task ↦
    { task with timer := { task.timer with expires := some (platform.ulong task.nextDdl) } }

/-- The writes of a yield to the record of the task. -/
def putToSleep (s : Scheduler) (platform : Platform) (now : UInt64) (t : Addr) : Scheduler :=
  ((s.advanceDdl platform now t).modTimer platform t).setState t .sleeping

end Scheduler

/-- `Task_yeild`. The call of `schedule` returns. -/
def taskYeild (platform : Platform) (pid : UInt32) (now : UInt64) (s : Scheduler) : Result :=
  let s := s.lockTl
  let yeildTask := s.yeildLookup pid
  let s := s.unlockTl
  match yeildTask with
  | none => ⟨.returned (-1), s⟩
  | some t =>
    let s := s.lockTl
    let missed := (s.slab t).missesDdl platform now
    let s := s.advanceDdl platform now t
    -- the early return leaves `tl_lock` held
    if missed then ⟨.returned (-1), s⟩
    else
      let s := s.modTimer platform t
      let s := s.setState t .sleeping
      if (s.slab t).linuxTask = none then ⟨.faulted .nullTask, s⟩
      else
        let s := s.lockCt
        let s := s.setCt none
        let s := s.unlockCt
        let s := s.unlockTl
        ⟨.returned 0, s.wakeDispaching⟩

namespace Scheduler

/-- The writes of a yield keep every field but the state, the deadline and the timer. -/
theorem slab_putToSleep_of_keep {β : Type*} (field : Mp2TaskStruct → β)
    (hkeep : ∀ task ddl timer state,
      field { task with nextDdl := ddl, timer := timer, state := state } = field task)
    (s : Scheduler) (platform : Platform) (now : UInt64) (t a : Addr) :
    field ((s.putToSleep platform now t).slab a) = field (s.slab a) := by
  have hddl : ∀ task : Mp2TaskStruct,
      field { task with nextDdl := task.nextDeadline platform now } = field task := fun task ↦
    hkeep task (task.nextDeadline platform now) task.timer task.state
  have htimer : ∀ task : Mp2TaskStruct, field { task with
      timer := { task.timer with expires := some (platform.ulong task.nextDdl) } } = field task :=
    fun task ↦ hkeep task task.nextDdl
      { task.timer with expires := some (platform.ulong task.nextDdl) } task.state
  have hstate : ∀ task : Mp2TaskStruct, field { task with state := .sleeping } = field task :=
    fun task ↦ hkeep task task.nextDdl task.timer .sleeping
  unfold putToSleep setState modTimer advanceDdl
  rw [slab_modify_of_keep field hstate, slab_modify_of_keep field htimer,
    slab_modify_of_keep field hddl]

/-- The writes of a yield do not touch the other records. -/
theorem slab_putToSleep_of_ne (s : Scheduler) (platform : Platform) (now : UInt64) {t a : Addr}
    (hne : a ≠ t) : (s.putToSleep platform now t).slab a = s.slab a := by
  unfold putToSleep setState modTimer advanceDdl
  rw [slab_modify_of_ne _ hne, slab_modify_of_ne _ hne, slab_modify_of_ne _ hne]

/-- The task that yields is `SLEEPING` afterwards. -/
theorem state_putToSleep_self (s : Scheduler) (platform : Platform) (now : UInt64) (t : Addr) :
    ((s.putToSleep platform now t).slab t).state = .sleeping := by
  unfold putToSleep setState
  rw [slab_modify_self]

end Scheduler

/-- What `Task_yeild` can do. -/
theorem taskYeild_cases (platform : Platform) (pid : UInt32) (now : UInt64) (s : Scheduler) :
    (s.yeildLookup pid = none ∧ taskYeild platform pid now s = ⟨.returned (-1), s.unlockTl⟩) ∨
    ∃ t, s.yeildLookup pid = some t ∧
      (((s.slab t).missesDdl platform now = true ∧
        taskYeild platform pid now s = ⟨.returned (-1), (s.advanceDdl platform now t).lockTl⟩) ∨
      ((s.slab t).missesDdl platform now = false ∧ (s.slab t).linuxTask = none ∧
        taskYeild platform pid now s =
          ⟨.faulted .nullTask, (s.putToSleep platform now t).lockTl⟩) ∨
      ((s.slab t).missesDdl platform now = false ∧ (s.slab t).linuxTask ≠ none ∧
        taskYeild platform pid now s = ⟨.returned 0,
          ((((s.putToSleep platform now t).setCt none).unlockCt).unlockTl).wakeDispaching⟩)) := by
  have hlookup : s.lockTl.yeildLookup pid = s.yeildLookup pid := rfl
  cases hfound : s.yeildLookup pid with
  | none =>
    refine .inl ⟨rfl, ?_⟩
    simp only [taskYeild, hlookup, hfound]
    rfl
  | some t =>
    refine .inr ⟨t, rfl, ?_⟩
    have hlinux : ((s.putToSleep platform now t).slab t).linuxTask = (s.slab t).linuxTask :=
      slab_putToSleep_of_keep (fun task ↦ task.linuxTask) (fun _ _ _ _ ↦ rfl) s platform now t t
    have hmissed : (s.lockTl.unlockTl.lockTl.slab t).missesDdl platform now =
        (s.slab t).missesDdl platform now := rfl
    have hslept : (((s.lockTl.unlockTl.lockTl.advanceDdl platform now t).modTimer platform
        t).setState t .sleeping).slab t = (s.putToSleep platform now t).slab t := rfl
    simp only [taskYeild, hlookup, hfound, hmissed, hslept, hlinux]
    cases hmisses : (s.slab t).missesDdl platform now with
    | true => exact .inl ⟨rfl, rfl⟩
    | false =>
      by_cases hnull : (s.slab t).linuxTask = none
      · exact .inr (.inl ⟨rfl, hnull, by simp [hnull]; rfl⟩)
      · exact .inr (.inr ⟨rfl, hnull, by simp [hnull]; rfl⟩)

/-! ### Task_deregister -/

namespace Scheduler

/-- The search loop of `Task_deregister`, which stops at the first match. -/
def deregLookup (s : Scheduler) (pid : UInt32) : Option Addr :=
  s.tl.find? fun itr ↦ (s.slab itr).pid = pid

/-- The task the search loop finds is listed and has the pid. -/
theorem mem_of_deregLookup {s : Scheduler} {pid : UInt32} {t : Addr}
    (hfound : s.deregLookup pid = some t) : t ∈ s.tl ∧ (s.slab t).pid = pid := by
  have hpid := List.find?_some hfound
  exact ⟨List.mem_of_find?_eq_some hfound, by simpa using hpid⟩

/-- The search loop finds a task exactly when the pid is listed. -/
theorem deregLookup_eq_none_iff {s : Scheduler} {pid : UInt32} :
    s.deregLookup pid = none ↔ s.listed pid = false := by
  rw [deregLookup, List.find?_eq_none, listed, List.any_eq_false]

/-- `if (dereg_task == ct)`: clears `ct` and wakes the dispatching thread. -/
def releaseCt (s : Scheduler) (t : Addr) : Scheduler :=
  if s.ct = some t then (((s.lockCt).setCt none).unlockCt).wakeDispaching else s

/-- `total_util -= (proc_time << SHIFT_BITS) / period`. -/
@[simps] def subUtil (s : Scheduler) (t : Addr) : Scheduler :=
  { s with totalUtil := s.totalUtil - (s.slab t).share }

/-- The rest of the removal: the subtraction from `total_util`, `list_del` and `del_timer`. -/
def removeTask (s : Scheduler) (t : Addr) : Scheduler := ((s.subUtil t).listDel t).delTimer t

end Scheduler

/-- `Task_deregister`. -/
def taskDeregister (pid : UInt32) (s : Scheduler) : Result :=
  let s := s.lockTl
  let deregTask := s.deregLookup pid
  let s := s.unlockTl
  match deregTask with
  | none => ⟨.returned (-1), s⟩
  | some t =>
    let s := s.lockTl
    let s := s.releaseCt t
    if (s.slab t).period = 0 then ⟨.faulted .divideError, s⟩
    else
      let s := s.removeTask t
      ⟨.returned 0, s.unlockTl⟩

namespace Scheduler

/-- Clearing `ct` changes no record. -/
@[simp] theorem releaseCt_slab (s : Scheduler) (t : Addr) : (s.releaseCt t).slab = s.slab := by
  unfold releaseCt
  split_ifs <;> rfl

/-- Clearing `ct` leaves the task list as it is. -/
@[simp] theorem releaseCt_tl (s : Scheduler) (t : Addr) : (s.releaseCt t).tl = s.tl := by
  unfold releaseCt
  split_ifs <;> rfl

/-- Clearing `ct` leaves the slab as it is. -/
@[simp] theorem releaseCt_fresh (s : Scheduler) (t : Addr) : (s.releaseCt t).fresh = s.fresh := by
  unfold releaseCt
  split_ifs <;> rfl

/-- Clearing `ct` leaves the total as it is. -/
@[simp] theorem releaseCt_totalUtil (s : Scheduler) (t : Addr) :
    (s.releaseCt t).totalUtil = s.totalUtil := by
  unfold releaseCt
  split_ifs <;> rfl

/-- After the check, `ct` points to the old current task unless that is the task to remove. -/
theorem releaseCt_ct (s : Scheduler) (t : Addr) :
    (s.releaseCt t).ct = if s.ct = some t then none else s.ct := by
  unfold releaseCt
  split_ifs <;> rfl

/-- The records after a removal: the timer of the removed one is not pending. -/
theorem removeTask_slab (s : Scheduler) (t : Addr) :
    (s.removeTask t).slab = Function.update s.slab t
      { s.slab t with timer := { (s.slab t).timer with expires := none } } :=
  rfl

@[simp] theorem removeTask_tl (s : Scheduler) (t : Addr) :
    (s.removeTask t).tl = s.tl.erase t := rfl

@[simp] theorem removeTask_totalUtil (s : Scheduler) (t : Addr) :
    (s.removeTask t).totalUtil = s.totalUtil - (s.slab t).share := rfl

@[simp] theorem removeTask_ct (s : Scheduler) (t : Addr) : (s.removeTask t).ct = s.ct := rfl

@[simp] theorem removeTask_fresh (s : Scheduler) (t : Addr) : (s.removeTask t).fresh = s.fresh :=
  rfl

/-- A removal keeps every field of every record but the timer. -/
theorem slab_removeTask_of_keep {β : Type*} (field : Mp2TaskStruct → β)
    (hkeep : ∀ task timer, field { task with timer := timer } = field task) (s : Scheduler)
    (t a : Addr) : field ((s.removeTask t).slab a) = field (s.slab a) :=
  slab_modify_of_keep field (fun task ↦ hkeep task { task.timer with expires := none })
    ((s.subUtil t).listDel t) t a

/-- A removal does not touch the other records. -/
theorem slab_removeTask_of_ne (s : Scheduler) {t a : Addr} (hne : a ≠ t) :
    (s.removeTask t).slab a = s.slab a := by
  unfold removeTask delTimer
  rw [slab_modify_of_ne _ hne, listDel_slab, subUtil_slab]

end Scheduler

section Deregister

variable {pid : UInt32} {s : Scheduler} {t : Addr}

/-- A pid that is not listed is turned down. -/
theorem taskDeregister_of_none (hnone : s.deregLookup pid = none) :
    taskDeregister pid s = ⟨.returned (-1), s.unlockTl⟩ := by
  have hlookup : s.lockTl.deregLookup pid = none := hnone
  simp only [taskDeregister, hlookup]
  rfl

/-- A record with period 0 divides by zero. -/
theorem taskDeregister_of_zero (hfound : s.deregLookup pid = some t)
    (hperiod : (s.slab t).period = 0) :
    taskDeregister pid s = ⟨.faulted .divideError, s.lockTl.releaseCt t⟩ := by
  have hlookup : s.lockTl.deregLookup pid = some t := hfound
  have hrelock : s.lockTl.unlockTl.lockTl = s.lockTl := rfl
  simp only [taskDeregister, hlookup, hrelock, releaseCt_slab, lockTl_slab, if_pos hperiod]

/-- A listed task is removed. -/
theorem taskDeregister_of_some (hfound : s.deregLookup pid = some t)
    (hperiod : (s.slab t).period ≠ 0) :
    taskDeregister pid s = ⟨.returned 0, ((s.lockTl.releaseCt t).removeTask t).unlockTl⟩ := by
  have hlookup : s.lockTl.deregLookup pid = some t := hfound
  have hrelock : s.lockTl.unlockTl.lockTl = s.lockTl := rfl
  simp only [taskDeregister, hlookup, hrelock, releaseCt_slab, lockTl_slab, if_neg hperiod]

end Deregister

/-- What `Task_deregister` can do. -/
theorem taskDeregister_cases (pid : UInt32) (s : Scheduler) :
    (s.deregLookup pid = none ∧ taskDeregister pid s = ⟨.returned (-1), s.unlockTl⟩) ∨
    ∃ t, s.deregLookup pid = some t ∧
      (((s.slab t).period = 0 ∧
        taskDeregister pid s = ⟨.faulted .divideError, s.lockTl.releaseCt t⟩) ∨
      ((s.slab t).period ≠ 0 ∧
        taskDeregister pid s = ⟨.returned 0, ((s.lockTl.releaseCt t).removeTask t).unlockTl⟩)) := by
  cases hfound : s.deregLookup pid with
  | none => exact .inl ⟨rfl, taskDeregister_of_none hfound⟩
  | some t =>
    refine .inr ⟨t, rfl, ?_⟩
    by_cases hperiod : (s.slab t).period = 0
    · exact .inl ⟨hperiod, taskDeregister_of_zero hfound hperiod⟩
    · exact .inr ⟨hperiod, taskDeregister_of_some hfound hperiod⟩

/-! ### Task_get_highest -/

namespace Scheduler

/-- The task at an address is `READY`. -/
def isReady (s : Scheduler) (a : Addr) : Bool := (s.slab a).state = .ready

/-- One iteration of the loop of `Task_get_highest`. -/
def scanHighest (s : Scheduler) (highest : Option Addr) (itr : Addr) : Option Addr :=
  if s.isReady itr then
    match highest with
    | none => some itr
    | some h => if (s.slab itr).period < (s.slab h).period then some itr else some h
  else highest

/-- The loop of `Task_get_highest`. -/
def highestReady (s : Scheduler) : Option Addr := s.tl.foldl s.scanHighest none

/-- The loop computes the first minimum of the periods over the `READY` tasks. -/
theorem highestReady_eq_argmin (s : Scheduler) :
    s.highestReady =
      List.argmin (fun a ↦ (s.slab a).period.toNat) (s.tl.filter s.isReady) := by
  unfold highestReady List.argmin
  rw [List.foldl_filter]
  congr 1
  funext highest itr
  cases highest with
  | none => rfl
  | some h => rfl

/-- No task is selected exactly when no listed task is `READY`. -/
theorem highestReady_eq_none_iff {s : Scheduler} :
    s.highestReady = none ↔ ∀ a ∈ s.tl, s.isReady a = false := by
  rw [highestReady_eq_argmin, List.argmin_eq_none, List.filter_eq_nil_iff]
  simp

/-- The selected task is listed, `READY`, and of minimal period among the listed `READY` tasks. -/
theorem highestReady_spec {s : Scheduler} {h : Addr} (hselected : s.highestReady = some h) :
    h ∈ s.tl ∧ s.isReady h = true ∧
      ∀ a ∈ s.tl, s.isReady a = true → (s.slab h).period ≤ (s.slab a).period := by
  rw [highestReady_eq_argmin] at hselected
  obtain ⟨hmem, hmin, -⟩ := List.mem_argmin_iff.mp hselected
  obtain ⟨hlisted, hready⟩ := List.mem_filter.mp hmem
  refine ⟨hlisted, hready, fun a ha haReady ↦ ?_⟩
  exact UInt64.le_iff_toNat_le.mpr (hmin a (List.mem_filter.mpr ⟨ha, haReady⟩))

end Scheduler

/-- `Task_get_highest`: the selected task, and the state it leaves. -/
def taskGetHighest (s : Scheduler) : Option Addr × Scheduler :=
  let s := s.lockTl
  let highest := s.highestReady
  (highest, s.unlockTl)

/-! ### Task_destroy -/

/-- `Task_destroy`. -/
def taskDestroy (s : Scheduler) : Scheduler :=
  let s := s.lockTl
  let s := s.tl.foldl (fun s itr ↦ (s.delTimer itr).listDel itr) s
  s.unlockTl

end KernelModules.RateMonotonic
