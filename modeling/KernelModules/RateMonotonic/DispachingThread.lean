import KernelModules.RateMonotonic.SchedulerOperations

/-!
# The timer callback and the dispatching thread of `mp2_main.c`

`mp2TimerCallback` marks the tasks of a pid `READY` and wakes the dispatching thread. One iteration
of `dispaching_thread_function` reads `Task_get_highest` and then runs the section under `ct_lock`
(`ctSection`), after which the thread sets its state to `TASK_INTERRUPTIBLE` and sleeps.

The section demotes the current task when nothing is `READY`, replaces it when the selected task has
the shorter period, and otherwise does nothing. `CtSectionStep` lists the cases, with the calls that
fault on a NULL `linux_task`.
-/

set_option autoImplicit false
set_option relaxedAutoImplicit false

namespace KernelModules.RateMonotonic

open Scheduler

/-! ### The timer callback -/

namespace Scheduler

/-- The loop of `mp2_timer_callback`. -/
def markReady (s : Scheduler) (data : UInt32) : Scheduler :=
  s.tl.foldl (fun s itr ↦ if (s.slab itr).pid = data then s.setState itr .ready else s) s

/-- The record at an address after the loop has gone through a list of addresses. -/
theorem slab_foldl_markReady (data : UInt32) (itrs : List Addr) (s : Scheduler) (a : Addr) :
    (itrs.foldl (fun s itr ↦
        if (s.slab itr).pid = data then s.setState itr .ready else s) s).slab a =
      if a ∈ itrs ∧ (s.slab a).pid = data then { s.slab a with state := .ready } else s.slab a := by
  induction itrs generalizing s with
  | nil => simp
  | cons itr rest ih =>
    rw [List.foldl_cons, ih]
    by_cases hitr : (s.slab itr).pid = data
    · rw [if_pos hitr]
      unfold setState
      by_cases ha : a = itr
      · subst ha
        simp [hitr]
      · rw [slab_modify_of_ne s ha]
        simp [ha]
    · rw [if_neg hitr]
      by_cases ha : a = itr
      · subst ha
        simp [hitr]
      · simp [ha]

/-- The loop marks the listed tasks of the pid, and changes no other record. -/
theorem slab_markReady (s : Scheduler) (data : UInt32) (a : Addr) :
    (s.markReady data).slab a =
      if a ∈ s.tl ∧ (s.slab a).pid = data then { s.slab a with state := .ready } else s.slab a :=
  slab_foldl_markReady data s.tl s a

/-- The loop writes to records only. -/
theorem markReady_eq (s : Scheduler) (data : UInt32) :
    s.markReady data = { s with slab := (s.markReady data).slab } := by
  have hgeneral : ∀ (itrs : List Addr) (t : Scheduler), itrs.foldl (fun s itr ↦
      if (s.slab itr).pid = data then s.setState itr .ready else s) t =
      { t with slab := (itrs.foldl (fun s itr ↦
          if (s.slab itr).pid = data then s.setState itr .ready else s) t).slab } := by
    intro itrs
    induction itrs with
    | nil => intro t; rfl
    | cons itr rest ih =>
      intro t
      rw [List.foldl_cons, ih]
      split_ifs <;> rfl
  exact hgeneral s.tl s

@[simp] theorem markReady_tl (s : Scheduler) (data : UInt32) : (s.markReady data).tl = s.tl := by
  rw [markReady_eq]

@[simp] theorem markReady_ct (s : Scheduler) (data : UInt32) : (s.markReady data).ct = s.ct := by
  rw [markReady_eq]

@[simp] theorem markReady_fresh (s : Scheduler) (data : UInt32) :
    (s.markReady data).fresh = s.fresh := by
  rw [markReady_eq]

@[simp] theorem markReady_totalUtil (s : Scheduler) (data : UInt32) :
    (s.markReady data).totalUtil = s.totalUtil := by
  rw [markReady_eq]

/-- The loop keeps every field of every record but the state. -/
theorem slab_markReady_of_keep {β : Type*} (field : Mp2TaskStruct → β)
    (hkeep : ∀ task state, field { task with state := state } = field task) (s : Scheduler)
    (data : UInt32) (a : Addr) : field ((s.markReady data).slab a) = field (s.slab a) := by
  rw [slab_markReady]
  split_ifs
  · exact hkeep _ _
  · rfl

end Scheduler

/-- `mp2_timer_callback`. -/
def mp2TimerCallback (data : UInt32) (s : Scheduler) : Scheduler :=
  (s.markReady data).wakeDispaching

/-! ### The section under ct_lock -/

/-- Continues with the next statements when the ones before have not faulted. -/
def Result.andThen (result : Result) (rest : Scheduler → Result) : Result :=
  match result.outcome with
  | .returned _ => rest result.state
  | .faulted _ => result

/-- `ct->state = READY; sched_setscheduler(ct->linux_task, SCHED_NORMAL, &sparam)`. -/
def demote (cur : Addr) (s : Scheduler) : Result :=
  let s := s.setState cur .ready
  if (s.slab cur).linuxTask = none then ⟨.faulted .nullTask, s⟩ else ⟨.returned 0, s⟩

/-- `wake_up_process`, `highest->state = RUNNING`, `sched_setscheduler` and `ct = highest`. -/
def runTask (highest : Addr) (s : Scheduler) : Result :=
  if (s.slab highest).linuxTask = none then ⟨.faulted .nullTask, s⟩
  else ⟨.returned 0, (s.setState highest .running).setCt (some highest)⟩

/-- `ct != NULL && ct->period > highest->period`. -/
def Scheduler.outranked (s : Scheduler) (cur highest : Addr) : Bool :=
  (s.slab highest).period < (s.slab cur).period

/-- A task that is outranked has the longer period. -/
theorem Scheduler.lt_of_outranked {s : Scheduler} {cur highest : Addr}
    (hrank : s.outranked cur highest = true) :
    (s.slab highest).period < (s.slab cur).period := of_decide_eq_true hrank

/-- A task that is not outranked has a period at most as long. -/
theorem Scheduler.le_of_not_outranked {s : Scheduler} {cur highest : Addr}
    (hrank : s.outranked cur highest = false) :
    (s.slab cur).period ≤ (s.slab highest).period := UInt64.not_lt.mp (of_decide_eq_false hrank)

/-- The section of `dispaching_thread_function` under `ct_lock`, for the task that
`Task_get_highest` selected. -/
def ctSection (highest : Option Addr) (s : Scheduler) : Result :=
  let s := s.lockCt
  let section_ : Result :=
    match highest with
    | none =>
      match s.ct with
      | none => ⟨.returned 0, s⟩
      | some cur => demote cur s
    | some h =>
      let preempted : Result :=
        match s.ct with
        | none => ⟨.returned 0, s⟩
        | some cur => if s.outranked cur h then demote cur s else ⟨.returned 0, s⟩
      preempted.andThen fun s ↦
        match s.ct with
        | none => runTask h s
        | some cur => if s.outranked cur h then runTask h s else ⟨.returned 0, s⟩
  section_.andThen fun s ↦ ⟨.returned 0, s.unlockCt⟩

/-- What the section can do, by the selected task and the current one. -/
inductive CtSectionStep (s : Scheduler) : Option Addr → Result → Prop
  | idle (hct : s.ct = none) : CtSectionStep s none ⟨.returned 0, s.unlockCt⟩
  | demoteFault {cur : Addr} (hct : s.ct = some cur) (hnull : (s.slab cur).linuxTask = none) :
    CtSectionStep s none ⟨.faulted .nullTask, (s.setState cur .ready).lockCt⟩
  | demote {cur : Addr} (hct : s.ct = some cur) (hlinux : (s.slab cur).linuxTask ≠ none) :
    CtSectionStep s none ⟨.returned 0, (s.setState cur .ready).unlockCt⟩
  | keep {h cur : Addr} (hct : s.ct = some cur) (hrank : s.outranked cur h = false) :
    CtSectionStep s (some h) ⟨.returned 0, s.unlockCt⟩
  | startFault {h : Addr} (hct : s.ct = none) (hnull : (s.slab h).linuxTask = none) :
    CtSectionStep s (some h) ⟨.faulted .nullTask, s.lockCt⟩
  | preemptFault {h cur : Addr} (hct : s.ct = some cur) (hrank : s.outranked cur h = true)
    (hnull : (s.slab cur).linuxTask = none ∨ (s.slab h).linuxTask = none) :
    CtSectionStep s (some h) ⟨.faulted .nullTask, (s.setState cur .ready).lockCt⟩
  | start {h : Addr} (hct : s.ct = none) (hlinux : (s.slab h).linuxTask ≠ none) :
    CtSectionStep s (some h)
      ⟨.returned 0, ((s.setState h .running).setCt (some h)).unlockCt⟩
  | preempt {h cur : Addr} (hct : s.ct = some cur) (hrank : s.outranked cur h = true)
    (hcur : (s.slab cur).linuxTask ≠ none) (hlinux : (s.slab h).linuxTask ≠ none) :
    CtSectionStep s (some h) ⟨.returned 0,
      (((s.setState cur .ready).setState h .running).setCt (some h)).unlockCt⟩

/-- The section does one of these. -/
theorem ctSection_step (s : Scheduler) (highest : Option Addr) :
    CtSectionStep s highest (ctSection highest s) := by
  have hlinux : ∀ cur a, ((s.lockCt.setState cur .ready).slab a).linuxTask =
      (s.slab a).linuxTask := fun cur a ↦
    slab_setState_of_keep (fun task ↦ task.linuxTask) (fun _ _ ↦ rfl) s.lockCt cur .ready a
  have houtranked : ∀ cur h, (s.lockCt.setState cur .ready).outranked cur h = s.outranked cur h :=
    fun cur h ↦ by
      have hperiod := slab_setState_of_keep (fun task ↦ task.period) (fun _ _ ↦ rfl) s.lockCt cur
        .ready
      simp only [outranked, hperiod, lockCt_slab]
  have hct : ∀ cur, (s.lockCt.setState cur .ready).ct = s.ct := fun _ ↦ rfl
  have hrank : ∀ cur h, s.lockCt.outranked cur h = s.outranked cur h := fun _ _ ↦ rfl
  cases highest with
  | none =>
    cases hcur : s.ct with
    | none =>
      have hresult : ctSection none s = ⟨.returned 0, s.unlockCt⟩ := by
        simp only [ctSection, lockCt_ct, hcur, Result.andThen]
        rfl
      exact hresult ▸ .idle hcur
    | some cur =>
      by_cases hnull : (s.slab cur).linuxTask = none
      · have hresult : ctSection none s = ⟨.faulted .nullTask, (s.setState cur .ready).lockCt⟩ := by
          simp only [ctSection, lockCt_ct, hcur, demote, hlinux, if_pos hnull, Result.andThen]
          rfl
        exact hresult ▸ .demoteFault hcur hnull
      · have hresult : ctSection none s = ⟨.returned 0, (s.setState cur .ready).unlockCt⟩ := by
          simp only [ctSection, lockCt_ct, hcur, demote, hlinux, if_neg hnull, Result.andThen]
          rfl
        exact hresult ▸ .demote hcur hnull
  | some h =>
    cases hcur : s.ct with
    | none =>
      by_cases hnull : (s.slab h).linuxTask = none
      · have hresult : ctSection (some h) s = ⟨.faulted .nullTask, s.lockCt⟩ := by
          simp only [ctSection, lockCt_ct, hcur, runTask, lockCt_slab, if_pos hnull,
            Result.andThen]
        exact hresult ▸ .startFault hcur hnull
      · have hresult : ctSection (some h) s =
            ⟨.returned 0, ((s.setState h .running).setCt (some h)).unlockCt⟩ := by
          simp only [ctSection, lockCt_ct, hcur, runTask, lockCt_slab, if_neg hnull,
            Result.andThen]
          rfl
        exact hresult ▸ .start hcur hnull
    | some cur =>
      cases houter : s.outranked cur h with
      | false =>
        have hresult : ctSection (some h) s = ⟨.returned 0, s.unlockCt⟩ := by
          simp only [ctSection, lockCt_ct, hcur, hrank, houter, Bool.false_eq_true, if_false,
            Result.andThen]
          rfl
        exact hresult ▸ .keep hcur houter
      | true =>
        by_cases hcurNull : (s.slab cur).linuxTask = none
        · have hresult : ctSection (some h) s =
              ⟨.faulted .nullTask, (s.setState cur .ready).lockCt⟩ := by
            simp only [ctSection, lockCt_ct, hcur, hrank, houter, if_true, demote, hlinux,
              if_pos hcurNull, Result.andThen]
            rfl
          exact hresult ▸ .preemptFault hcur houter (.inl hcurNull)
        · by_cases hnull : (s.slab h).linuxTask = none
          · have hresult : ctSection (some h) s =
                ⟨.faulted .nullTask, (s.setState cur .ready).lockCt⟩ := by
              simp only [ctSection, lockCt_ct, hct, hcur, hrank, houter, if_true, demote, hlinux,
                if_neg hcurNull, Result.andThen, houtranked, runTask, if_pos hnull]
              rfl
            exact hresult ▸ .preemptFault hcur houter (.inr hnull)
          · have hresult : ctSection (some h) s = ⟨.returned 0,
                (((s.setState cur .ready).setState h .running).setCt (some h)).unlockCt⟩ := by
              simp only [ctSection, lockCt_ct, hct, hcur, hrank, houter, if_true, demote, hlinux,
                if_neg hcurNull, Result.andThen, houtranked, runTask, if_neg hnull]
              rfl
            exact hresult ▸ .preempt hcur houter hcurNull hnull

/-! ### One iteration -/

/-- One iteration of `dispaching_thread_function`, from the return of `schedule` to the next sleep.
A thread that faults stays in its section. -/
def dispachingIteration (s : Scheduler) : Result :=
  let selected := taskGetHighest s
  (ctSection selected.1 selected.2).andThen fun s ↦
    ⟨.returned 0, { s with dispaching := .interruptible }⟩

/-- An iteration selects on the state it starts from, and runs its section with `tl_lock` free. -/
theorem dispachingIteration_eq (s : Scheduler) :
    dispachingIteration s = (ctSection s.highestReady s.unlockTl).andThen fun s ↦
      ⟨.returned 0, { s with dispaching := .interruptible }⟩ :=
  rfl

end KernelModules.RateMonotonic
