import KernelModules.RateMonotonic.AtomicRuns

/-!
# Interleaved calls

The scheduler with its calls cut into steps. Any number of threads each run one call of
`Task_register`, `Task_yeild` or `Task_deregister`; the dispatching thread runs its loop; pending
timers fire once their expiry time is reached; and time passes. A step of a thread is a locked
section, or a statement where others can come in between: the test and the update of `total_util`,
which no lock protects, the statements of `Task_yeild` after its deadline check, which the timer
callback can interrupt, and the statements of the last section of `Task_deregister`, which the
dispatching thread can interrupt. A new record is private to its thread until it is linked, so its
allocation and initialisation are one step with the insertion.

The `Locks` say what a lock call does. The locks of the kernel are exclusive and are left held by
the early returns; the results over runs hold for every kind of locks, in particular when a lock
call is interrupted, which the code does not check.

`threadStep_spec` and `dispatcherStep_spec` list what a step can do, `next_spec` does so for the
whole machine, and `run_thread_alone` says that a thread with free locks that is not interrupted
computes the atomic operation.
-/

set_option autoImplicit false
set_option relaxedAutoImplicit false

namespace KernelModules.RateMonotonic

open Foundation Scheduler

/-! ### Calls and locks -/

/-- The arguments of `Task_register`, and the process its pid names. -/
structure Request where
  pid : UInt32
  period : UInt64
  procTime : UInt64
  found : Option LinuxTask
  deriving DecidableEq

/-- The share of a request. -/
def Request.share (request : Request) : UInt64 :=
  RateMonotonic.share request.procTime request.period

/-- The record of a request. -/
def Request.task (request : Request) : Mp2TaskStruct :=
  newTask request.pid request.period request.procTime request.found

/-- A call that a write to `/proc/mp2/status` makes. -/
inductive Call
  | register (request : Request)
  | yeild (pid : UInt32)
  | deregister (pid : UInt32)
  deriving DecidableEq

/-- Runs a call from its first statement to its last, at time `now`. -/
def Call.perform (platform : Platform) (now : UInt64) : Call → Scheduler → Result
  | .register q, s => taskRegister q.pid q.period q.procTime q.found s
  | .yeild pid, s => taskYeild platform pid now s
  | .deregister pid, s => taskDeregister pid s

/-- What the lock calls do. Exclusive locks make a call wait until the lock is free; otherwise the
call returns at once. The early returns inside a section release `tl_lock` or leave it held. -/
structure Locks where
  exclusive : Bool
  releasedOnError : Bool

/-- The mutexes of the kernel with the early returns of the source. -/
def mutexes : Locks where
  exclusive := true
  releasedOnError := false

/-- A lock call waits. -/
def Locks.wait (locks : Locks) (held : Bool) : Bool := locks.exclusive && held

/-- Returns early from a section of `tl_lock`. -/
@[simps] def Locks.leave (locks : Locks) (s : Scheduler) : Scheduler :=
  { s with tlLock := !locks.releasedOnError }

/-! ### Threads -/

/-- Where a thread is in its call. A thread that has looked up a record holds its address. -/
inductive Pc
  | start (call : Call)
  | registerTest (request : Request)
  | registerLoad (request : Request)
  | registerStore (request : Request) (loaded : UInt64)
  | registerInsert (request : Request)
  | yeildDeadline (task : Addr)
  | yeildArm (task : Addr)
  | yeildSleep (task : Addr)
  | yeildBlock (task : Addr)
  | yeildClear (task : Addr)
  | yeildWake (task : Addr)
  | yeildDone (task : Addr)
  | deregCheck (task : Addr)
  | deregClear (task : Addr)
  | deregWake (task : Addr)
  | deregUnlink (task : Addr)
  | returned (code : Int)
  | faulted (fault : Fault)
  deriving DecidableEq

/-- What a thread at the end of its call ended with. A yield that is carried through returns 0. -/
def Pc.outcome : Pc → Option Outcome
  | .yeildDone _ => some (.returned 0)
  | .returned code => some (.returned code)
  | .faulted fault => some (.faulted fault)
  | _ => none

/-- The record that a thread has looked up. -/
def Pc.task : Pc → Option Addr
  | .yeildDeadline t => some t
  | .yeildArm t => some t
  | .yeildSleep t => some t
  | .yeildBlock t => some t
  | .yeildClear t => some t
  | .yeildWake t => some t
  | .yeildDone t => some t
  | .deregCheck t => some t
  | .deregClear t => some t
  | .deregWake t => some t
  | .deregUnlink t => some t
  | _ => none

namespace Scheduler

/-- Stores `total_util`. -/
@[simps] def storeUtil (s : Scheduler) (total : UInt64) : Scheduler := { s with totalUtil := total }

/-- Allocates and fills in the record of a request, links it and drops `tl_lock`. -/
@[simps] def insert (s : Scheduler) (request : Request) : Scheduler :=
  { s with
    slab := Function.update s.slab s.fresh request.task
    fresh := s.fresh + 1
    tl := s.tl ++ [s.fresh]
    tlLock := false }

end Scheduler

/-- The next step of a thread at time `now`: where the thread is then, and the state it leaves. -/
def threadStep (platform : Platform) (locks : Locks) (now : UInt64) :
    Pc → Scheduler → Option (Pc × Scheduler)
  | .start (.register q), s =>
    if locks.wait s.tlLock then none
    else if s.listed q.pid then some (.returned (-1), locks.leave s)
    else some (.registerTest q, s.unlockTl)
  | .registerTest q, s =>
    if q.period = 0 then some (.faulted .divideError, s)
    else if s.admits q.period q.procTime then some (.registerLoad q, s)
    else some (.returned (-1), s)
  | .registerLoad q, s => some (.registerStore q s.totalUtil, s)
  | .registerStore q loaded, s => some (.registerInsert q, s.storeUtil (loaded + q.share))
  | .registerInsert q, s =>
    if locks.wait s.tlLock then none else some (.returned 0, s.insert q)
  | .start (.yeild pid), s =>
    if locks.wait s.tlLock then none
    else match s.yeildLookup pid with
      | none => some (.returned (-1), s.unlockTl)
      | some t => some (.yeildDeadline t, s.unlockTl)
  | .yeildDeadline t, s =>
    if locks.wait s.tlLock then none
    else if (s.slab t).missesDdl platform now then
      some (.returned (-1), locks.leave (s.advanceDdl platform now t))
    else some (.yeildArm t, (s.advanceDdl platform now t).lockTl)
  | .yeildArm t, s => some (.yeildSleep t, s.modTimer platform t)
  | .yeildSleep t, s => some (.yeildBlock t, s.setState t .sleeping)
  | .yeildBlock t, s =>
    if (s.slab t).linuxTask = none then some (.faulted .nullTask, s) else some (.yeildClear t, s)
  | .yeildClear t, s =>
    if locks.wait s.ctLock then none
    else some (.yeildWake t, ((s.setCt none).unlockCt).unlockTl)
  | .yeildWake t, s => some (.yeildDone t, s.wakeDispaching)
  | .start (.deregister pid), s =>
    if locks.wait s.tlLock then none
    else match s.deregLookup pid with
      | none => some (.returned (-1), s.unlockTl)
      | some t => some (.deregCheck t, s.unlockTl)
  | .deregCheck t, s =>
    if locks.wait s.tlLock then none
    else if s.ct = some t then some (.deregClear t, s.lockTl)
    else some (.deregUnlink t, s.lockTl)
  | .deregClear t, s =>
    if locks.wait s.ctLock then none else some (.deregWake t, (s.setCt none).unlockCt)
  | .deregWake t, s => some (.deregUnlink t, s.wakeDispaching)
  | .deregUnlink t, s =>
    if (s.slab t).period = 0 then some (.faulted .divideError, s)
    else some (.returned 0, (s.removeTask t).unlockTl)
  | .yeildDone _, _ => none
  | .returned _, _ => none
  | .faulted _, _ => none

/-- What a step of a thread can do. -/
inductive ThreadStep (platform : Platform) (locks : Locks) (now : UInt64) (s : Scheduler) :
    Pc → Pc → Scheduler → Prop
  | duplicate {q : Request} (hpid : s.listed q.pid = true) :
    ThreadStep platform locks now s (.start (.register q)) (.returned (-1)) (locks.leave s)
  | unlisted {q : Request} (hpid : s.listed q.pid = false) :
    ThreadStep platform locks now s (.start (.register q)) (.registerTest q) s.unlockTl
  | divide {q : Request} (hperiod : q.period = 0) :
    ThreadStep platform locks now s (.registerTest q) (.faulted .divideError) s
  | reject {q : Request} (hperiod : q.period ≠ 0) (hfull : s.admits q.period q.procTime = false) :
    ThreadStep platform locks now s (.registerTest q) (.returned (-1)) s
  | admitted {q : Request} (hperiod : q.period ≠ 0) (hroom : s.admits q.period q.procTime = true) :
    ThreadStep platform locks now s (.registerTest q) (.registerLoad q) s
  | load {q : Request} :
    ThreadStep platform locks now s (.registerLoad q) (.registerStore q s.totalUtil) s
  | store {q : Request} {loaded : UInt64} :
    ThreadStep platform locks now s (.registerStore q loaded) (.registerInsert q)
      (s.storeUtil (loaded + q.share))
  | insert {q : Request} :
    ThreadStep platform locks now s (.registerInsert q) (.returned 0) (s.insert q)
  | yeildNone {pid : UInt32} (hnone : s.yeildLookup pid = none) :
    ThreadStep platform locks now s (.start (.yeild pid)) (.returned (-1)) s.unlockTl
  | yeildFound {pid : UInt32} {t : Addr} (hfound : s.yeildLookup pid = some t) :
    ThreadStep platform locks now s (.start (.yeild pid)) (.yeildDeadline t) s.unlockTl
  | miss {t : Addr} (hmissed : (s.slab t).missesDdl platform now = true) :
    ThreadStep platform locks now s (.yeildDeadline t) (.returned (-1))
      (locks.leave (s.advanceDdl platform now t))
  | deadline {t : Addr} (hmade : (s.slab t).missesDdl platform now = false) :
    ThreadStep platform locks now s (.yeildDeadline t) (.yeildArm t)
      (s.advanceDdl platform now t).lockTl
  | arm {t : Addr} :
    ThreadStep platform locks now s (.yeildArm t) (.yeildSleep t) (s.modTimer platform t)
  | sleep {t : Addr} :
    ThreadStep platform locks now s (.yeildSleep t) (.yeildBlock t) (s.setState t .sleeping)
  | blockNull {t : Addr} (hnull : (s.slab t).linuxTask = none) :
    ThreadStep platform locks now s (.yeildBlock t) (.faulted .nullTask) s
  | block {t : Addr} (hlinux : (s.slab t).linuxTask ≠ none) :
    ThreadStep platform locks now s (.yeildBlock t) (.yeildClear t) s
  | clear {t : Addr} :
    ThreadStep platform locks now s (.yeildClear t) (.yeildWake t)
      ((s.setCt none).unlockCt).unlockTl
  | wake {t : Addr} :
    ThreadStep platform locks now s (.yeildWake t) (.yeildDone t) s.wakeDispaching
  | deregNone {pid : UInt32} (hnone : s.deregLookup pid = none) :
    ThreadStep platform locks now s (.start (.deregister pid)) (.returned (-1)) s.unlockTl
  | deregFound {pid : UInt32} {t : Addr} (hfound : s.deregLookup pid = some t) :
    ThreadStep platform locks now s (.start (.deregister pid)) (.deregCheck t) s.unlockTl
  | current {t : Addr} (hct : s.ct = some t) :
    ThreadStep platform locks now s (.deregCheck t) (.deregClear t) s.lockTl
  | other {t : Addr} (hct : s.ct ≠ some t) :
    ThreadStep platform locks now s (.deregCheck t) (.deregUnlink t) s.lockTl
  | deregClear {t : Addr} :
    ThreadStep platform locks now s (.deregClear t) (.deregWake t) (s.setCt none).unlockCt
  | deregWake {t : Addr} :
    ThreadStep platform locks now s (.deregWake t) (.deregUnlink t) s.wakeDispaching
  | unlinkDivide {t : Addr} (hperiod : (s.slab t).period = 0) :
    ThreadStep platform locks now s (.deregUnlink t) (.faulted .divideError) s
  | unlink {t : Addr} (hperiod : (s.slab t).period ≠ 0) :
    ThreadStep platform locks now s (.deregUnlink t) (.returned 0) (s.removeTask t).unlockTl

section ThreadStep

variable {platform : Platform} {locks : Locks} {now : UInt64} {later : Pc} {s t : Scheduler}

/-- The first step of a call. -/
theorem threadStep_start {call : Call}
    (hstep : threadStep platform locks now (.start call) s = some (later, t)) :
    ThreadStep platform locks now s (.start call) later t := by
  cases call with
  | register q =>
    simp only [threadStep] at hstep
    split_ifs at hstep with _ hpid
    · cases hstep
      exact .duplicate hpid
    · cases hstep
      exact .unlisted (Bool.eq_false_of_not_eq_true hpid)
  | yeild pid =>
    simp only [threadStep] at hstep
    split_ifs at hstep
    split at hstep
    next hnone =>
      cases hstep
      exact .yeildNone hnone
    next task hfound =>
      cases hstep
      exact .yeildFound hfound
  | deregister pid =>
    simp only [threadStep] at hstep
    split_ifs at hstep
    split at hstep
    next hnone =>
      cases hstep
      exact .deregNone hnone
    next task hfound =>
      cases hstep
      exact .deregFound hfound

/-- The admission test of a registration. -/
theorem threadStep_registerTest {q : Request}
    (hstep : threadStep platform locks now (.registerTest q) s = some (later, t)) :
    ThreadStep platform locks now s (.registerTest q) later t := by
  simp only [threadStep] at hstep
  split_ifs at hstep with hperiod hroom
  · cases hstep
    exact .divide hperiod
  · cases hstep
    exact .admitted hperiod hroom
  · cases hstep
    exact .reject hperiod (Bool.eq_false_of_not_eq_true hroom)

/-- The deadline of a yield. -/
theorem threadStep_yeildDeadline {task : Addr}
    (hstep : threadStep platform locks now (.yeildDeadline task) s = some (later, t)) :
    ThreadStep platform locks now s (.yeildDeadline task) later t := by
  simp only [threadStep] at hstep
  split_ifs at hstep with _ hmissed
  · cases hstep
    exact .miss hmissed
  · cases hstep
    exact .deadline (Bool.eq_false_of_not_eq_true hmissed)

/-- The access to the process that is put to sleep. -/
theorem threadStep_yeildBlock {task : Addr}
    (hstep : threadStep platform locks now (.yeildBlock task) s = some (later, t)) :
    ThreadStep platform locks now s (.yeildBlock task) later t := by
  simp only [threadStep] at hstep
  split_ifs at hstep with hnull
  · cases hstep
    exact .blockNull hnull
  · cases hstep
    exact .block hnull

/-- The comparison of a removal with the current task. -/
theorem threadStep_deregCheck {task : Addr}
    (hstep : threadStep platform locks now (.deregCheck task) s = some (later, t)) :
    ThreadStep platform locks now s (.deregCheck task) later t := by
  simp only [threadStep] at hstep
  split_ifs at hstep with _ hct
  · cases hstep
    exact .current hct
  · cases hstep
    exact .other hct

/-- The end of a removal. -/
theorem threadStep_deregUnlink {task : Addr}
    (hstep : threadStep platform locks now (.deregUnlink task) s = some (later, t)) :
    ThreadStep platform locks now s (.deregUnlink task) later t := by
  simp only [threadStep] at hstep
  split_ifs at hstep with hperiod
  · cases hstep
    exact .unlinkDivide hperiod
  · cases hstep
    exact .unlink hperiod

/-- A step of a thread does one of these. -/
theorem threadStep_spec {pc : Pc} (hstep : threadStep platform locks now pc s = some (later, t)) :
    ThreadStep platform locks now s pc later t := by
  cases pc with
  | start call => exact threadStep_start hstep
  | registerTest q => exact threadStep_registerTest hstep
  | registerLoad q =>
    cases hstep
    exact .load
  | registerStore q loaded =>
    cases hstep
    exact .store
  | registerInsert q =>
    simp only [threadStep] at hstep
    split_ifs at hstep
    cases hstep
    exact .insert
  | yeildDeadline task => exact threadStep_yeildDeadline hstep
  | yeildArm task =>
    cases hstep
    exact .arm
  | yeildSleep task =>
    cases hstep
    exact .sleep
  | yeildBlock task => exact threadStep_yeildBlock hstep
  | yeildClear task =>
    simp only [threadStep] at hstep
    split_ifs at hstep
    cases hstep
    exact .clear
  | yeildWake task =>
    cases hstep
    exact .wake
  | deregCheck task => exact threadStep_deregCheck hstep
  | deregClear task =>
    simp only [threadStep] at hstep
    split_ifs at hstep
    cases hstep
    exact .deregClear
  | deregWake task =>
    cases hstep
    exact .deregWake
  | deregUnlink task => exact threadStep_deregUnlink hstep
  | yeildDone task => cases hstep
  | returned code => cases hstep
  | faulted fault => cases hstep

end ThreadStep

/-! ### The dispatching thread -/

/-- Where the dispatching thread is in its loop. -/
inductive DispatcherPc
  | top
  | beforeSchedule
  | asleep
  | awake
  | picked (highest : Option Addr)
  | dead
  deriving DecidableEq

/-- `set_current_state(TASK_INTERRUPTIBLE)`. -/
@[simps] def Scheduler.sleepDispaching (s : Scheduler) : Scheduler :=
  { s with dispaching := .interruptible }

/-- The next step of the dispatching thread. `schedule` returns at once to a thread that was woken
after it set its state, and otherwise when it is woken. -/
def dispatcherStep (locks : Locks) : DispatcherPc → Scheduler → Option (DispatcherPc × Scheduler)
  | .top, s => some (.beforeSchedule, s.sleepDispaching)
  | .beforeSchedule, s =>
    if s.dispaching = .interruptible then some (.asleep, s) else some (.awake, s)
  | .asleep, s => if s.dispaching = .interruptible then none else some (.awake, s)
  | .awake, s =>
    if locks.wait s.tlLock then none
    else some (.picked (taskGetHighest s).1, (taskGetHighest s).2)
  | .picked highest, s =>
    if locks.wait s.ctLock then none
    else match (ctSection highest s).outcome with
      | .returned _ => some (.top, (ctSection highest s).state)
      | .faulted _ => some (.dead, (ctSection highest s).state)
  | .dead, _ => none

/-- What a step of the dispatching thread can do. -/
inductive DispatcherStep (s : Scheduler) : DispatcherPc → DispatcherPc → Scheduler → Prop
  | setState : DispatcherStep s .top .beforeSchedule s.sleepDispaching
  | sleep (hstate : s.dispaching = .interruptible) : DispatcherStep s .beforeSchedule .asleep s
  | cancelled (hstate : s.dispaching ≠ .interruptible) : DispatcherStep s .beforeSchedule .awake s
  | woken (hstate : s.dispaching ≠ .interruptible) : DispatcherStep s .asleep .awake s
  | pick : DispatcherStep s .awake (.picked s.highestReady) s.unlockTl
  | section_ {highest : Option Addr} {code : Int}
    (hreturned : (ctSection highest s).outcome = .returned code) :
    DispatcherStep s (.picked highest) .top (ctSection highest s).state
  | fault {highest : Option Addr} {fault : Fault}
    (hfaulted : (ctSection highest s).outcome = .faulted fault) :
    DispatcherStep s (.picked highest) .dead (ctSection highest s).state

/-- A step of the dispatching thread does one of these. -/
theorem dispatcherStep_spec {locks : Locks} {pc later : DispatcherPc} {s t : Scheduler}
    (hstep : dispatcherStep locks pc s = some (later, t)) : DispatcherStep s pc later t := by
  cases pc with
  | top =>
    cases hstep
    exact .setState
  | beforeSchedule =>
    simp only [dispatcherStep] at hstep
    split_ifs at hstep with hstate
    · cases hstep
      exact .sleep hstate
    · cases hstep
      exact .cancelled hstate
  | asleep =>
    simp only [dispatcherStep] at hstep
    split_ifs at hstep with hstate
    cases hstep
    exact .woken hstate
  | awake =>
    simp only [dispatcherStep] at hstep
    split_ifs at hstep
    cases hstep
    exact .pick
  | picked highest =>
    simp only [dispatcherStep] at hstep
    split_ifs at hstep
    split at hstep
    next code hreturned =>
      cases hstep
      exact .section_ hreturned
    next fault hfaulted =>
      cases hstep
      exact .fault hfaulted
  | dead => cases hstep

/-! ### The machine -/

/-- The scheduler with its threads, the dispatching thread, the clock, and the number of timer
callbacks that have marked their tasks and are about to wake the dispatching thread. -/
structure Machine (ι : Type*) where
  sched : Scheduler
  jiffies : UInt64
  threads : ι → Pc
  dispatcher : DispatcherPc
  callbacks : ℕ

/-- A step of the machine, by what takes it. A timer is named by the address of its record. -/
inductive Label (ι : Type*)
  | thread (i : ι)
  | dispatcher
  | fire (task : Addr)
  | callbackWake
  | tick

variable {ι : Type*} [DecidableEq ι]

/-- The start: no call has begun, and the dispatching thread is at the top of its loop. -/
def Machine.start (s : Scheduler) (now : UInt64) (calls : ι → Call) : Machine ι where
  sched := s
  jiffies := now
  threads := fun i ↦ .start (calls i)
  dispatcher := .top
  callbacks := 0

/-- The timer of a record is pending. -/
def Scheduler.pending (s : Scheduler) (a : Addr) : Prop := (s.slab a).timer.expires ≠ none

/-- The expiry of the timer of a record: the timer is detached, and `mp2_timer_callback` marks the
tasks of its pid. -/
def Scheduler.fire (s : Scheduler) (a : Addr) : Scheduler :=
  (s.delTimer a).markReady (s.slab a).timer.data

/-- The step of the machine. -/
def next (platform : Platform) (locks : Locks) (m : Machine ι) : Label ι → Option (Machine ι)
  | .thread i =>
    (threadStep platform locks m.jiffies (m.threads i) m.sched).map fun later ↦
      { m with sched := later.2, threads := Function.update m.threads i later.1 }
  | .dispatcher =>
    (dispatcherStep locks m.dispatcher m.sched).map fun later ↦
      { m with sched := later.2, dispatcher := later.1 }
  | .fire a =>
    match (m.sched.slab a).timer.expires with
    | none => none
    | some expires =>
      if platform.timeAfterEq m.jiffies expires then
        some { m with sched := m.sched.fire a, callbacks := m.callbacks + 1 }
      else none
  | .callbackWake =>
    if m.callbacks = 0 then none
    else some { m with sched := m.sched.wakeDispaching, callbacks := m.callbacks - 1 }
  | .tick => some { m with jiffies := m.jiffies + 1 }

/-- What a step of the machine can do. -/
inductive MachineStep (platform : Platform) (locks : Locks) (m : Machine ι) :
    Label ι → Machine ι → Prop
  | thread {i : ι} {pc : Pc} {s : Scheduler}
    (hthread : ThreadStep platform locks m.jiffies m.sched (m.threads i) pc s) :
    MachineStep platform locks m (.thread i)
      { m with sched := s, threads := Function.update m.threads i pc }
  | dispatcher {pc : DispatcherPc} {s : Scheduler}
    (hdispatcher : DispatcherStep m.sched m.dispatcher pc s) :
    MachineStep platform locks m .dispatcher { m with sched := s, dispatcher := pc }
  | fire {a : Addr} (hpending : m.sched.pending a) :
    MachineStep platform locks m (.fire a)
      { m with sched := m.sched.fire a, callbacks := m.callbacks + 1 }
  | callbackWake (hcallbacks : m.callbacks ≠ 0) :
    MachineStep platform locks m .callbackWake
      { m with sched := m.sched.wakeDispaching, callbacks := m.callbacks - 1 }
  | tick : MachineStep platform locks m .tick { m with jiffies := m.jiffies + 1 }

/-- A step of the machine does one of these. -/
theorem next_spec {platform : Platform} {locks : Locks} {m later : Machine ι} {label : Label ι}
    (hnext : next platform locks m label = some later) :
    MachineStep platform locks m label later := by
  cases label with
  | thread i =>
    obtain ⟨⟨pc, s⟩, hstep, rfl⟩ := Option.map_eq_some_iff.mp hnext
    exact .thread (threadStep_spec hstep)
  | dispatcher =>
    obtain ⟨⟨pc, s⟩, hstep, rfl⟩ := Option.map_eq_some_iff.mp hnext
    exact .dispatcher (dispatcherStep_spec hstep)
  | fire a =>
    simp only [next] at hnext
    split at hnext
    next => cases hnext
    next expires hexpires =>
      split_ifs at hnext
      cases hnext
      refine .fire ?_
      rw [Scheduler.pending, hexpires]
      exact Option.some_ne_none expires
  | callbackWake =>
    simp only [next] at hnext
    split_ifs at hnext with hcallbacks
    cases hnext
    exact .callbackWake hcallbacks
  | tick =>
    cases hnext
    exact .tick

/-! ### A thread alone -/

/-- Runs a number of steps of one thread with nothing in between. -/
def threadRun (platform : Platform) (locks : Locks) (now : UInt64) :
    ℕ → Pc → Scheduler → Option (Pc × Scheduler)
  | 0, pc, s => some (pc, s)
  | n + 1, pc, s =>
    (threadStep platform locks now pc s).bind fun later ↦
      threadRun platform locks now n later.1 later.2

/-- The steps of one thread are a run of the machine. -/
theorem run_replicate_thread {platform : Platform} {locks : Locks} {n : ℕ} {m : Machine ι} {i : ι}
    {pc : Pc} {s : Scheduler}
    (hrun : threadRun platform locks m.jiffies n (m.threads i) m.sched = some (pc, s)) :
    run (next platform locks) m (List.replicate n (.thread i)) =
      some { m with sched := s, threads := Function.update m.threads i pc } := by
  induction n generalizing m with
  | zero =>
    cases hrun
    rw [Function.update_eq_self]
    rfl
  | succ n ih =>
    obtain ⟨⟨middle, t⟩, hstep, hrest⟩ := Option.bind_eq_some_iff.mp hrun
    have hnext : next platform locks m (.thread i) =
        some { m with sched := t, threads := Function.update m.threads i middle } := by
      rw [next, hstep]
      rfl
    have hlater := ih (m := { m with sched := t, threads := Function.update m.threads i middle })
      (by simp only [Function.update_self]; exact hrest)
    rw [List.replicate_succ, run, hnext, Option.bind_some, hlater, Function.update_idem]

section Alone

variable {platform : Platform} {now : UInt64} {s : Scheduler}

/-- A registration alone computes `Task_register`. Assumes: `tl_lock` free. -/
theorem threadRun_register (htl : s.tlLock = false) (q : Request) :
    ∃ n pc, pc.outcome = some ((Call.register q).perform platform now s).outcome ∧
      threadRun platform mutexes now n (.start (.register q)) s =
        some (pc, ((Call.register q).perform platform now s).state) := by
  have hwait : mutexes.wait s.tlLock = false := by rw [htl]; rfl
  have hadmits : s.unlockTl.admits q.period q.procTime = s.admits q.period q.procTime := rfl
  simp only [Call.perform]
  rcases taskRegister_cases q.pid q.period q.procTime q.found s with
    ⟨hpid, hresult⟩ | ⟨hpid, hperiod, hresult⟩ | ⟨hpid, hperiod, hroom, hresult⟩ |
      ⟨hpid, hperiod, hroom, hresult⟩
  · refine ⟨1, .returned (-1), by rw [hresult]; rfl, ?_⟩
    simp only [threadRun, threadStep, hwait, hpid, hresult]
    rfl
  · refine ⟨2, .faulted .divideError, by rw [hresult]; rfl, ?_⟩
    rw [hresult]
    simp only [threadRun, threadStep, hwait, hpid, Bool.false_eq_true, if_false, Option.bind_some,
      if_pos hperiod]
  · refine ⟨2, .returned (-1), by rw [hresult]; rfl, ?_⟩
    simp only [threadRun, threadStep, hwait, hpid, hresult, Bool.false_eq_true, if_false,
      Option.bind_some, if_neg hperiod, hadmits, hroom]
  · refine ⟨5, .returned 0, by rw [hresult]; rfl, ?_⟩
    have hinsert : mutexes.wait (s.unlockTl.storeUtil (s.unlockTl.totalUtil + q.share)).tlLock =
        false := rfl
    simp only [threadRun, threadStep, hwait, hpid, hresult, Bool.false_eq_true, if_false,
      Option.bind_some, if_neg hperiod, hadmits, hroom, if_true, hinsert]
    rfl

/-- A yield alone computes `Task_yeild`. Assumes: both locks free. -/
theorem threadRun_yeild (htl : s.tlLock = false) (hct : s.ctLock = false) (pid : UInt32) :
    ∃ n pc, pc.outcome = some ((Call.yeild pid).perform platform now s).outcome ∧
      threadRun platform mutexes now n (.start (.yeild pid)) s =
        some (pc, ((Call.yeild pid).perform platform now s).state) := by
  have hwait : mutexes.wait s.tlLock = false := by rw [htl]; rfl
  have hreenter : mutexes.wait s.unlockTl.tlLock = false := rfl
  simp only [Call.perform]
  rcases taskYeild_cases platform pid now s with
    ⟨hnone, hresult⟩ |
      ⟨t, hfound, ⟨hmissed, hresult⟩ | ⟨hmade, hnull, hresult⟩ | ⟨hmade, hlinux, hresult⟩⟩
  · refine ⟨1, .returned (-1), by rw [hresult]; rfl, ?_⟩
    simp only [threadRun, threadStep, hwait, hnone, hresult]
    rfl
  · refine ⟨2, .returned (-1), by rw [hresult]; rfl, ?_⟩
    have hmissed' : (s.unlockTl.slab t).missesDdl platform now = true := hmissed
    simp only [threadRun, threadStep, hwait, hfound, hresult, Bool.false_eq_true, if_false,
      Option.bind_some, hreenter, hmissed', if_true]
    rfl
  · refine ⟨5, .faulted .nullTask, by rw [hresult]; rfl, ?_⟩
    have hmade' : (s.unlockTl.slab t).missesDdl platform now = false := hmade
    have hslept : (((s.unlockTl.advanceDdl platform now t).lockTl.modTimer platform t).setState t
        .sleeping) = (s.putToSleep platform now t).lockTl := rfl
    have hnull' : ((s.putToSleep platform now t).lockTl.slab t).linuxTask = none := by
      rw [lockTl_slab, (sameTasks_putToSleep s platform now t).linuxTask]
      exact hnull
    simp only [threadRun, threadStep, hwait, hfound, hresult, Bool.false_eq_true, if_false,
      Option.bind_some, hreenter, hmade', hslept, if_pos hnull']
  · refine ⟨7, .yeildDone t, by rw [hresult]; rfl, ?_⟩
    have hmade' : (s.unlockTl.slab t).missesDdl platform now = false := hmade
    have hslept : (((s.unlockTl.advanceDdl platform now t).lockTl.modTimer platform t).setState t
        .sleeping) = (s.putToSleep platform now t).lockTl := rfl
    have hlinux' : ((s.putToSleep platform now t).lockTl.slab t).linuxTask ≠ none := by
      rw [lockTl_slab, (sameTasks_putToSleep s platform now t).linuxTask]
      exact hlinux
    have hclear : mutexes.wait (s.putToSleep platform now t).lockTl.ctLock = false := by
      have hfree : (s.putToSleep platform now t).lockTl.ctLock = s.ctLock := rfl
      rw [hfree, hct]
      rfl
    simp only [threadRun, threadStep, hwait, hfound, hresult, Bool.false_eq_true, if_false,
      Option.bind_some, hreenter, hmade', hslept, if_neg hlinux', hclear]
    rfl

/-- A deregistration alone computes `Task_deregister`. Assumes: both locks free. -/
theorem threadRun_deregister (htl : s.tlLock = false) (hct : s.ctLock = false) (pid : UInt32) :
    ∃ n pc, pc.outcome = some ((Call.deregister pid).perform platform now s).outcome ∧
      threadRun platform mutexes now n (.start (.deregister pid)) s =
        some (pc, ((Call.deregister pid).perform platform now s).state) := by
  have hwait : mutexes.wait s.tlLock = false := by rw [htl]; rfl
  have hreenter : mutexes.wait s.unlockTl.tlLock = false := rfl
  have hctWait : mutexes.wait s.lockTl.ctLock = false := by rw [lockTl_ctLock, hct]; rfl
  have hrelock : s.unlockTl.lockTl = s.lockTl := rfl
  simp only [Call.perform]
  rcases taskDeregister_cases pid s with ⟨hnone, hresult⟩ | ⟨t, hfound, hremove⟩
  · refine ⟨1, .returned (-1), by rw [hresult]; rfl, ?_⟩
    simp only [threadRun, threadStep, hwait, hnone, hresult]
    rfl
  · -- the last statements run from the state that the check for the current task leaves
    have hunlink : ∀ n, threadRun platform mutexes now (n + 1) (.deregUnlink t)
        (s.lockTl.releaseCt t) = if (s.slab t).period = 0 then
          threadRun platform mutexes now n (.faulted .divideError) (s.lockTl.releaseCt t)
        else threadRun platform mutexes now n (.returned 0)
          ((s.lockTl.releaseCt t).removeTask t).unlockTl := by
      intro n
      simp only [threadRun, threadStep, releaseCt_slab, lockTl_slab]
      split_ifs <;> rfl
    obtain ⟨n, hcheck⟩ : ∃ n, ∀ k,
        threadRun platform mutexes now (n + k) (.start (.deregister pid)) s =
          threadRun platform mutexes now k (.deregUnlink t) (s.lockTl.releaseCt t) := by
      by_cases hcur : s.ct = some t
      · refine ⟨4, fun k ↦ ?_⟩
        have hcur' : s.unlockTl.ct = some t := hcur
        have hreleased :
            ((s.lockTl.setCt none).unlockCt).wakeDispaching = s.lockTl.releaseCt t := by
          rw [releaseCt, if_pos (show s.lockTl.ct = some t from hcur)]
          rfl
        rw [Nat.add_comm]
        simp only [threadRun, threadStep, hwait, hfound, Bool.false_eq_true, if_false,
          Option.bind_some, hreenter, if_pos hcur', hrelock, hctWait, hreleased]
      · refine ⟨2, fun k ↦ ?_⟩
        have hcur' : ¬ s.unlockTl.ct = some t := hcur
        have hkept : s.lockTl.releaseCt t = s.lockTl :=
          if_neg (show ¬ s.lockTl.ct = some t from hcur)
        rw [Nat.add_comm]
        simp only [threadRun, threadStep, hwait, hfound, Bool.false_eq_true, if_false,
          Option.bind_some, hreenter, if_neg hcur', hrelock, hkept]
    rcases hremove with ⟨hperiod, hresult⟩ | ⟨hperiod, hresult⟩
    · refine ⟨n + 1, .faulted .divideError, by rw [hresult]; rfl, ?_⟩
      rw [hcheck, hunlink, if_pos hperiod, hresult]
      rfl
    · refine ⟨n + 1, .returned 0, by rw [hresult]; rfl, ?_⟩
      rw [hcheck, hunlink, if_neg hperiod, hresult]
      rfl

end Alone

/-- A thread that starts its call with both locks free, and that nothing interrupts, computes the
operation. -/
theorem run_thread_alone (platform : Platform) (m : Machine ι) (i : ι) {call : Call}
    (hcall : m.threads i = .start call) (htl : m.sched.tlLock = false)
    (hct : m.sched.ctLock = false) :
    ∃ n pc, pc.outcome = some (call.perform platform m.jiffies m.sched).outcome ∧
      run (next platform mutexes) m (List.replicate n (.thread i)) =
        some { m with
          sched := (call.perform platform m.jiffies m.sched).state
          threads := Function.update m.threads i pc } := by
  obtain ⟨n, pc, houtcome, hrun⟩ : ∃ n pc,
      pc.outcome = some (call.perform platform m.jiffies m.sched).outcome ∧
        threadRun platform mutexes m.jiffies n (.start call) m.sched =
          some (pc, (call.perform platform m.jiffies m.sched).state) := by
    cases call with
    | register q => exact threadRun_register htl q
    | yeild pid => exact threadRun_yeild htl hct pid
    | deregister pid => exact threadRun_deregister htl hct pid
  rw [← hcall] at hrun
  exact ⟨n, pc, houtcome, run_replicate_thread hrun⟩

end KernelModules.RateMonotonic
