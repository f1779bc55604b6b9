import KernelModules.RateMonotonic.DispatcherWakeups

/-!
# The steps of the unload

The steps of `mp2_exit` beside those of the interleaved machine: a call enters the command file
before its first section, a registration allocates its record before it takes `tl_lock`, and the
dispatching thread tests the stop request at the top of its loop, before it assigns
`TASK_INTERRUPTIBLE`. `kthread_stop` makes the request, wakes the thread and waits until it has left
its loop; `Task_destroy` takes one task in a step; `remove_proc_entry` refuses new calls and waits
for those that have entered.
-/

set_option autoImplicit false
set_option relaxedAutoImplicit false

namespace KernelModules.RateMonotonic

open Foundation Scheduler

/-! ### The machine -/

/-- The next step of `mp2_exit`. -/
inductive ExitPc
  | requestStop
  | wakeStop
  | waitStop
  | mutexDestroyTl
  | mutexDestroyCt
  | destroyLock
  | destroyRemove
  | destroyUnlock
  | cacheDestroy
  | removeStatus
  | waitStatus
  | removeDir
  | returned
  deriving DecidableEq

namespace ExitPc

/-- The dispatching thread has been asked to stop. -/
def stopRequested : ExitPc → Bool
  | .requestStop => false
  | _ => true

/-- `kthread_stop` has returned. -/
def stopped : ExitPc → Bool
  | .requestStop | .wakeStop | .waitStop => false
  | _ => true

/-- `Task_destroy` has entered its section. -/
def destroying : ExitPc → Bool
  | .requestStop | .wakeStop | .waitStop | .mutexDestroyTl | .mutexDestroyCt | .destroyLock => false
  | _ => true

/-- The loop of `Task_destroy` has come to its end. -/
def emptied : ExitPc → Bool
  | .destroyUnlock | .cacheDestroy | .removeStatus | .waitStatus | .removeDir | .returned => true
  | _ => false

/-- The cache has been destroyed. -/
def cacheDestroyed : ExitPc → Bool
  | .removeStatus | .waitStatus | .removeDir | .returned => true
  | _ => false

/-- The command file has been removed. -/
def removed : ExitPc → Bool
  | .waitStatus | .removeDir | .returned => true
  | _ => false

/-- The loop of `Task_destroy` is part of it. -/
theorem destroying_of_emptied {pc : ExitPc} (hemptied : pc.emptied = true) :
    pc.destroying = true := by
  cases pc <;> first | rfl | cases hemptied

/-- The cache is destroyed at the end of `Task_destroy`. -/
theorem destroying_of_cacheDestroyed {pc : ExitPc} (hdestroyed : pc.cacheDestroyed = true) :
    pc.destroying = true := by
  cases pc <;> first | rfl | cases hdestroyed

/-- `Task_destroy` is called after `kthread_stop`. -/
theorem stopped_of_destroying {pc : ExitPc} (hdestroying : pc.destroying = true) :
    pc.stopped = true := by
  cases pc <;> first | rfl | cases hdestroying

end ExitPc

/-- The call has not taken its first section. -/
def Pc.unstarted : Pc → Bool
  | .start _ => true
  | _ => false

/-- The call is a registration that has been admitted and has not linked its record. -/
def Pc.admitted : Pc → Bool
  | .registerInsert _ => true
  | _ => false

/-- The call is a registration that is about to be admitted: it has tested `total_util` and stores
it. -/
def Pc.admits : Pc → Bool
  | .registerStore _ _ => true
  | _ => false

/-- The next statement of the call clears `ct`. -/
def Pc.clearsCt : Pc → Bool
  | .yeildClear _ | .deregClear _ => true
  | _ => false

/-- The record whose timer the next statement of the call arms. -/
def Pc.arms : Pc → Option Addr
  | .yeildArm t => some t
  | _ => none

/-- The call has returned. -/
def Pc.hasReturned : Pc → Bool
  | .yeildDone _ | .returned _ => true
  | _ => false

/-- The machine while the module is unloaded. The dispatching thread is at the top of its loop
before or after the test of the stop request (`tested`), or has left the loop. The calls that have
entered are those in `inUse`, and the registrations that have their record are marked in
`allocated`. The last two fields say whether the dispatching thread has been woken after it was
stopped, and whether a record has been allocated from the destroyed cache. -/
structure Unload (ι : Type*) where
  machine : Machine ι
  exit : ExitPc
  tested : Bool
  left : Bool
  inUse : Finset ι
  allocated : ι → Bool
  wokenStopped : Bool
  allocDestroyed : Bool

/-- A step of the machine, or of `mp2_exit`. -/
inductive UnloadLabel (ι : Type*)
  | step (label : Label ι)
  | exit

namespace Unload

variable {ι : Type*}

/-- The start: an empty module with any calls to come. -/
def start (slab : Addr → Mp2TaskStruct) (now : UInt64) (calls : ι → Call) : Unload ι where
  machine := Machine.start (mp2Init slab) now calls
  exit := .requestStop
  tested := false
  left := false
  inUse := ∅
  allocated := fun _ ↦ false
  wokenStopped := false
  allocDestroyed := false

/-- `mp2_exit` goes on, with the scheduler that it leaves. -/
@[simps] def goOn (m : Unload ι) (exit : ExitPc) (sched : Scheduler) : Unload ι :=
  { m with machine := { m.machine with sched := sched }, exit := exit }

/-- The next step of `mp2_exit`. The loop of `Task_destroy` takes one task in a step. -/
def exitStep (locks : Locks) (m : Unload ι) : Option (Unload ι) :=
  let s := m.machine.sched
  match m.exit with
  | .requestStop => some (m.goOn .wakeStop s)
  | .wakeStop => some (m.goOn .waitStop s.wakeDispaching)
  | .waitStop =>
    if m.left = true ∨ m.machine.dispatcher = .dead then some (m.goOn .mutexDestroyTl s) else none
  | .mutexDestroyTl => some (m.goOn .mutexDestroyCt s)
  | .mutexDestroyCt => some (m.goOn .destroyLock s)
  | .destroyLock => if locks.wait s.tlLock then none else some (m.goOn .destroyRemove s.lockTl)
  | .destroyRemove =>
    match s.tl with
    | [] => some (m.goOn .destroyUnlock s)
    | itr :: _ => some (m.goOn .destroyRemove ((s.delTimer itr).listDel itr))
  | .destroyUnlock => some (m.goOn .cacheDestroy s.unlockTl)
  | .cacheDestroy => some (m.goOn .removeStatus s)
  | .removeStatus => some (m.goOn .waitStatus s)
  | .waitStatus => if m.inUse.card = 0 then some (m.goOn .removeDir s) else none
  | .removeDir => some (m.goOn .returned s)
  | .returned => none

variable [DecidableEq ι]

/-- The next step of a call: it enters, allocates its record, or takes the step of the machine. -/
def threadStep (platform : Platform) (locks : Locks) (m : Unload ι) (i : ι) : Option (Unload ι) :=
  if (m.machine.threads i).unstarted = true ∧ i ∉ m.inUse then
    if m.exit.removed then none else some { m with inUse := insert i m.inUse }
  else if (m.machine.threads i).admitted = true ∧ m.allocated i = false then
    some { m with
      allocated := Function.update m.allocated i true
      allocDestroyed := m.allocDestroyed || m.exit.cacheDestroyed }
  else
    (RateMonotonic.next platform locks m.machine (.thread i)).map fun later ↦
      { m with
        machine := later
        inUse := if (later.threads i).hasReturned then m.inUse.erase i else m.inUse
        wokenStopped :=
          m.wokenStopped || ((m.machine.threads i).waking && m.exit.stopped) }

/-- The next step of the dispatching thread, with the test of `kthread_should_stop`. -/
def dispatcherStep (platform : Platform) (locks : Locks) (m : Unload ι) : Option (Unload ι) :=
  if m.left then none
  else if m.machine.dispatcher = .top ∧ m.tested = false then
    some (if m.exit.stopRequested then { m with left := true } else { m with tested := true })
  else
    (RateMonotonic.next platform locks m.machine .dispatcher).map fun later ↦
      { m with machine := later, tested := false }

/-- The step of the module. Only timers of allocated records expire. -/
def next (platform : Platform) (locks : Locks) (m : Unload ι) : UnloadLabel ι → Option (Unload ι)
  | .step (.thread i) => m.threadStep platform locks i
  | .step .dispatcher => m.dispatcherStep platform locks
  | .step (.fire a) =>
    if a < m.machine.sched.fresh then
      (RateMonotonic.next platform locks m.machine (.fire a)).map fun later ↦
        { m with machine := later }
    else none
  | .step .callbackWake =>
    (RateMonotonic.next platform locks m.machine .callbackWake).map fun later ↦
      { m with machine := later, wokenStopped := m.wokenStopped || m.exit.stopped }
  | .step .tick =>
    (RateMonotonic.next platform locks m.machine .tick).map fun later ↦ { m with machine := later }
  | .exit => m.exitStep locks

end Unload

end KernelModules.RateMonotonic
