import KernelModules.FaultProfiler.TaskSampling
import KernelModules.Foundation.TransitionSystem

/-!
# Interleaved steps of the profiler

Threads `ι`, each with one call of `Task_register` or `Task_deregister`, and the single worker that
runs `wq_handler`, in steps that are taken in any order. A step of a thread or of the handler is
what happens between two points where the others can be seen: the duplicate scan without the lock,
the allocation, the waits for `lock`, each change of the list or the work under it,
`flush_workqueue`.

The work is pending behind its timer until the timer expires (`Label.timer`), and then in the queue.
The worker takes it from there and runs the handler. `cancel_delayed_work` takes it away in both
places and waits for no run; `flush_workqueue` waits for what it finds in the queue or running, and
neither for the timer nor for a later run. A traversal that meets a pid without a process returns
with `lock` held. The rest of the kernel may change the processes and the time at any point
(`Label.environment`).
-/

set_option autoImplicit false
set_option relaxedAutoImplicit false

namespace KernelModules.FaultProfiler

open Foundation

/-! ### States and labels -/

/-- A call of a thread. -/
inductive Call
  | register (pid : Int32)
  | deregister (pid : Int32)
  deriving DecidableEq

/-- Where a thread is in its call. From the step that takes the lock to the one that drops it, the
thread holds it. -/
inductive Pc
  | start (call : Call)
  | registerAlloc (pid : Int32)
  | registerLock (task : Mp3TaskStruct)
  | registerQueue (task : Mp3TaskStruct)
  | registerAdd (task : Mp3TaskStruct)
  | deregisterSearch (pid : Int32)
  | deregisterCancel
  | deregisterFlush
  | deregisterWait (run : ℕ)
  | unlock (ret : ℤ)
  | done (ret : ℤ)
  deriving DecidableEq

/-- Where the worker is: without work, or in a run of `wq_handler`. -/
inductive HandlerPc
  | idle
  | atLock
  | traversed
  | requeue
  deriving DecidableEq

/-- Who holds `lock`. -/
inductive Owner (ι : Type*)
  | thread (i : ι)
  | handler
  deriving DecidableEq

/-- A state of the machine. Work that is pending is in the queue once its timer has expired, and the
runs of the handler are counted as they start. -/
structure Machine (ι : Type*) where
  mp3 : Mp3
  queued : Bool
  owner : Option (Owner ι)
  handler : HandlerPc
  runs : ℕ
  threads : ι → Pc

/-- A step of a thread, of the timer of the work, of the worker, or of the rest of the kernel. -/
inductive Label (ι : Type*)
  | thread (i : ι)
  | timer
  | worker
  | environment (processes : Int32 → Option Process) (jiffies : UInt64)

/-- The points at which a thread holds `lock`. -/
def Pc.Holds : Pc → Prop
  | .registerQueue _ => True
  | .registerAdd _ => True
  | .deregisterSearch _ => True
  | .deregisterCancel => True
  | .deregisterFlush => True
  | .deregisterWait _ => True
  | .unlock _ => True
  | _ => False

/-- The result of a call that has ended. -/
def Pc.result : Pc → Option ℤ
  | .done ret => some ret
  | _ => none

/-- The call of a thread has begun and has not returned. -/
def Pc.InProgress : Pc → Prop
  | .start _ => False
  | .done _ => False
  | _ => True

instance : DecidablePred Pc.InProgress
  | .start _ => isFalse not_false
  | .done _ => isFalse not_false
  | .registerAlloc _ => isTrue trivial
  | .registerLock _ => isTrue trivial
  | .registerQueue _ => isTrue trivial
  | .registerAdd _ => isTrue trivial
  | .deregisterSearch _ => isTrue trivial
  | .deregisterCancel => isTrue trivial
  | .deregisterFlush => isTrue trivial
  | .deregisterWait _ => isTrue trivial
  | .unlock _ => isTrue trivial

namespace Machine

variable {ι : Type*}

/-- The start: an empty list, no work pending, and no call begun. -/
def start (kernel : Kernel) (calls : ι → Call) : Machine ι where
  mp3 := ⟨[], false, kernel⟩
  queued := false
  owner := none
  handler := .idle
  runs := 0
  threads := fun i ↦ .start (calls i)

/-- What a flush waits for has come to its end: the runs up to a number. -/
def Flushed (m : Machine ι) (run : ℕ) : Prop := run < m.runs ∨ run = m.runs ∧ m.handler = .idle

instance (m : Machine ι) (run : ℕ) : Decidable (m.Flushed run) :=
  inferInstanceAs (Decidable (run < m.runs ∨ run = m.runs ∧ m.handler = .idle))

variable [DecidableEq ι]

/-- A thread goes on. -/
@[simps] def goto (m : Machine ι) (i : ι) (pc : Pc) : Machine ι :=
  { m with threads := Function.update m.threads i pc }

/-- A thread takes `lock` and goes on. -/
@[simps] def take (m : Machine ι) (i : ι) (pc : Pc) : Machine ι :=
  { m with owner := some (.thread i), threads := Function.update m.threads i pc }

/-- A thread changes the state of the module and goes on. -/
@[simps] def change (m : Machine ι) (i : ι) (pc : Pc) (s : Mp3) : Machine ι :=
  { m with mp3 := s, threads := Function.update m.threads i pc }

/-- A thread cancels the work, behind its timer or in the queue, and goes on. -/
@[simps] def cancel (m : Machine ι) (i : ι) (pc : Pc) : Machine ι :=
  { m with
    mp3 := m.mp3.cancelDelayedWork
    queued := false
    threads := Function.update m.threads i pc }

/-- A thread drops `lock` and goes on. -/
@[simps] def drop (m : Machine ι) (i : ι) (pc : Pc) : Machine ι :=
  { m with owner := none, threads := Function.update m.threads i pc }

end Machine

/-- The kernel at the start, with the live processes of a list. -/
def kernelOf (live : List Int32) : Kernel where
  processes := fun pid ↦ if pid ∈ live then some ⟨0, 0, 0, 0⟩ else none
  jiffies := 0
  profiler := taskListInit
  pushed := []
  written := []

/-- Two threads: the first registers a pid and the second deregisters it. -/
def registerAndDeregister (pid : Int32) : Bool → Call
  | false => .register pid
  | true => .deregister pid

/-- The number of steps of a thread. -/
def Label.steps {ι : Type*} (i : ι) (count : ℕ) : List (Label ι) := List.replicate count (.thread i)

/-! ### Steps -/

variable {ι : Type*} [DecidableEq ι]

/-- The step of a thread. -/
def threadStep (m : Machine ι) (i : ι) : Option (Machine ι) :=
  match m.threads i with
  | .start (.register pid) =>
    some (m.goto i (if m.mp3.listed pid then .done (-1) else .registerAlloc pid))
  | .registerAlloc pid => some (m.goto i (.registerLock (m.mp3.newTask pid)))
  | .registerLock task => if m.owner = none then some (m.take i (.registerQueue task)) else none
  | .registerQueue task => some (m.change i (.registerAdd task) m.mp3.queueIfEmpty)
  | .registerAdd task => some (m.change i (.unlock 0) (m.mp3.listAddTail task))
  | .start (.deregister pid) =>
    if m.owner = none then some (m.take i (.deregisterSearch pid)) else none
  | .deregisterSearch pid =>
    if m.mp3.listed pid then
      some (m.change i (if (m.mp3.listDel pid).tl.isEmpty then .deregisterCancel else .unlock 0)
        (m.mp3.listDel pid))
    else some (m.goto i (.unlock (-1)))
  | .deregisterCancel => some (m.cancel i .deregisterFlush)
  | .deregisterFlush =>
    some (m.goto i (.deregisterWait (m.runs + if m.queued then 1 else 0)))
  | .deregisterWait run => if m.Flushed run then some (m.goto i (.unlock 0)) else none
  | .unlock ret => some (m.drop i (.done ret))
  | .done _ => none

/-- The timer of the work expires and puts it into the queue. -/
def timerStep (m : Machine ι) : Option (Machine ι) :=
  if m.mp3.pending = true ∧ m.queued = false then some { m with queued := true } else none

/-- The step of the worker. -/
def workerStep (m : Machine ι) : Option (Machine ι) :=
  match m.handler with
  | .idle =>
    if m.queued then
      some { m with
        mp3 := m.mp3.cancelDelayedWork
        queued := false
        handler := .atLock
        runs := m.runs + 1 }
    else none
  | .atLock =>
    if m.owner = none then
      some { m with
        mp3 := m.mp3.sample
        owner := some .handler
        handler := if (traverse m.mp3.tl m.mp3.kernel).aborted then .idle else .traversed }
    else none
  | .traversed => some { m with owner := none, handler := .requeue }
  | .requeue => some { m with mp3 := m.mp3.queueDelayedWork, handler := .idle }

/-- The rest of the kernel changes the processes and the time. -/
def Machine.environment (m : Machine ι) (processes : Int32 → Option Process) (jiffies : UInt64) :
    Machine ι :=
  { m with mp3 := { m.mp3 with
      kernel := { m.mp3.kernel with processes := processes, jiffies := jiffies } } }

/-- The step of the machine. -/
def next (m : Machine ι) : Label ι → Option (Machine ι)
  | .thread i => threadStep m i
  | .timer => timerStep m
  | .worker => workerStep m
  | .environment processes jiffies => some (m.environment processes jiffies)

/-! ### What a step can do -/

/-- What a step of a thread can do. -/
inductive ThreadStep (m : Machine ι) (i : ι) : Pc → Machine ι → Prop
  | duplicate {pid : Int32} (hpid : m.mp3.listed pid = true) :
    ThreadStep m i (.start (.register pid)) (m.goto i (.done (-1)))
  | unlisted {pid : Int32} (hpid : m.mp3.listed pid = false) :
    ThreadStep m i (.start (.register pid)) (m.goto i (.registerAlloc pid))
  | alloc {pid : Int32} :
    ThreadStep m i (.registerAlloc pid) (m.goto i (.registerLock (m.mp3.newTask pid)))
  | lockRegister {task : Mp3TaskStruct} (howner : m.owner = none) :
    ThreadStep m i (.registerLock task) (m.take i (.registerQueue task))
  | queue {task : Mp3TaskStruct} :
    ThreadStep m i (.registerQueue task) (m.change i (.registerAdd task) m.mp3.queueIfEmpty)
  | add {task : Mp3TaskStruct} :
    ThreadStep m i (.registerAdd task) (m.change i (.unlock 0) (m.mp3.listAddTail task))
  | lockDeregister {pid : Int32} (howner : m.owner = none) :
    ThreadStep m i (.start (.deregister pid)) (m.take i (.deregisterSearch pid))
  | notFound {pid : Int32} (hpid : m.mp3.listed pid = false) :
    ThreadStep m i (.deregisterSearch pid) (m.goto i (.unlock (-1)))
  | removeLast {pid : Int32} (hpid : m.mp3.listed pid = true)
      (hlast : (m.mp3.listDel pid).tl = []) :
    ThreadStep m i (.deregisterSearch pid) (m.change i .deregisterCancel (m.mp3.listDel pid))
  | remove {pid : Int32} (hpid : m.mp3.listed pid = true) (hrest : (m.mp3.listDel pid).tl ≠ []) :
    ThreadStep m i (.deregisterSearch pid) (m.change i (.unlock 0) (m.mp3.listDel pid))
  | cancel : ThreadStep m i .deregisterCancel (m.cancel i .deregisterFlush)
  | flush : ThreadStep m i .deregisterFlush
    (m.goto i (.deregisterWait (m.runs + if m.queued then 1 else 0)))
  | flushed {run : ℕ} (hended : m.Flushed run) :
    ThreadStep m i (.deregisterWait run) (m.goto i (.unlock 0))
  | unlock {ret : ℤ} : ThreadStep m i (.unlock ret) (m.drop i (.done ret))

/-- A step of a thread does one of these. -/
theorem threadStep_spec {m later : Machine ι} {i : ι} (hstep : threadStep m i = some later) :
    ThreadStep m i (m.threads i) later := by
  unfold threadStep at hstep
  cases hpc : m.threads i with
  | start call =>
    rw [hpc] at hstep
    cases call with
    | register pid =>
      rw [← Option.some.inj hstep]
      split_ifs with hpid
      · exact .duplicate hpid
      · exact .unlisted (Bool.eq_false_of_not_eq_true hpid)
    | deregister pid =>
      dsimp only at hstep
      split_ifs at hstep with howner
      rw [← Option.some.inj hstep]
      exact .lockDeregister howner
  | registerAlloc pid =>
    rw [hpc] at hstep
    rw [← Option.some.inj hstep]
    exact .alloc
  | registerLock task =>
    rw [hpc] at hstep
    dsimp only at hstep
    split_ifs at hstep with howner
    rw [← Option.some.inj hstep]
    exact .lockRegister howner
  | registerQueue task =>
    rw [hpc] at hstep
    rw [← Option.some.inj hstep]
    exact .queue
  | registerAdd task =>
    rw [hpc] at hstep
    rw [← Option.some.inj hstep]
    exact .add
  | deregisterSearch pid =>
    rw [hpc] at hstep
    dsimp only at hstep
    split_ifs at hstep with hpid hlast
    · rw [← Option.some.inj hstep]
      exact .removeLast hpid (List.isEmpty_iff.mp hlast)
    · rw [← Option.some.inj hstep]
      exact .remove hpid fun hnil ↦ hlast (List.isEmpty_iff.mpr hnil)
    · rw [← Option.some.inj hstep]
      exact .notFound (Bool.eq_false_of_not_eq_true hpid)
  | deregisterCancel =>
    rw [hpc] at hstep
    rw [← Option.some.inj hstep]
    exact .cancel
  | deregisterFlush =>
    rw [hpc] at hstep
    rw [← Option.some.inj hstep]
    exact .flush
  | deregisterWait run =>
    rw [hpc] at hstep
    dsimp only at hstep
    split_ifs at hstep with hended
    rw [← Option.some.inj hstep]
    exact .flushed hended
  | unlock ret =>
    rw [hpc] at hstep
    rw [← Option.some.inj hstep]
    exact .unlock
  | done ret =>
    rw [hpc] at hstep
    cases hstep

/-- What a step of the worker can do. -/
inductive WorkerStep (m : Machine ι) : HandlerPc → Machine ι → Prop
  | begin (hqueued : m.queued = true) : WorkerStep m .idle
    { m with
      mp3 := m.mp3.cancelDelayedWork
      queued := false
      handler := .atLock
      runs := m.runs + 1 }
  | traverse (howner : m.owner = none)
    (hlive : (FaultProfiler.traverse m.mp3.tl m.mp3.kernel).aborted = false) :
    WorkerStep m .atLock
      { m with mp3 := m.mp3.sample, owner := some .handler, handler := .traversed }
  | abort (howner : m.owner = none)
    (hdead : (FaultProfiler.traverse m.mp3.tl m.mp3.kernel).aborted = true) :
    WorkerStep m .atLock { m with mp3 := m.mp3.sample, owner := some .handler, handler := .idle }
  | unlock : WorkerStep m .traversed { m with owner := none, handler := .requeue }
  | requeue : WorkerStep m .requeue { m with mp3 := m.mp3.queueDelayedWork, handler := .idle }

omit [DecidableEq ι] in
/-- A step of the worker does one of these. -/
theorem workerStep_spec {m later : Machine ι} (hstep : workerStep m = some later) :
    WorkerStep m m.handler later := by
  unfold workerStep at hstep
  cases hpc : m.handler with
  | idle =>
    rw [hpc] at hstep
    dsimp only at hstep
    split_ifs at hstep with hqueued
    rw [← Option.some.inj hstep]
    exact .begin hqueued
  | atLock =>
    rw [hpc] at hstep
    dsimp only at hstep
    split_ifs at hstep with howner hdead
    · rw [← Option.some.inj hstep]
      exact .abort howner hdead
    · rw [← Option.some.inj hstep]
      exact .traverse howner (Bool.eq_false_of_not_eq_true hdead)
  | traversed =>
    rw [hpc] at hstep
    rw [← Option.some.inj hstep]
    exact .unlock
  | requeue =>
    rw [hpc] at hstep
    rw [← Option.some.inj hstep]
    exact .requeue

omit [DecidableEq ι] in
/-- A step of the timer puts pending work into the queue. -/
theorem timerStep_eq_some {m later : Machine ι} (hstep : timerStep m = some later) :
    m.mp3.pending = true ∧ m.queued = false ∧ later = { m with queued := true } := by
  obtain ⟨⟨hpending, hqueued⟩, hlater⟩ := Option.ite_none_right_eq_some.mp hstep
  exact ⟨hpending, hqueued, (Option.some.inj hlater).symm⟩

/-! ### Who holds the lock -/

/-- The threads that are between taking and dropping `lock` hold it, and so does the handler after
its traversal. -/
structure LockHeld (m : Machine ι) : Prop where
  thread : ∀ i, (m.threads i).Holds ↔ m.owner = some (.thread i)
  handler : m.handler = .traversed → m.owner = some .handler

namespace LockHeld

variable {m later : Machine ι} {i : ι}

/-- A thread that goes on without taking or dropping the lock. -/
theorem change (hm : LockHeld m) {before pc : Pc} (hi : m.threads i = before)
    (hpc : pc.Holds ↔ before.Holds) (s : Mp3) : LockHeld (m.change i pc s) where
  thread := by
    intro j
    by_cases hj : j = i
    · rw [hj, Machine.change_threads, Function.update_self, hpc, ← hi]
      exact hm.thread i
    · rw [Machine.change_threads, Function.update_of_ne hj]
      exact hm.thread j
  handler := hm.handler

/-- A thread that takes the lock. -/
theorem take (hm : LockHeld m) (howner : m.owner = none) {pc : Pc} (hpc : pc.Holds) :
    LockHeld (m.take i pc) where
  thread := by
    intro j
    by_cases hj : j = i
    · rw [hj, Machine.take_threads, Function.update_self, Machine.take_owner]
      exact iff_of_true hpc rfl
    · rw [Machine.take_threads, Function.update_of_ne hj, hm.thread j, howner, Machine.take_owner]
      refine iff_of_false (by simp) fun heq ↦ hj ?_
      rw [Option.some.injEq, Owner.thread.injEq] at heq
      exact heq.symm
  handler := by
    intro htraversed
    have hhandler := hm.handler htraversed
    rw [howner] at hhandler
    cases hhandler

/-- A thread that drops the lock. -/
theorem drop (hm : LockHeld m) {before pc : Pc} (hi : m.threads i = before) (hbefore : before.Holds)
    (hpc : ¬ pc.Holds) : LockHeld (m.drop i pc) where
  thread := by
    have howner := (hm.thread i).mp (hi ▸ hbefore)
    intro j
    by_cases hj : j = i
    · rw [hj, Machine.drop_threads, Function.update_self, Machine.drop_owner]
      exact iff_of_false hpc (by simp)
    · rw [Machine.drop_threads, Function.update_of_ne hj, hm.thread j, howner, Machine.drop_owner]
      refine iff_of_false (fun heq ↦ hj ?_) (by simp)
      rw [Option.some.injEq, Owner.thread.injEq] at heq
      exact heq.symm
  handler := by
    intro htraversed
    have hhandler := hm.handler htraversed
    rw [(hm.thread i).mp (hi ▸ hbefore)] at hhandler
    cases hhandler

/-- A step of a thread keeps the lock with its holder. -/
theorem threadStep (hm : LockHeld m) {pc : Pc} (hi : m.threads i = pc)
    (hstep : ThreadStep m i pc later) : LockHeld later := by
  cases hstep with
  | duplicate hpid => exact hm.change hi (by exact Iff.rfl) m.mp3
  | unlisted hpid => exact hm.change hi (by exact Iff.rfl) m.mp3
  | alloc => exact hm.change hi (by exact Iff.rfl) m.mp3
  | lockRegister howner => exact hm.take howner trivial
  | queue => exact hm.change hi (by exact Iff.rfl) _
  | add => exact hm.change hi (by exact Iff.rfl) _
  | lockDeregister howner => exact hm.take howner trivial
  | notFound hpid => exact hm.change hi (by exact Iff.rfl) m.mp3
  | removeLast hpid hlast => exact hm.change hi (by exact Iff.rfl) _
  | remove hpid hrest => exact hm.change hi (by exact Iff.rfl) _
  | cancel =>
    have hgoto : LockHeld (m.change i .deregisterFlush m.mp3) :=
      hm.change hi (by exact Iff.rfl) m.mp3
    exact ⟨hgoto.thread, hgoto.handler⟩
  | flush => exact hm.change hi (by exact Iff.rfl) m.mp3
  | flushed hended => exact hm.change hi (by exact Iff.rfl) m.mp3
  | unlock => exact hm.drop hi trivial not_false

omit [DecidableEq ι] in
/-- A step of the worker keeps the lock with its holder. -/
theorem workerStep (hm : LockHeld m) {pc : HandlerPc} (hpc : m.handler = pc)
    (hstep : WorkerStep m pc later) : LockHeld later := by
  cases hstep with
  | begin hqueued => exact ⟨hm.thread, fun htraversed ↦ by cases htraversed⟩
  | traverse howner hlive =>
    refine ⟨fun j ↦ ?_, fun _ ↦ rfl⟩
    rw [hm.thread j, howner]
    simp
  | abort howner hdead =>
    refine ⟨fun j ↦ ?_, fun htraversed ↦ by cases htraversed⟩
    rw [hm.thread j, howner]
    simp
  | unlock =>
    refine ⟨fun j ↦ ?_, fun htraversed ↦ by cases htraversed⟩
    rw [hm.thread j, hm.handler hpc]
    simp
  | requeue => exact ⟨hm.thread, fun htraversed ↦ by cases htraversed⟩

/-- Every step keeps the lock with its holder. -/
theorem next (hm : LockHeld m) {label : Label ι} (hnext : next m label = some later) :
    LockHeld later := by
  cases label with
  | thread i => exact hm.threadStep rfl (threadStep_spec hnext)
  | timer =>
    obtain ⟨-, -, rfl⟩ := timerStep_eq_some hnext
    exact ⟨hm.thread, hm.handler⟩
  | worker => exact hm.workerStep rfl (workerStep_spec hnext)
  | environment processes jiffies =>
    rw [← Option.some.inj hnext]
    exact ⟨hm.thread, hm.handler⟩

omit [DecidableEq ι] in
/-- Nobody holds the lock at the start. -/
theorem start (kernel : Kernel) (calls : ι → Call) : LockHeld (Machine.start kernel calls) where
  thread := fun i ↦ iff_of_false not_false (by simp [Machine.start])
  handler := fun htraversed ↦ by cases htraversed

end LockHeld

end KernelModules.FaultProfiler
