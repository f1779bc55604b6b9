import KernelModules.FaultProfiler.ProfilerBuffer
import Mathlib

/-!
# The profiled tasks

The task list of `MP3/profiler.c`, `get_cpu_use` of `MP3/mp3_given.h`, and the functions that work
on them: `Task_register`, `Task_deregister` and `wq_handler`, with the parts they are made of. The
list is the list of its records; `pending` says whether the sampling work is queued.

Beside the buffer stand the samples that were pushed (`Kernel.pushed`) and, as each push has left
them in the buffer, their rows (`Kernel.written`); no function reads them.
-/

set_option autoImplicit false
set_option relaxedAutoImplicit false

namespace KernelModules.FaultProfiler

/-! ### Records and processes -/

/-- `struct mp3_task_struct`. The pointer `linux_task` is the pid of the process it points to. -/
structure Mp3TaskStruct where
  linuxTask : Option Int32
  pid : Int32
  lastJiffies : UInt64
  minFlt : UInt64
  majFlt : UInt64
  utime : UInt64
  stime : UInt64
  deriving DecidableEq

/-- The counters of a process that `get_cpu_use` reads. -/
structure Process where
  minFlt : UInt64
  majFlt : UInt64
  utime : UInt64
  stime : UInt64
  deriving DecidableEq

/-- What the functions use beside the list: the live processes by their pid, the time, the buffer,
the samples pushed so far, and the rows that the pushes have left in the buffer. -/
structure Kernel where
  processes : Int32 → Option Process
  jiffies : UInt64
  profiler : Profiler
  pushed : List Sample
  written : List Row

/-- The state of the module. -/
structure Mp3 where
  tl : List Mp3TaskStruct
  pending : Bool
  kernel : Kernel

/-! ### Sampling -/

/-- `get_cpu_use`: the counters of a live process, which start again from 0. -/
def Kernel.getCpuUse (k : Kernel) (pid : Int32) : Option (Process × Kernel) :=
  (k.processes pid).map fun process ↦
    (process, { k with processes := Function.update k.processes pid (some ⟨0, 0, 0, 0⟩) })

/-- `vmem_buf_push_next`. The row at the old `vmem_idx` is read back from the buffer after it. -/
def Kernel.push (k : Kernel) (sample : Sample) : Kernel :=
  let profiler := vmemBufPushNext k.profiler sample
  { k with
    profiler := profiler
    pushed := k.pushed ++ [sample]
    written := k.written ++ [profiler.vmemBuf.rowAt k.profiler.vmemIdx] }

/-- The row that is read back is that of the sample. -/
theorem Kernel.written_push (k : Kernel) (sample : Sample) :
    (k.push sample).written = k.written ++ [sample.row] :=
  congrArg (k.written ++ [·]) (rowAt_vmemBufPushNext_self k.profiler sample)

/-- The sample of a process. -/
def Process.sample (process : Process) (pid : Int32) : Sample where
  pid := pid
  minFlt := process.minFlt
  majFlt := process.majFlt
  util := process.utime + process.stime

/-- The record after a sample at time `now`. -/
def Mp3TaskStruct.sampled (task : Mp3TaskStruct) (process : Process) (now : UInt64) :
    Mp3TaskStruct :=
  { task with
    minFlt := process.minFlt
    majFlt := process.majFlt
    utime := process.utime
    stime := process.stime
    lastJiffies := now }

/-- What the loop of `wq_handler` leaves: the records, the kernel, and whether it has met a pid
without a process. -/
structure Traversal where
  tl : List Mp3TaskStruct
  kernel : Kernel
  aborted : Bool

/-- The loop of `wq_handler` over the records. -/
def traverse : List Mp3TaskStruct → Kernel → Traversal
  | [], k => ⟨[], k, false⟩
  | task :: rest, k =>
    match k.getCpuUse task.pid with
    | none => ⟨task :: rest, k, true⟩
    | some (process, k) =>
      let later := traverse rest (k.push (process.sample task.pid))
      { later with tl := task.sampled process k.jiffies :: later.tl }

/-! ### The task list -/

namespace Mp3

/-- The pids of the list. -/
def pids (s : Mp3) : List Int32 := s.tl.map Mp3TaskStruct.pid

/-- The loops that look for a pid. -/
def listed (s : Mp3) (pid : Int32) : Bool := s.tl.any fun task ↦ task.pid = pid

/-- The record that `Task_register` allocates and fills. -/
def newTask (s : Mp3) (pid : Int32) : Mp3TaskStruct where
  linuxTask := if (s.kernel.processes pid).isSome then some pid else none
  pid := pid
  lastJiffies := s.kernel.jiffies
  minFlt := 0
  majFlt := 0
  utime := 0
  stime := 0

/-- `queue_delayed_work`, which does nothing when the work is pending. -/
@[simps] def queueDelayedWork (s : Mp3) : Mp3 := { s with pending := true }

/-- `cancel_delayed_work`. -/
@[simps] def cancelDelayedWork (s : Mp3) : Mp3 := { s with pending := false }

/-- The work is queued when the list is empty. -/
def queueIfEmpty (s : Mp3) : Mp3 := if s.tl.isEmpty then s.queueDelayedWork else s

/-- `list_add_tail`. -/
@[simps] def listAddTail (s : Mp3) (task : Mp3TaskStruct) : Mp3 := { s with tl := s.tl ++ [task] }

/-- `list_del` of the first record with the pid. -/
@[simps] def listDel (s : Mp3) (pid : Int32) : Mp3 :=
  { s with tl := s.tl.eraseP fun task ↦ task.pid = pid }

/-- The locked traversal of `wq_handler`. -/
@[simps] def sample (s : Mp3) : Mp3 :=
  { s with tl := (traverse s.tl s.kernel).tl, kernel := (traverse s.tl s.kernel).kernel }

/-! ### Whole calls -/

/-- `Task_register`: the returned number and the state after the call. -/
def taskRegister (s : Mp3) (pid : Int32) : ℤ × Mp3 :=
  if s.listed pid then (-1, s) else (0, s.queueIfEmpty.listAddTail (s.newTask pid))

/-- `Task_deregister`: the returned number and the state after the call. -/
def taskDeregister (s : Mp3) (pid : Int32) : ℤ × Mp3 :=
  if s.listed pid then
    (0, if (s.listDel pid).tl.isEmpty then (s.listDel pid).cancelDelayedWork else s.listDel pid)
  else (-1, s)

/-- `wq_handler`. It is queued again unless it meets a pid without a process. -/
def wqHandler (s : Mp3) : Mp3 :=
  if (traverse s.tl s.kernel).aborted then s.sample else s.sample.queueDelayedWork

/-! ### The list under the operations -/

/-- A pid is listed when it is the pid of a record. -/
theorem listed_iff (s : Mp3) (pid : Int32) : s.listed pid = true ↔ pid ∈ s.pids := by
  simp [listed, pids]

@[simp] theorem tl_queueIfEmpty (s : Mp3) : s.queueIfEmpty.tl = s.tl := by
  unfold queueIfEmpty
  split_ifs <;> rfl

@[simp] theorem kernel_queueIfEmpty (s : Mp3) : s.queueIfEmpty.kernel = s.kernel := by
  unfold queueIfEmpty
  split_ifs <;> rfl

@[simp] theorem pids_listAddTail (s : Mp3) (task : Mp3TaskStruct) :
    (s.listAddTail task).pids = s.pids ++ [task.pid] := by
  simp [pids]

@[simp] theorem pids_listDel (s : Mp3) (pid : Int32) :
    (s.listDel pid).pids = s.pids.erase pid := by
  rw [pids, pids, listDel_tl, List.erase_eq_eraseP', List.eraseP_map]
  rfl

/-- A registration leaves the kernel alone. -/
theorem kernel_taskRegister (s : Mp3) (pid : Int32) : (s.taskRegister pid).2.kernel = s.kernel := by
  unfold taskRegister
  split_ifs
  · rfl
  · exact s.kernel_queueIfEmpty

/-- A deregistration leaves the kernel alone. -/
theorem kernel_taskDeregister (s : Mp3) (pid : Int32) :
    (s.taskDeregister pid).2.kernel = s.kernel := by
  unfold taskDeregister
  split_ifs <;> rfl

/-- What the handler does to the kernel is its traversal. -/
theorem kernel_wqHandler (s : Mp3) : s.wqHandler.kernel = (traverse s.tl s.kernel).kernel := by
  unfold wqHandler
  split_ifs <;> rfl

end Mp3

/-- A traversal changes no pid. -/
theorem pids_traverse (tl : List Mp3TaskStruct) (k : Kernel) :
    (traverse tl k).tl.map Mp3TaskStruct.pid = tl.map Mp3TaskStruct.pid := by
  induction tl generalizing k with
  | nil => rfl
  | cons task rest ih =>
    rw [traverse]
    cases huse : k.getCpuUse task.pid with
    | none => rfl
    | some use =>
      dsimp only
      rw [List.map_cons, List.map_cons, ih]
      rfl

/-- A traversal ends early only at a listed pid without a process. -/
theorem aborted_traverse {tl : List Mp3TaskStruct} {k : Kernel}
    (haborted : (traverse tl k).aborted = true) : ∃ task ∈ tl, k.processes task.pid = none := by
  induction tl generalizing k with
  | nil => cases haborted
  | cons task rest ih =>
    rw [traverse] at haborted
    cases hprocess : k.processes task.pid with
    | none => exact ⟨task, List.mem_cons_self, hprocess⟩
    | some process =>
      simp only [Kernel.getCpuUse, hprocess, Option.map_some] at haborted
      obtain ⟨other, hother, hnone⟩ := ih haborted
      refine ⟨other, List.mem_cons_of_mem _ hother, ?_⟩
      by_cases hpid : other.pid = task.pid
      · simp [Kernel.push, hpid] at hnone
      · simpa [Kernel.push, Function.update_of_ne hpid] using hnone

/-- A traversal pushes samples of listed pids, in the order of the list. -/
theorem pushed_traverse (tl : List Mp3TaskStruct) (k : Kernel) :
    ∃ samples, (traverse tl k).kernel.pushed = k.pushed ++ samples ∧
      samples.map Sample.pid <+: tl.map Mp3TaskStruct.pid := by
  induction tl generalizing k with
  | nil => exact ⟨[], (List.append_nil _).symm, List.nil_prefix⟩
  | cons task rest ih =>
    rw [traverse]
    cases hprocess : k.processes task.pid with
    | none =>
      simp only [Kernel.getCpuUse, hprocess, Option.map_none]
      exact ⟨[], (List.append_nil _).symm, List.nil_prefix⟩
    | some process =>
      simp only [Kernel.getCpuUse, hprocess, Option.map_some]
      obtain ⟨samples, hpushed, hpids⟩ := ih (Kernel.push
        { k with processes := Function.update k.processes task.pid (some ⟨0, 0, 0, 0⟩) }
        (process.sample task.pid))
      refine ⟨process.sample task.pid :: samples, ?_, ?_⟩
      · rw [hpushed, Kernel.push, List.append_assoc]
        rfl
      · rw [List.map_cons, List.map_cons, List.cons_prefix_cons]
        exact ⟨rfl, hpids⟩

/-- A traversal leaves the rows of the samples that it pushes in the buffer. Assumes: so did the
pushes before it. -/
theorem written_traverse (tl : List Mp3TaskStruct) {k : Kernel}
    (hwritten : k.written = k.pushed.map Sample.row) :
    (traverse tl k).kernel.written = (traverse tl k).kernel.pushed.map Sample.row := by
  induction tl generalizing k with
  | nil => exact hwritten
  | cons task rest ih =>
    rw [traverse]
    cases hprocess : k.processes task.pid with
    | none =>
      simp only [Kernel.getCpuUse, hprocess, Option.map_none]
      exact hwritten
    | some process =>
      simp only [Kernel.getCpuUse, hprocess, Option.map_some]
      refine ih ?_
      rw [Kernel.written_push, hwritten, Kernel.push, List.map_append, List.map_singleton]

@[simp] theorem Mp3.pids_sample (s : Mp3) : s.sample.pids = s.pids := pids_traverse s.tl s.kernel

/-- A traversal empties no list. -/
theorem Mp3.tl_sample_eq_nil_iff (s : Mp3) : s.sample.tl = [] ↔ s.tl = [] := by
  have hpids := s.pids_sample
  rw [Mp3.pids, Mp3.pids] at hpids
  rw [← List.map_eq_nil_iff (f := Mp3TaskStruct.pid), hpids, List.map_eq_nil_iff]

end KernelModules.FaultProfiler
