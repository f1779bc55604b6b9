import KernelModules.FaultProfiler.TaskSampling

/-!
# A sampling tick

One run of `wq_handler`, with `lock`. A tick should sample every listed task whose process is live,
pass over the others, drop `lock` and queue itself again (`CompleteTick`). The loop returns at the
first pid without a process, inside the critical section: it samples the tasks before it
(`kernel_traverse`), and leaves `lock` held and the work unqueued. `completeTick_iff` says that a
tick is complete exactly when no listed process has exited.
-/

set_option autoImplicit false
set_option relaxedAutoImplicit false

namespace KernelModules.FaultProfiler

/-! ### The handler and the lock -/

/-- `wq_handler` from a free `lock`: the state after the run, and whether `lock` is held then. -/
def Mp3.wqHandlerLocked (s : Mp3) : Mp3 × Bool := (s.wqHandler, (traverse s.tl s.kernel).aborted)

/-! ### The samples of a tick -/

/-- A live process has the pid. -/
def live (processes : Int32 → Option Process) (pid : Int32) : Bool := (processes pid).isSome

/-- One sample for each task with a live process, in the order of the list. A process that is
sampled counts from 0 again. -/
def liveSamples : List Mp3TaskStruct → (Int32 → Option Process) → List Sample
  | [], _ => []
  | task :: rest, processes =>
    match processes task.pid with
    | none => liveSamples rest processes
    | some process => process.sample task.pid ::
        liveSamples rest (Function.update processes task.pid (some ⟨0, 0, 0, 0⟩))

/-- A pid with a process is live. -/
theorem live_of_some {processes : Int32 → Option Process} {pid : Int32} {process : Process}
    (hprocess : processes pid = some process) : live processes pid = true := by
  rw [live, hprocess, Option.isSome_some]

/-- A pid without a process is not live. -/
theorem not_live_of_none {processes : Int32 → Option Process} {pid : Int32}
    (hprocess : processes pid = none) : ¬ live processes pid = true := by
  rw [live, hprocess]
  exact Bool.false_ne_true

/-- Sampling a live process ends none. -/
theorem live_update {processes : Int32 → Option Process} {pid : Int32}
    (hlive : live processes pid = true) (process : Process) :
    live (Function.update processes pid (some process)) = live processes := by
  funext other
  by_cases hother : other = pid
  · rw [hother, hlive, live, Function.update_self, Option.isSome_some]
  · rw [live, live, Function.update_of_ne hother]

/-- The samples are of the listed pids that are live. -/
theorem pids_liveSamples (tl : List Mp3TaskStruct) (processes : Int32 → Option Process) :
    (liveSamples tl processes).map Sample.pid =
      (tl.map Mp3TaskStruct.pid).filter (live processes) := by
  induction tl generalizing processes with
  | nil => rfl
  | cons task rest ih =>
    rw [liveSamples, List.map_cons]
    cases hprocess : processes task.pid with
    | none =>
      rw [List.filter_cons_of_neg (not_live_of_none hprocess)]
      exact ih processes
    | some process =>
      have hlive := live_of_some hprocess
      rw [List.filter_cons_of_pos hlive, List.map_cons, ih, live_update hlive]
      rfl

/-- The samples are those of the listed tasks with a process. Assumes: pids that are listed once. -/
theorem mem_liveSamples_iff {tl : List Mp3TaskStruct}
    (hnodup : (tl.map Mp3TaskStruct.pid).Nodup) {processes : Int32 → Option Process}
    {sample : Sample} : sample ∈ liveSamples tl processes ↔
      ∃ task ∈ tl, ∃ process, processes task.pid = some process ∧
        process.sample task.pid = sample := by
  induction tl generalizing processes with
  | nil => simp [liveSamples]
  | cons task rest ih =>
    rw [List.map_cons, List.nodup_cons] at hnodup
    obtain ⟨hself, hrest⟩ := hnodup
    rw [liveSamples, List.exists_mem_cons_iff]
    cases hprocess : processes task.pid with
    | none =>
      rw [ih hrest]
      refine (or_iff_right ?_).symm
      rintro ⟨process, hsome, -⟩
      cases hsome
    | some process =>
      rw [List.mem_cons, ih hrest]
      refine or_congr ⟨fun heq ↦ ⟨process, rfl, heq.symm⟩, ?_⟩ ?_
      · rintro ⟨other, hother, hsample⟩
        rw [← hsample, Option.some.inj hother]
      · -- no other task has the pid whose process starts again
        refine exists_congr fun other ↦ and_congr_right fun hother ↦ ?_
        have hpid : other.pid ≠ task.pid := fun heq ↦
          hself (heq ▸ List.mem_map_of_mem hother)
        rw [Function.update_of_ne hpid]

/-- The processes that the loop samples start again from 0, and the others go on. -/
theorem processes_traverse (tl : List Mp3TaskStruct) (k : Kernel) (pid : Int32) :
    (traverse tl k).kernel.processes pid =
      if pid ∈ (tl.takeWhile fun task ↦ live k.processes task.pid).map Mp3TaskStruct.pid then
        some ⟨0, 0, 0, 0⟩
      else k.processes pid := by
  induction tl generalizing k with
  | nil => rfl
  | cons task rest ih =>
    rw [traverse]
    cases hprocess : k.processes task.pid with
    | none =>
      rw [List.takeWhile_cons, if_neg (not_live_of_none hprocess)]
      simp only [Kernel.getCpuUse, hprocess, Option.map_none]
      exact (if_neg List.not_mem_nil).symm
    | some process =>
      have hlive := live_of_some hprocess
      rw [List.takeWhile_cons, if_pos hlive]
      simp only [Kernel.getCpuUse, hprocess, Option.map_some]
      rw [ih]
      simp only [Kernel.push, live_update hlive, List.map_cons, List.mem_cons]
      by_cases hpid : pid = task.pid
      · rw [hpid, Function.update_self, ite_self, if_pos (.inl rfl)]
      · rw [Function.update_of_ne hpid]
        exact if_congr (or_iff_right hpid).symm rfl rfl

/-- The loop pushes the samples of the tasks before the first pid without a process. -/
theorem kernel_traverse (tl : List Mp3TaskStruct) (k : Kernel) :
    (traverse tl k).kernel.pushed = k.pushed ++
        liveSamples (tl.takeWhile fun task ↦ live k.processes task.pid) k.processes ∧
      (traverse tl k).kernel.profiler =
        (liveSamples (tl.takeWhile fun task ↦ live k.processes task.pid) k.processes).foldl
          vmemBufPushNext k.profiler := by
  induction tl generalizing k with
  | nil => exact ⟨(List.append_nil _).symm, rfl⟩
  | cons task rest ih =>
    rw [traverse]
    cases hprocess : k.processes task.pid with
    | none =>
      rw [List.takeWhile_cons, if_neg (not_live_of_none hprocess)]
      simp only [Kernel.getCpuUse, hprocess, Option.map_none]
      exact ⟨(List.append_nil _).symm, rfl⟩
    | some process =>
      have hlive := live_of_some hprocess
      rw [List.takeWhile_cons, if_pos hlive]
      simp only [Kernel.getCpuUse, hprocess, Option.map_some, liveSamples]
      obtain ⟨hpushed, hprofiler⟩ := ih (Kernel.push
        { k with processes := Function.update k.processes task.pid (some ⟨0, 0, 0, 0⟩) }
        (process.sample task.pid))
      simp only [Kernel.push, live_update hlive] at hpushed hprofiler
      refine ⟨?_, hprofiler⟩
      rw [Kernel.push, hpushed, List.append_assoc]
      rfl

/-- The loop comes to its end exactly when every listed pid has a process. -/
theorem aborted_traverse_eq_false_iff (tl : List Mp3TaskStruct) (k : Kernel) :
    (traverse tl k).aborted = false ↔ ∀ task ∈ tl, live k.processes task.pid = true := by
  induction tl generalizing k with
  | nil => exact iff_of_true rfl fun _ hmem ↦ absurd hmem List.not_mem_nil
  | cons task rest ih =>
    rw [traverse, List.forall_mem_cons]
    cases hprocess : k.processes task.pid with
    | none =>
      simp only [Kernel.getCpuUse, hprocess, Option.map_none]
      exact iff_of_false Bool.noConfusion fun hall ↦ not_live_of_none hprocess hall.1
    | some process =>
      have hlive := live_of_some hprocess
      simp only [Kernel.getCpuUse, hprocess, Option.map_some]
      rw [ih, and_iff_right hlive]
      simp only [Kernel.push, live_update hlive]

/-! ### When a tick is complete -/

/-- The law of a tick. It pushes one row for each listed task with a live process, in the order of
the list, and nothing else; at its end `lock` is free and the work is queued. -/
structure CompleteTick (s : Mp3) : Prop where
  pushed : s.wqHandlerLocked.1.kernel.pushed =
    s.kernel.pushed ++ liveSamples s.tl s.kernel.processes
  profiler : s.wqHandlerLocked.1.kernel.profiler =
    (liveSamples s.tl s.kernel.processes).foldl vmemBufPushNext s.kernel.profiler
  unlocked : s.wqHandlerLocked.2 = false
  queued : s.wqHandlerLocked.1.pending = true

/-- A tick is complete if and only if every listed task has a live process. -/
theorem completeTick_iff (s : Mp3) :
    CompleteTick s ↔ ∀ task ∈ s.tl, live s.kernel.processes task.pid = true := by
  constructor
  · intro htick
    exact (aborted_traverse_eq_false_iff s.tl s.kernel).mp htick.unlocked
  · intro hlive
    have hdone := (aborted_traverse_eq_false_iff s.tl s.kernel).mpr hlive
    have hrun : s.wqHandlerLocked = (s.sample.queueDelayedWork, false) := by
      rw [Mp3.wqHandlerLocked, Mp3.wqHandler, hdone, if_neg Bool.false_ne_true]
    have hwhole : (s.tl.takeWhile fun task ↦ live s.kernel.processes task.pid) = s.tl :=
      List.takeWhile_eq_self_iff.mpr hlive
    obtain ⟨hpushed, hprofiler⟩ := kernel_traverse s.tl s.kernel
    rw [hwhole] at hpushed hprofiler
    constructor
    · rw [hrun]
      exact hpushed
    · rw [hrun]
      exact hprofiler
    · rw [hrun]
    · rw [hrun]
      rfl

/-- Two listed tasks, of which the first has exited. -/
def exitedFirst : Mp3 where
  tl := [⟨some 1, 1, 0, 0, 0, 0, 0⟩, ⟨some 2, 2, 0, 0, 0, 0, 0⟩]
  pending := false
  kernel :=
    { processes := fun pid ↦ if pid = 2 then some ⟨0, 0, 1, 0⟩ else none
      jiffies := 0
      profiler := taskListInit
      pushed := []
      written := [] }

/-- A task that has exited stops the sampling of the task behind it. -/
theorem not_completeTick_exitedFirst : ¬ CompleteTick exitedFirst := by
  intro htick
  have hunlocked := htick.unlocked
  have hlocked : exitedFirst.wqHandlerLocked.2 = true := by decide
  rw [hlocked] at hunlocked
  exact absurd hunlocked (by decide)

end KernelModules.FaultProfiler
