import KernelModules.FaultProfiler.TaskSampling
import KernelModules.Foundation.TransitionSystem

/-!
# Sampling after the unload

`TaskList_destroy` empties the list, cancels the sampling work, flushes and destroys the work queue
and frees the buffer. `wq_handler` queues the work again at its end. Here are the steps of the two
in any order, with the work in its three places: delayed by its timer, queued, or in the run that
the worker makes.

`cancel_delayed_work` takes the work away where it is delayed or queued and does not wait for a run.
`flush_workqueue` waits for what it finds queued or running, and not for the timer. So a run that
the cancellation meets comes to its end before the queue is destroyed, and leaves the work delayed.
`always_samplingEnds_iff` says that this is the only thing that can go wrong.
-/

set_option autoImplicit false
set_option relaxedAutoImplicit false

namespace KernelModules.FaultProfiler

open Foundation

/-! ### The two contexts -/

/-- Where the work waits to be run: nowhere, behind its timer, or in the queue. -/
inductive WorkPlace
  | free
  | delayed
  | queued
  deriving DecidableEq

/-- The next step of a run of `wq_handler`, whose loop is at an index of the list. -/
inductive RunPc
  | idle
  | lock
  | loop (itr : ℕ)
  | unlock
  | requeue
  deriving DecidableEq

/-- The next step of `TaskList_destroy`. The flush waits until a number of runs has come to its
end. -/
inductive DestroyPc
  | lock
  | remove
  | unlock
  | cancel
  | flush
  | flushWait (runs : ℕ)
  | destroyWorkqueue
  | vfree
  | returned
  deriving DecidableEq

/-- The work has been cancelled. -/
def DestroyPc.cancelled : DestroyPc → Bool
  | .lock | .remove | .unlock | .cancel => false
  | .flush | .flushWait _ | .destroyWorkqueue | .vfree | .returned => true

/-- The queue has been destroyed. -/
def DestroyPc.wqDestroyed : DestroyPc → Bool
  | .vfree | .returned => true
  | _ => false

/-- The module while it is unloaded. The runs of the handler are counted as they begin; the last two
fields say whether a sample has been pushed into the freed buffer, and whether the work has been
queued on the destroyed queue or delayed for it. -/
structure Unloading where
  tl : List Mp3TaskStruct
  kernel : Kernel
  locked : Bool
  work : WorkPlace
  handler : RunPc
  runs : ℕ
  destroy : DestroyPc
  pushedFreed : Bool
  queuedDestroyed : Bool

/-- A step: of `TaskList_destroy`, of the timer of the work, of the worker, or of the rest of the
kernel. -/
inductive UnloadLabel
  | destroy
  | timer
  | worker
  | environment (processes : Int32 → Option Process) (jiffies : UInt64)

namespace Unloading

/-- The start: any list, with the work in any place and no run in progress. -/
def start (tl : List Mp3TaskStruct) (kernel : Kernel) (work : WorkPlace) : Unloading where
  tl := tl
  kernel := kernel
  locked := false
  work := work
  handler := .idle
  runs := 0
  destroy := .lock
  pushedFreed := false
  queuedDestroyed := false

/-- What the flush waits for has come to its end. -/
def Flushed (m : Unloading) (runs : ℕ) : Prop :=
  runs < m.runs ∨ runs = m.runs ∧ m.handler = .idle

instance (m : Unloading) (runs : ℕ) : Decidable (m.Flushed runs) :=
  inferInstanceAs (Decidable (runs < m.runs ∨ runs = m.runs ∧ m.handler = .idle))

/-- The next step of `TaskList_destroy`. `destroy_workqueue` drains the queue first. -/
def destroyStep (m : Unloading) : Option Unloading :=
  match m.destroy with
  | .lock => if m.locked then none else some { m with locked := true, destroy := .remove }
  | .remove =>
    match m.tl with
    | [] => some { m with destroy := .unlock }
    | _ :: rest => some { m with tl := rest }
  | .unlock => some { m with locked := false, destroy := .cancel }
  | .cancel => some { m with work := .free, destroy := .flush }
  | .flush =>
    some { m with destroy := .flushWait (m.runs + if m.work = .queued then 1 else 0) }
  | .flushWait runs => if m.Flushed runs then some { m with destroy := .destroyWorkqueue } else none
  | .destroyWorkqueue =>
    if m.work ≠ .queued ∧ m.handler = .idle then some { m with destroy := .vfree } else none
  | .vfree => some { m with destroy := .returned }
  | .returned => none

/-- The timer of the work expires and puts it into the queue. -/
def timerStep (m : Unloading) : Option Unloading :=
  if m.work = .delayed then
    some { m with
      work := .queued
      queuedDestroyed := m.queuedDestroyed || m.destroy.wqDestroyed }
  else none

/-- The next step of the worker. A run that meets a pid without a process returns with `lock`
held. -/
def workerStep (m : Unloading) : Option Unloading :=
  match m.handler with
  | .idle =>
    if m.work = .queued then
      some { m with work := .free, handler := .lock, runs := m.runs + 1 }
    else none
  | .lock => if m.locked then none else some { m with locked := true, handler := .loop 0 }
  | .loop itr =>
    match m.tl[itr]? with
    | none => some { m with handler := .unlock }
    | some task =>
      match m.kernel.getCpuUse task.pid with
      | none => some { m with handler := .idle }
      | some (process, kernel) =>
        some { m with
          tl := m.tl.set itr (task.sampled process kernel.jiffies)
          kernel := kernel.push (process.sample task.pid)
          handler := .loop (itr + 1)
          pushedFreed := m.pushedFreed || decide (m.destroy = .returned) }
  | .unlock => some { m with locked := false, handler := .requeue }
  | .requeue =>
    some { m with
      work := if m.work = .free then .delayed else m.work
      handler := .idle
      queuedDestroyed := m.queuedDestroyed || m.destroy.wqDestroyed }

/-- The step of the module. -/
def next (m : Unloading) : UnloadLabel → Option Unloading
  | .destroy => m.destroyStep
  | .timer => m.timerStep
  | .worker => m.workerStep
  | .environment processes jiffies =>
    some { m with kernel := { m.kernel with processes := processes, jiffies := jiffies } }

/-! ### What a step can do -/

/-- What a step of `TaskList_destroy` can do. -/
inductive DestroyStep (m : Unloading) : DestroyPc → Unloading → Prop
  | lock : DestroyStep m .lock { m with locked := true, destroy := .remove }
  | empty (hnil : m.tl = []) : DestroyStep m .remove { m with destroy := .unlock }
  | remove {task : Mp3TaskStruct} {rest : List Mp3TaskStruct} (hcons : m.tl = task :: rest) :
    DestroyStep m .remove { m with tl := rest, destroy := .remove }
  | unlock : DestroyStep m .unlock { m with locked := false, destroy := .cancel }
  | cancel : DestroyStep m .cancel { m with work := .free, destroy := .flush }
  | goOn {pc after : DestroyPc} (hcancelled : pc.cancelled = true)
    (hafter : after.cancelled = true) : DestroyStep m pc { m with destroy := after }

/-- A step of `TaskList_destroy` does one of these. -/
theorem destroyStep_spec {m later : Unloading} (hstep : m.destroyStep = some later) :
    DestroyStep m m.destroy later := by
  unfold destroyStep at hstep
  cases hpc : m.destroy with
  | lock =>
    rw [hpc] at hstep
    dsimp only at hstep
    split_ifs at hstep
    rw [← Option.some.inj hstep]
    exact .lock
  | remove =>
    rw [hpc] at hstep
    dsimp only at hstep
    cases htl : m.tl with
    | nil =>
      rw [htl] at hstep
      rw [← Option.some.inj hstep, ← htl]
      exact .empty htl
    | cons task rest =>
      rw [htl] at hstep
      rw [← Option.some.inj hstep, ← hpc]
      exact hpc ▸ .remove htl
  | unlock =>
    rw [hpc] at hstep
    rw [← Option.some.inj hstep]
    exact .unlock
  | cancel =>
    rw [hpc] at hstep
    rw [← Option.some.inj hstep]
    exact .cancel
  | flush | vfree =>
    rw [hpc] at hstep
    rw [← Option.some.inj hstep]
    exact .goOn rfl rfl
  | flushWait runs =>
    rw [hpc] at hstep
    dsimp only at hstep
    split_ifs at hstep
    rw [← Option.some.inj hstep]
    exact .goOn rfl rfl
  | destroyWorkqueue =>
    rw [hpc] at hstep
    dsimp only at hstep
    split_ifs at hstep
    rw [← Option.some.inj hstep]
    exact .goOn rfl rfl
  | returned =>
    rw [hpc] at hstep
    cases hstep

/-- What a step of the worker can do. -/
inductive RunStep (m : Unloading) : RunPc → Unloading → Prop
  | begin (hqueued : m.work = .queued) :
    RunStep m .idle { m with work := .free, handler := .lock, runs := m.runs + 1 }
  | lock : RunStep m .lock { m with locked := true, handler := .loop 0 }
  | ended {itr : ℕ} : RunStep m (.loop itr) { m with handler := .unlock }
  | dead {itr : ℕ} {task : Mp3TaskStruct} (htask : m.tl[itr]? = some task) :
    RunStep m (.loop itr) { m with handler := .idle }
  | sample {itr : ℕ} {task : Mp3TaskStruct} (htask : m.tl[itr]? = some task)
    (sampled : Mp3TaskStruct) (kernel : Kernel) :
    RunStep m (.loop itr) { m with
      tl := m.tl.set itr sampled
      kernel := kernel
      handler := .loop (itr + 1)
      pushedFreed := m.pushedFreed || decide (m.destroy = .returned) }
  | unlock : RunStep m .unlock { m with locked := false, handler := .requeue }
  | requeue : RunStep m .requeue { m with
      work := if m.work = .free then .delayed else m.work
      handler := .idle
      queuedDestroyed := m.queuedDestroyed || m.destroy.wqDestroyed }

/-- A step of the worker does one of these. -/
theorem runStep_spec {m later : Unloading} (hstep : m.workerStep = some later) :
    RunStep m m.handler later := by
  unfold workerStep at hstep
  cases hpc : m.handler with
  | idle =>
    rw [hpc] at hstep
    dsimp only at hstep
    split_ifs at hstep with hqueued
    rw [← Option.some.inj hstep]
    exact .begin hqueued
  | lock =>
    rw [hpc] at hstep
    dsimp only at hstep
    split_ifs at hstep
    rw [← Option.some.inj hstep]
    exact .lock
  | loop itr =>
    rw [hpc] at hstep
    dsimp only at hstep
    cases htask : m.tl[itr]? with
    | none =>
      rw [htask] at hstep
      rw [← Option.some.inj hstep]
      exact .ended
    | some task =>
      rw [htask] at hstep
      dsimp only at hstep
      split at hstep
      · rw [← Option.some.inj hstep]
        exact .dead htask
      · rw [← Option.some.inj hstep]
        exact .sample htask _ _
  | unlock =>
    rw [hpc] at hstep
    rw [← Option.some.inj hstep]
    exact .unlock
  | requeue =>
    rw [hpc] at hstep
    rw [← Option.some.inj hstep]
    exact .requeue

/-! ### The law -/

/-- Sampling ends with the unload: once the buffer is freed, the work is in no place and no run is
in progress. No sample has been pushed into the freed buffer, and no work queued on the destroyed
queue. -/
def SamplingEnds (m : Unloading) : Prop :=
  (m.destroy = .returned → m.work = .free ∧ m.handler = .idle) ∧
    m.pushedFreed = false ∧ m.queuedDestroyed = false

instance (m : Unloading) : Decidable m.SamplingEnds :=
  inferInstanceAs (Decidable ((m.destroy = .returned → m.work = .free ∧ m.handler = .idle) ∧
    m.pushedFreed = false ∧ m.queuedDestroyed = false))

/-- The work is cancelled while no run of the handler is in progress. -/
def CancelsIdle (m : Unloading) : UnloadLabel → Prop
  | .destroy => m.destroy = .cancel → m.handler = .idle
  | _ => True

instance (m : Unloading) : ∀ label, Decidable (m.CancelsIdle label)
  | .destroy => inferInstanceAs (Decidable (m.destroy = .cancel → m.handler = .idle))
  | .timer | .worker | .environment _ _ => isTrue trivial

/-! ### Runs that end -/

/-- The list is empty once the removals are over, and when the work has been cancelled it is in no
place and no run is in progress. -/
structure Ending (m : Unloading) : Prop where
  emptied : m.destroy ≠ .lock → m.destroy ≠ .remove → m.tl = []
  ended : m.destroy.cancelled = true → m.work = .free ∧ m.handler = .idle
  pushedFreed : m.pushedFreed = false
  queuedDestroyed : m.queuedDestroyed = false

/-- The work has been cancelled, and a run that began before is in progress or has queued it
again. The list is empty. -/
structure Lost (m : Unloading) : Prop where
  emptied : m.tl = []
  cancelled : m.destroy.cancelled = true
  goesOn : m.work ≠ .free ∨ m.handler ≠ .idle

variable {m later : Unloading}

namespace Ending

/-- The start. -/
theorem start (tl : List Mp3TaskStruct) (kernel : Kernel) (work : WorkPlace) :
    Ending (Unloading.start tl kernel work) where
  emptied := fun hlock ↦ absurd rfl hlock
  ended := fun hcancelled ↦ by cases hcancelled
  pushedFreed := rfl
  queuedDestroyed := rfl

/-- Sampling ends. -/
theorem samplingEnds (hm : Ending m) : m.SamplingEnds := by
  refine ⟨fun hreturned ↦ hm.ended ?_, hm.pushedFreed, hm.queuedDestroyed⟩
  rw [hreturned]
  rfl

/-- The work is cancelled after the removals. -/
theorem emptied_of_cancelled (hm : Ending m) (hcancelled : m.destroy.cancelled = true) :
    m.tl = [] := by
  refine hm.emptied (fun hlock ↦ ?_) fun hremove ↦ ?_
  · rw [hlock] at hcancelled
    cases hcancelled
  · rw [hremove] at hcancelled
    cases hcancelled

/-- Before the cancellation the queue is there and the buffer is not freed. -/
theorem not_destroyed (hcancelled : m.destroy.cancelled = false) :
    m.destroy.wqDestroyed = false ∧ m.destroy ≠ .returned := by
  cases hpc : m.destroy with
  | lock | remove | unlock | cancel => exact ⟨rfl, DestroyPc.noConfusion⟩
  | _ =>
    rw [hpc] at hcancelled
    cases hcancelled

/-- While a run is in progress or the work has a place, the work has not been cancelled. -/
theorem not_cancelled (hm : Ending m) (hbusy : m.work ≠ .free ∨ m.handler ≠ .idle) :
    m.destroy.cancelled = false := by
  by_contra hcancelled
  obtain ⟨hfree, hidle⟩ := hm.ended (Bool.eq_true_of_not_eq_false hcancelled)
  exact hbusy.elim (fun hwork ↦ hwork hfree) (fun hhandler ↦ hhandler hidle)

/-- A step of `TaskList_destroy`. Assumes: it does not cancel under a run. -/
theorem destroyStep (hm : Ending m) (hcondition : m.CancelsIdle .destroy) {pc : DestroyPc}
    (hpc : m.destroy = pc) (hstep : DestroyStep m pc later) : Ending later := by
  have hbefore : ∀ after : DestroyPc, after.cancelled = false → after.cancelled = true →
      later.work = .free ∧ later.handler = .idle := by
    intro after hfalse htrue
    cases hfalse.symm.trans htrue
  cases hstep with
  | lock =>
    exact ⟨fun _ hremove ↦ absurd rfl hremove, hbefore _ rfl, hm.pushedFreed, hm.queuedDestroyed⟩
  | empty hnil => exact ⟨fun _ _ ↦ hnil, hbefore _ rfl, hm.pushedFreed, hm.queuedDestroyed⟩
  | remove hcons =>
    exact ⟨fun _ hremove ↦ absurd rfl hremove, hbefore _ rfl, hm.pushedFreed, hm.queuedDestroyed⟩
  | unlock =>
    have hnil := hm.emptied (hpc ▸ DestroyPc.noConfusion) (hpc ▸ DestroyPc.noConfusion)
    exact ⟨fun _ _ ↦ hnil, hbefore _ rfl, hm.pushedFreed, hm.queuedDestroyed⟩
  | cancel =>
    have hnil := hm.emptied (hpc ▸ DestroyPc.noConfusion) (hpc ▸ DestroyPc.noConfusion)
    exact ⟨fun _ _ ↦ hnil, fun _ ↦ ⟨rfl, hcondition hpc⟩, hm.pushedFreed, hm.queuedDestroyed⟩
  | goOn hcancelled hafter =>
    have hnil : m.tl = [] := hm.emptied_of_cancelled (hpc ▸ hcancelled)
    exact ⟨fun _ _ ↦ hnil, fun _ ↦ hm.ended (hpc ▸ hcancelled), hm.pushedFreed,
      hm.queuedDestroyed⟩

/-- An expiry of the timer. -/
theorem timerStep (hm : Ending m) (hstep : m.timerStep = some later) : Ending later := by
  obtain ⟨hdelayed, rfl⟩ := Option.ite_none_right_eq_some.mp hstep |>.imp id Option.some.inj
  have hbefore := hm.not_cancelled (.inl (by rw [hdelayed]; exact WorkPlace.noConfusion))
  refine ⟨hm.emptied, fun hcancelled ↦ ?_, hm.pushedFreed, ?_⟩
  · cases hbefore.symm.trans hcancelled
  · exact Bool.or_eq_false_iff.mpr ⟨hm.queuedDestroyed, (not_destroyed hbefore).1⟩

/-- A step of the worker. -/
theorem workerStep (hm : Ending m) {pc : RunPc} (hpc : m.handler = pc)
    (hstep : RunStep m pc later) : Ending later := by
  -- a step of the worker falls before the cancellation
  have hbefore : m.destroy.cancelled = false := by
    refine hm.not_cancelled ?_
    cases hstep with
    | begin hqueued => exact .inl (by rw [hqueued]; exact WorkPlace.noConfusion)
    | _ => exact .inr (by rw [hpc]; exact RunPc.noConfusion)
  have hended : m.destroy.cancelled = true → later.work = .free ∧ later.handler = .idle := by
    intro hcancelled
    cases hbefore.symm.trans hcancelled
  cases hstep with
  | begin | lock | ended | dead | unlock =>
    exact ⟨hm.emptied, hended, hm.pushedFreed, hm.queuedDestroyed⟩
  | sample htask sampled kernel =>
    refine ⟨fun hlock hremove ↦ ?_, hended, ?_, hm.queuedDestroyed⟩
    · rw [hm.emptied hlock hremove] at htask
      cases htask
    · exact Bool.or_eq_false_iff.mpr ⟨hm.pushedFreed, decide_eq_false (not_destroyed hbefore).2⟩
  | requeue =>
    exact ⟨hm.emptied, hended, hm.pushedFreed,
      Bool.or_eq_false_iff.mpr ⟨hm.queuedDestroyed, (not_destroyed hbefore).1⟩⟩

/-- Every step that does not cancel under a run. -/
theorem next (hm : Ending m) {label : UnloadLabel} (hcondition : m.CancelsIdle label)
    (hnext : m.next label = some later) : Ending later := by
  cases label with
  | destroy => exact hm.destroyStep hcondition rfl (destroyStep_spec hnext)
  | timer => exact hm.timerStep hnext
  | worker => exact hm.workerStep rfl (runStep_spec hnext)
  | environment processes jiffies =>
    cases hnext
    exact ⟨hm.emptied, hm.ended, hm.pushedFreed, hm.queuedDestroyed⟩

/-- A cancellation under a run loses. -/
theorem lost (hm : Ending m) {label : UnloadLabel} (hcondition : ¬ m.CancelsIdle label)
    (hnext : m.next label = some later) : Lost later := by
  cases label with
  | destroy =>
    obtain ⟨hcancel, hbusy⟩ := Classical.not_imp.mp hcondition
    have hstep := destroyStep_spec hnext
    rw [hcancel] at hstep
    cases hstep with
    | cancel =>
      have hnil := hm.emptied (hcancel ▸ DestroyPc.noConfusion) (hcancel ▸ DestroyPc.noConfusion)
      exact ⟨hnil, rfl, .inr hbusy⟩
    | goOn hcancelled _ => cases hcancelled
  | timer | worker | environment => exact absurd trivial hcondition

end Ending

namespace Lost

/-- A step of `TaskList_destroy` changes neither the list nor the work any more. -/
theorem destroyStep (hm : Lost m) {pc : DestroyPc} (hpc : m.destroy = pc)
    (hstep : DestroyStep m pc later) : Lost later := by
  have hcancelled : pc.cancelled = true := hpc ▸ hm.cancelled
  cases hstep with
  | goOn _ hafter => exact ⟨hm.emptied, hafter, hm.goesOn⟩
  | lock | empty | remove | unlock | cancel => cases hcancelled

/-- A run ends with the work delayed: it meets no pid, as the list is empty. -/
theorem workerStep (hm : Lost m) {pc : RunPc} (hstep : RunStep m pc later) : Lost later := by
  cases hstep with
  | begin | lock | ended | unlock => exact ⟨hm.emptied, hm.cancelled, .inr RunPc.noConfusion⟩
  | dead htask =>
    rw [hm.emptied] at htask
    cases htask
  | sample htask sampled kernel =>
    rw [hm.emptied] at htask
    cases htask
  | requeue =>
    refine ⟨hm.emptied, hm.cancelled, .inl ?_⟩
    show (if m.work = .free then WorkPlace.delayed else m.work) ≠ .free
    split_ifs with hfree
    · exact WorkPlace.noConfusion
    · exact hfree

/-- A lost run stays lost. -/
theorem next (hm : Lost m) {label : UnloadLabel} (hnext : m.next label = some later) :
    Lost later := by
  cases label with
  | destroy => exact hm.destroyStep rfl (destroyStep_spec hnext)
  | timer =>
    obtain ⟨-, rfl⟩ := Option.ite_none_right_eq_some.mp hnext |>.imp id Option.some.inj
    exact ⟨hm.emptied, hm.cancelled, .inl WorkPlace.noConfusion⟩
  | worker => exact hm.workerStep (runStep_spec hnext)
  | environment processes jiffies =>
    cases hnext
    exact ⟨hm.emptied, hm.cancelled, hm.goesOn⟩

/-- Sampling goes on after the unload. -/
theorem not_samplingEnds (hm : Lost m) (hreturned : m.destroy = .returned) : ¬ m.SamplingEnds := by
  rintro ⟨hended, -⟩
  obtain ⟨hfree, hidle⟩ := hended hreturned
  exact hm.goesOn.elim (fun hwork ↦ hwork hfree) (fun hhandler ↦ hhandler hidle)

end Lost

end Unloading

/-! ### The law along runs -/

/-- For every list and every run, sampling ends with the unload if no run of the handler is in
progress when the work is cancelled; and only if so, in a run in which `TaskList_destroy` returns.
-/
theorem always_samplingEnds_iff (tl : List Mp3TaskStruct) (kernel : Kernel) (work : WorkPlace)
    (labels : List UnloadLabel) :
    (Meets Unloading.next Unloading.CancelsIdle (Unloading.start tl kernel work) labels →
      Always Unloading.next Unloading.SamplingEnds (Unloading.start tl kernel work) labels) ∧
    ∀ last, run Unloading.next (Unloading.start tl kernel work) labels = some last →
      last.destroy = .returned →
      Always Unloading.next Unloading.SamplingEnds (Unloading.start tl kernel work) labels →
      Meets Unloading.next Unloading.CancelsIdle (Unloading.start tl kernel work) labels := by
  have hkeep : ∀ (before : Unloading) (label : UnloadLabel) (later : Unloading),
      before.Ending → before.next label = some later → before.CancelsIdle label → later.Ending :=
    fun _ _ _ hbefore hnext hcondition ↦ hbefore.next hcondition hnext
  refine ⟨?_, fun last hrun hreturned halways ↦ ?_⟩
  · exact Meets.always Unloading.Ending (fun _ hm ↦ hm.samplingEnds) hkeep (.start tl kernel work)
  · exact halways.meets_of_final Unloading.Ending Unloading.Lost hkeep
      (fun _ _ _ hbefore hnext hcondition ↦ hbefore.lost hcondition hnext)
      (fun _ _ _ hbefore hnext ↦ hbefore.next hnext) (fun _ hlost ↦ hlost.not_samplingEnds)
      (.start tl kernel work) hrun hreturned

/-- The steps that unload a list of one task. -/
def unloadOne (worker : List UnloadLabel) : List UnloadLabel :=
  List.replicate 6 .destroy ++ worker ++ List.replicate 3 .destroy

/-- A task is sampled once before the unload. -/
theorem always_samplingEnds_sampled :
    Always Unloading.next Unloading.SamplingEnds
      (Unloading.start [⟨none, 7, 0, 0, 0, 0, 0⟩]
        ⟨fun _ ↦ some ⟨1, 2, 3, 4⟩, 0, taskListInit, [], []⟩ .delayed)
      (.timer :: List.replicate 6 .worker ++ unloadOne []) :=
  (always_samplingEnds_iff _ _ .delayed _).1 (by decide +kernel)

/-- A run of the handler begins before the work is cancelled and goes on while the flush waits for
it: the work is delayed when the buffer is freed. -/
theorem not_samplingEnds_requeued :
    ¬ ∀ (tl : List Mp3TaskStruct) (kernel : Kernel) (work : WorkPlace)
      (labels : List UnloadLabel),
      Always Unloading.next Unloading.SamplingEnds (Unloading.start tl kernel work) labels := by
  intro hall
  have hrequeued : ¬ Always Unloading.next Unloading.SamplingEnds
      (Unloading.start [⟨none, 7, 0, 0, 0, 0, 0⟩]
        ⟨fun _ ↦ some ⟨1, 2, 3, 4⟩, 0, taskListInit, [], []⟩ .queued)
      (.worker :: unloadOne (List.replicate 4 .worker)) :=
    not_always_of_run (by decide +kernel)
  exact hrequeued (hall _ _ _ _)

end KernelModules.FaultProfiler
