import KernelModules.FaultProfiler.SamplingMachine
import KernelModules.Foundation.SerialOrder

/-!
# Serializability of the task list

Concurrent calls of `Task_register` and `Task_deregister` should leave the task list and the return
codes of some order of the calls, and no pid twice in the list (`Linearizable`). `Task_register`
looks for the pid without `lock`, and takes `lock` only to add its record.

A registration takes effect where it adds its record, or at the scan that finds the pid; a removal
at its search. `always_linearizable_iff_meets` says that the law holds along a run exactly when
every record is added while its pid is not listed.
-/

set_option autoImplicit false
set_option relaxedAutoImplicit false

namespace KernelModules.FaultProfiler

open Foundation

variable {ι : Type*}

/-! ### The law -/

/-- Runs the call of a thread from its first statement to its last. -/
def performCall (calls : ι → Call) (s : Mp3) (i : ι) : ℤ × Mp3 :=
  match calls i with
  | .register pid => s.taskRegister pid
  | .deregister pid => s.taskDeregister pid

/-- The listed pids and the return codes are those of the ended calls, run one after another in some
order from an empty list. -/
def Serializable (kernel : Kernel) (calls : ι → Call) (m : Machine ι) : Prop :=
  ∃ order : List ι, order.Nodup ∧ (∀ i, i ∈ order ↔ (m.threads i).result ≠ none) ∧
    m.mp3.pids = (serialState (performCall calls) ⟨[], false, kernel⟩ order).pids ∧
    ∀ i ret, (m.threads i).result = some ret →
      (i, ret) ∈ serialResults (performCall calls) ⟨[], false, kernel⟩ order

/-- The number of samples of a pid that one run of the handler pushes. -/
def Mp3.rowsOfTick (s : Mp3) (pid : Int32) : ℕ :=
  (s.wqHandler.kernel.pushed.drop s.kernel.pushed.length).countP fun sample ↦ sample.pid = pid

/-- No pid is listed twice, a run of the handler pushes at most one row for a pid, a removal removes
its pid, and once no call is in progress the list and the return codes are those of a serial order.
-/
structure Linearizable (kernel : Kernel) (calls : ι → Call) (m : Machine ι) : Prop where
  nodup : m.mp3.pids.Nodup
  rows_le : ∀ pid, m.mp3.rowsOfTick pid ≤ 1
  removed : ∀ pid, pid ∉ (m.mp3.taskDeregister pid).2.pids
  serializable : (∀ i, ¬ (m.threads i).InProgress) → Serializable kernel calls m

/-- A record is added while its pid is not listed. -/
def AddsNew (m : Machine ι) : Label ι → Prop
  | .thread i => ∀ task, m.threads i = .registerAdd task → task.pid ∉ m.mp3.pids
  | _ => True

/-! ### Calls run alone -/

/-- A registration of a listed pid, run alone. -/
theorem performCall_duplicate {calls : ι → Call} {s : Mp3} {i : ι} {pid : Int32}
    (hcall : calls i = .register pid) (hpid : pid ∈ s.pids) : performCall calls s i = (-1, s) := by
  simp only [performCall, hcall, Mp3.taskRegister, (s.listed_iff pid).mpr hpid, if_true]

/-- A registration of a pid that is not listed, run alone. -/
theorem performCall_register {calls : ι → Call} {s : Mp3} {i : ι} {pid : Int32}
    (hcall : calls i = .register pid) (hpid : pid ∉ s.pids) :
    (performCall calls s i).1 = 0 ∧ (performCall calls s i).2.pids = s.pids ++ [pid] := by
  rw [← s.listed_iff pid] at hpid
  simp only [performCall, hcall, Mp3.taskRegister, if_neg hpid]
  refine ⟨trivial, ?_⟩
  rw [Mp3.pids_listAddTail, Mp3.pids, Mp3.tl_queueIfEmpty]
  rfl

/-- The pids after a removal, run alone. -/
theorem pids_taskDeregister (s : Mp3) (pid : Int32) :
    (s.taskDeregister pid).2.pids = s.pids.erase pid := by
  unfold Mp3.taskDeregister
  split_ifs with hlisted hempty
  · exact s.pids_listDel pid
  · exact s.pids_listDel pid
  · rw [s.listed_iff] at hlisted
    exact (List.erase_of_not_mem hlisted).symm

/-- The code of a removal, run alone. -/
theorem taskDeregister_fst (s : Mp3) (pid : Int32) :
    (s.taskDeregister pid).1 = if pid ∈ s.pids then 0 else -1 := by
  unfold Mp3.taskDeregister
  simp only [s.listed_iff]
  split_ifs <;> rfl

/-! ### Lists without repetition -/

/-- A list that does not list a pid twice gets at most one row for a pid in a run of the handler. -/
theorem Mp3.rowsOfTick_le_one {s : Mp3} (hnodup : s.pids.Nodup) (pid : Int32) :
    s.rowsOfTick pid ≤ 1 := by
  obtain ⟨samples, hpushed, hpids⟩ := pushed_traverse s.tl s.kernel
  have hkernel : s.wqHandler.kernel.pushed = s.kernel.pushed ++ samples := by
    unfold Mp3.wqHandler
    split_ifs <;> exact hpushed
  rw [Mp3.rowsOfTick, hkernel, List.drop_left]
  have hsamples : (samples.map Sample.pid).Nodup := hnodup.sublist hpids.sublist
  calc samples.countP (fun sample ↦ sample.pid = pid)
      = (samples.map Sample.pid).countP (fun other ↦ other = pid) := by
        rw [List.countP_map]
        rfl
    _ ≤ 1 := List.nodup_iff_count_le_one.mp hsamples pid

/-! ### The relation -/

/-- What is known of a call by where its thread is: the call has taken effect once its record is
added, its search is done, or its scan has found the pid. -/
def Phase (calls : ι → Call) (results : List (ι × ℤ)) (i : ι) : Pc → Prop
  | .start call => call = calls i ∧ ∀ ret, (i, ret) ∉ results
  | .registerAlloc pid => calls i = .register pid ∧ ∀ ret, (i, ret) ∉ results
  | .registerLock task => calls i = .register task.pid ∧ ∀ ret, (i, ret) ∉ results
  | .registerQueue task => calls i = .register task.pid ∧ ∀ ret, (i, ret) ∉ results
  | .registerAdd task => calls i = .register task.pid ∧ ∀ ret, (i, ret) ∉ results
  | .deregisterSearch pid => calls i = .deregister pid ∧ ∀ ret, (i, ret) ∉ results
  | .deregisterCancel => (i, 0) ∈ results
  | .deregisterFlush => (i, 0) ∈ results
  | .deregisterWait _ => (i, 0) ∈ results
  | .unlock ret => (i, ret) ∈ results
  | .done ret => (i, ret) ∈ results

/-- A call that takes effect leaves what is known of the others. -/
theorem Phase.append {calls : ι → Call} {results : List (ι × ℤ)} {i j : ι} {pc : Pc}
    (hpc : Phase calls results j pc) (hj : j ≠ i) (ret : ℤ) :
    Phase calls (results ++ [(i, ret)]) j pc := by
  have hnew : ∀ code, (j, code) ∈ results ++ [(i, ret)] ↔ (j, code) ∈ results := by
    intro code
    rw [List.mem_append, List.mem_singleton, Prod.mk.injEq]
    exact or_iff_left fun hboth ↦ hj hboth.1
  cases pc <;> simpa only [Phase, hnew] using hpc

/-- A state of the machine, and the state and the results of the calls that have taken effect: the
lists agree and have no pid twice, and every thread is where its call says. -/
structure Serialized (calls : ι → Call) (m : Machine ι) (a : Mp3) (results : List (ι × ℤ)) :
    Prop where
  pids : a.pids = m.mp3.pids
  nodup : m.mp3.pids.Nodup
  phase : ∀ i, Phase calls results i (m.threads i)

/-- The machine obeys the law where it is related to a serial order. -/
theorem Serialized.linearizable {kernel : Kernel} {calls : ι → Call} {m : Machine ι}
    {order : List ι} (horder : order.Nodup)
    (hm : Serialized calls m (serialState (performCall calls) ⟨[], false, kernel⟩ order)
      (serialResults (performCall calls) ⟨[], false, kernel⟩ order)) :
    Linearizable kernel calls m where
  nodup := hm.nodup
  rows_le := Mp3.rowsOfTick_le_one hm.nodup
  removed := fun pid ↦ by
    rw [pids_taskDeregister]
    exact hm.nodup.not_mem_erase
  serializable := by
    intro hquiescent
    refine ⟨order, horder, fun i ↦ ?_, hm.pids.symm, fun i ret hret ↦ ?_⟩
    · rw [← map_fst_serialResults (performCall calls) ⟨[], false, kernel⟩ order]
      have hphase := hm.phase i
      have hidle := hquiescent i
      cases hpc : m.threads i with
      | start call =>
        rw [hpc] at hphase
        refine iff_of_false (fun hmem ↦ ?_) (not_not.mpr rfl)
        obtain ⟨⟨j, ret⟩, hresult, rfl⟩ := List.mem_map.mp hmem
        exact hphase.2 ret hresult
      | done ret =>
        rw [hpc] at hphase
        exact iff_of_true (List.mem_map.mpr ⟨_, hphase, rfl⟩) (by simp [Pc.result])
      | _ => exact absurd trivial (by rw [hpc] at hidle; exact hidle)
    · have hphase := hm.phase i
      cases hpc : m.threads i with
      | done code =>
        rw [hpc] at hphase hret
        cases hret
        exact hphase
      | _ =>
        rw [hpc] at hret
        cases hret

/-! ### Steps -/

variable [DecidableEq ι]

namespace Serialized

variable {calls : ι → Call} {m later : Machine ι} {a : Mp3} {results : List (ι × ℤ)} {i : ι}

/-- A thread goes on, with the list unchanged and no call taking effect. -/
theorem keep (hm : Serialized calls m a results) {pc : Pc}
    (hthreads : later.threads = Function.update m.threads i pc)
    (hpids : later.mp3.pids = m.mp3.pids) (hpc : Phase calls results i pc) :
    Serialized calls later a results := by
  refine ⟨hm.pids.trans hpids.symm, hpids ▸ hm.nodup, fun j ↦ ?_⟩
  rw [hthreads]
  by_cases hj : j = i
  · rw [hj, Function.update_self]
    exact hpc
  · rw [Function.update_of_ne hj]
    exact hm.phase j

/-- The call of a thread takes effect. -/
theorem applied (hm : Serialized calls m a results) {pc : Pc}
    (hthreads : later.threads = Function.update m.threads i pc)
    (hpids : (performCall calls a i).2.pids = later.mp3.pids) (hnodup : later.mp3.pids.Nodup)
    (hpc : Phase calls (results ++ [(i, (performCall calls a i).1)]) i pc) :
    Serialized calls later (performCall calls a i).2
      (results ++ [(i, (performCall calls a i).1)]) := by
  refine ⟨hpids, hnodup, fun j ↦ ?_⟩
  rw [hthreads]
  by_cases hj : j = i
  · rw [hj, Function.update_self]
    exact hpc
  · rw [Function.update_of_ne hj]
    exact (hm.phase j).append hj _

/-- A removal takes effect at its search. -/
theorem search (hm : Serialized calls m a results) {pid : Int32} {pc : Pc}
    (hcall : calls i = .deregister pid)
    (hthreads : later.threads = Function.update m.threads i pc)
    (hpids : later.mp3.pids = m.mp3.pids.erase pid)
    (hpc : Phase calls (results ++ [(i, if pid ∈ m.mp3.pids then 0 else -1)]) i pc) :
    Serialized calls later (performCall calls a i).2
      (results ++ [(i, (performCall calls a i).1)]) := by
  have hperform : performCall calls a i = a.taskDeregister pid := by simp only [performCall, hcall]
  refine hm.applied hthreads ?_ (hpids ▸ hm.nodup.erase pid) ?_
  · rw [hperform, pids_taskDeregister, hm.pids, hpids]
  · rw [hperform, taskDeregister_fst, hm.pids]
    exact hpc

omit [DecidableEq ι] in
/-- A call that has not taken effect is not among the results. -/
theorem not_mem_results (hnew : ∀ ret, (i, ret) ∉ results) : i ∉ results.map Prod.fst := by
  intro hmem
  obtain ⟨⟨j, ret⟩, hresult, rfl⟩ := List.mem_map.mp hmem
  exact hnew ret hresult

omit [DecidableEq ι] in
/-- A removal of a listed pid takes effect with 0. -/
theorem mem_results_of_listed {pid : Int32} (hpid : m.mp3.listed pid = true) :
    (i, (0 : ℤ)) ∈ results ++ [(i, if pid ∈ m.mp3.pids then 0 else -1)] := by
  rw [if_pos ((Mp3.listed_iff m.mp3 pid).mp hpid)]
  exact List.mem_append_right _ (List.mem_singleton_self _)

/-- A step of a thread keeps the relation, or its call takes effect. -/
theorem threadStep (hm : Serialized calls m a results) {pc : Pc} (hi : m.threads i = pc)
    (hcondition : AddsNew m (.thread i)) (hstep : ThreadStep m i pc later) :
    Serialized calls later a results ∨ ∃ call, call ∉ results.map Prod.fst ∧
      Serialized calls later (performCall calls a call).2
        (results ++ [(call, (performCall calls a call).1)]) := by
  have hphase := hm.phase i
  rw [hi] at hphase
  cases hstep with
  | @duplicate pid hpid =>
    obtain ⟨hcall, hnew⟩ := hphase
    refine Or.inr ⟨i, not_mem_results hnew, ?_⟩
    rw [Mp3.listed_iff, ← hm.pids] at hpid
    have hperform := performCall_duplicate hcall.symm hpid
    refine hm.applied rfl (by rw [hperform]; exact hm.pids) hm.nodup ?_
    rw [hperform]
    exact List.mem_append_right _ (List.mem_singleton_self _)
  | unlisted hpid => exact Or.inl (hm.keep rfl rfl ⟨hphase.1.symm, hphase.2⟩)
  | alloc => exact Or.inl (hm.keep rfl rfl hphase)
  | lockRegister howner => exact Or.inl (hm.keep rfl rfl hphase)
  | queue =>
    refine Or.inl (hm.keep rfl ?_ hphase)
    rw [Machine.change_mp3, Mp3.pids, Mp3.tl_queueIfEmpty, Mp3.pids]
  | @add task =>
    obtain ⟨hcall, hnew⟩ := hphase
    have hpid := hcondition task hi
    obtain ⟨hret, hpids⟩ := performCall_register hcall (hm.pids ▸ hpid)
    refine Or.inr ⟨i, not_mem_results hnew, hm.applied rfl ?_ ?_ ?_⟩
    · rw [hpids, hm.pids, Machine.change_mp3, Mp3.pids_listAddTail]
    · rw [Machine.change_mp3, Mp3.pids_listAddTail]
      rw [← List.concat_eq_append]
      exact hm.nodup.concat hpid
    · rw [hret]
      exact List.mem_append_right _ (List.mem_singleton_self _)
  | lockDeregister howner => exact Or.inl (hm.keep rfl rfl ⟨hphase.1.symm, hphase.2⟩)
  | @notFound pid hpid =>
    obtain ⟨hcall, hnew⟩ := hphase
    have hpid' : pid ∉ m.mp3.pids := by
      rw [← Mp3.listed_iff, hpid]
      exact Bool.false_ne_true
    refine Or.inr ⟨i, not_mem_results hnew, hm.search hcall rfl ?_ ?_⟩
    · exact (List.erase_of_not_mem hpid').symm
    · rw [if_neg hpid']
      exact List.mem_append_right _ (List.mem_singleton_self _)
  | @removeLast pid hpid hlast =>
    obtain ⟨hcall, hnew⟩ := hphase
    refine Or.inr ⟨i, not_mem_results hnew, hm.search hcall rfl (m.mp3.pids_listDel pid) ?_⟩
    exact mem_results_of_listed hpid
  | @remove pid hpid hrest =>
    obtain ⟨hcall, hnew⟩ := hphase
    refine Or.inr ⟨i, not_mem_results hnew, hm.search hcall rfl (m.mp3.pids_listDel pid) ?_⟩
    exact mem_results_of_listed hpid
  | cancel => exact Or.inl (hm.keep rfl rfl hphase)
  | flush => exact Or.inl (hm.keep rfl rfl hphase)
  | flushed hended => exact Or.inl (hm.keep rfl rfl hphase)
  | unlock => exact Or.inl (hm.keep rfl rfl hphase)

omit [DecidableEq ι] in
/-- A step that changes neither the pids nor the threads keeps the relation. -/
theorem same (hm : Serialized calls m a results) (hthreads : later.threads = m.threads)
    (hpids : later.mp3.pids = m.mp3.pids) : Serialized calls later a results :=
  ⟨hm.pids.trans hpids.symm, hpids ▸ hm.nodup, hthreads ▸ hm.phase⟩

/-- Every step keeps the relation, or one more call takes effect. -/
theorem next (hm : Serialized calls m a results) {label : Label ι}
    (hcondition : AddsNew m label) (hnext : next m label = some later) :
    Serialized calls later a results ∨ ∃ call, call ∉ results.map Prod.fst ∧
      Serialized calls later (performCall calls a call).2
        (results ++ [(call, (performCall calls a call).1)]) := by
  cases label with
  | thread i => exact hm.threadStep rfl hcondition (threadStep_spec hnext)
  | timer =>
    obtain ⟨-, -, rfl⟩ := timerStep_eq_some hnext
    exact Or.inl (hm.same rfl rfl)
  | worker =>
    refine Or.inl ?_
    have hstep := workerStep_spec hnext
    generalize m.handler = pc at hstep
    cases hstep with
    | begin hqueued => exact hm.same rfl rfl
    | traverse howner hlive => exact hm.same rfl m.mp3.pids_sample
    | abort howner hdead => exact hm.same rfl m.mp3.pids_sample
    | unlock => exact hm.same rfl rfl
    | requeue => exact hm.same rfl rfl
  | environment processes jiffies =>
    rw [← Option.some.inj hnext]
    exact Or.inl (hm.same rfl rfl)

end Serialized

/-! ### The law along runs -/

/-- In every run in which records are added while their pid is not listed, the law holds. -/
theorem linearizable_of_reachable {kernel : Kernel} {calls : ι → Call} {m : Machine ι}
    (hreach : ReachableUnder next AddsNew (Machine.start kernel calls) m) :
    Linearizable kernel calls m := by
  have hstart : Serialized calls (Machine.start kernel calls) ⟨[], false, kernel⟩ [] := by
    refine ⟨rfl, List.nodup_nil, fun i ↦ ⟨rfl, fun _ hmem ↦ ?_⟩⟩
    cases hmem
  obtain ⟨order, horder, hm⟩ := hreach.exists_serialOrder (performCall calls) hstart
    fun _ _ _ _ _ hbefore hcondition hnext ↦ hbefore.next hcondition hnext
  exact Serialized.linearizable horder hm

/-- A record that is added while its pid is listed leaves the pid twice in the list. -/
theorem not_linearizable_of_not_addsNew {kernel : Kernel} {calls : ι → Call} {m later : Machine ι}
    {label : Label ι} (hnext : next m label = some later) (hcondition : ¬ AddsNew m label) :
    ¬ Linearizable kernel calls later := by
  cases label with
  | thread i =>
    simp only [AddsNew, not_forall, not_not] at hcondition
    obtain ⟨task, hi, hpid⟩ := hcondition
    simp only [next, threadStep, hi] at hnext
    intro hlater
    have hnodup := hlater.nodup
    rw [← Option.some.inj hnext, Machine.change_mp3, Mp3.pids_listAddTail] at hnodup
    exact (List.nodup_append.mp hnodup).2.2 _ hpid _ (List.mem_singleton_self _) rfl
  | timer => exact absurd trivial hcondition
  | worker => exact absurd trivial hcondition
  | environment processes jiffies => exact absurd trivial hcondition

/-- Along every run of the calls, the handler and the rest of the kernel, the list and the codes are
those of a serial order, and no pid is listed twice, if and only if every record is added while its
pid is not listed. -/
theorem always_linearizable_iff_meets (kernel : Kernel) (calls : ι → Call)
    (labels : List (Label ι)) :
    Always next (Linearizable kernel calls) (Machine.start kernel calls) labels ↔
      Meets next AddsNew (Machine.start kernel calls) labels :=
  always_iff_meets (ReachableUnder next AddsNew (Machine.start kernel calls))
    (fun _ hreach ↦ linearizable_of_reachable hreach)
    (fun _ _ _ hreach hnext hcondition ↦ hreach.step hcondition hnext)
    (fun _ _ _ _ hnext hcondition ↦ not_linearizable_of_not_addsNew hnext hcondition) .refl labels

/-- Two threads scan for the same pid before either adds its record, and both add it. -/
theorem exists_not_linearizable : ∃ m, Reachable next
    (Machine.start (kernelOf [5]) fun _ : Bool ↦ .register 5) m ∧
      ¬ Linearizable (kernelOf [5]) (fun _ : Bool ↦ .register 5) m := by
  obtain ⟨m, hreach, hpids⟩ : ∃ m, Reachable next
      (Machine.start (kernelOf [5]) fun _ : Bool ↦ .register 5) m ∧ m.mp3.pids = [5, 5] :=
    exists_reachableUnder_of_run
      (Label.steps false 1 ++ Label.steps true 1 ++ Label.steps false 5 ++ Label.steps true 5)
      (by decide +kernel) (by decide +kernel)
  refine ⟨m, hreach, fun hm ↦ ?_⟩
  have hnodup := hm.nodup
  rw [hpids] at hnodup
  exact absurd hnodup (by decide)

end KernelModules.FaultProfiler
