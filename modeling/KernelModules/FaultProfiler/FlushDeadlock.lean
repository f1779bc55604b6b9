import KernelModules.FaultProfiler.SamplingMachine

/-!
# Deadlocks between deregistration and sampling

`Task_deregister` calls `flush_workqueue` while it holds `lock`, and a run of `wq_handler` that it
waits for may itself be waiting for `lock`. That is so when the sampling starts, or its work becomes
due, while the last task is removed (`Apart`). A traversal that meets a pid without a process
returns with `lock` held, and nobody drops it.

`deadlockFree_of_reachable` says that these are the only deadlocks: in every run in which sampling
and the removal of the last task stay apart, and every traversal finds the processes of all listed
pids, there is no cycle of waits, and some step is possible while a call or a run of the handler is
unfinished.
-/

set_option autoImplicit false
set_option relaxedAutoImplicit false

namespace KernelModules.FaultProfiler

open Foundation

variable {ι : Type*}

/-! ### The law -/

/-- A thread waits in `flush_workqueue`. -/
def InFlush (m : Machine ι) : Pc → Prop
  | .deregisterWait run => ¬ m.Flushed run
  | _ => False

/-- A thread holds `lock` and waits in `flush_workqueue`, and the handler waits for `lock`. -/
def WaitCycle (m : Machine ι) : Prop :=
  ∃ i, InFlush m (m.threads i) ∧ m.owner = some (.thread i) ∧ m.handler = .atLock

/-- A call has not returned, or a run of the handler has not. -/
def Unfinished (m : Machine ι) : Prop := (∃ i, (m.threads i).result = none) ∨ m.handler ≠ .idle

variable [DecidableEq ι]

/-- A thread or the worker has a step. -/
def CanStep (m : Machine ι) : Prop :=
  (∃ i, (threadStep m i).isSome = true) ∨ (workerStep m).isSome = true

/-- There is no cycle of waits, and some step is possible while anything is unfinished. -/
def DeadlockFree (m : Machine ι) : Prop := ¬ WaitCycle m ∧ (Unfinished m → CanStep m)

/-- The pid is that of the last task in the list. -/
def Mp3.IsLast (s : Mp3) (pid : Int32) : Prop := s.listed pid = true ∧ (s.listDel pid).tl = []

/-- A thread is about to take `lock` to remove the last task. -/
def StartsRemoval (m : Machine ι) : Pc → Prop
  | .start (.deregister pid) => m.mp3.IsLast pid
  | _ => False

/-- A thread has taken `lock` to remove the last task, and has not called `flush_workqueue`. -/
def Removing (m : Machine ι) : Pc → Prop
  | .deregisterSearch pid => m.mp3.IsLast pid
  | .deregisterCancel => True
  | .deregisterFlush => True
  | _ => False

/-- Sampling and the removal of the last task stay apart: `lock` is not taken for the removal while
a run of the handler waits for it, no run starts from then on until the flush, and no work becomes
due between the cancellation and the flush. A traversal finds the processes of all listed pids. -/
def Apart (m : Machine ι) : Label ι → Prop
  | .thread i => StartsRemoval m (m.threads i) → m.handler ≠ .atLock
  | .timer => ∀ i, m.threads i ≠ .deregisterFlush
  | .worker => (m.handler = .idle → ∀ i, ¬ Removing m (m.threads i)) ∧
      (m.handler = .atLock → ∀ task ∈ m.mp3.tl, (m.mp3.kernel.processes task.pid).isSome = true)
  | .environment _ _ => True

instance (s : Mp3) (pid : Int32) : Decidable (s.IsLast pid) :=
  inferInstanceAs (Decidable (s.listed pid = true ∧ (s.listDel pid).tl = []))

instance (m : Machine ι) : DecidablePred (StartsRemoval m)
  | .start (.deregister pid) => inferInstanceAs (Decidable (m.mp3.IsLast pid))
  | .start (.register _) => isFalse not_false
  | .registerAlloc _ => isFalse not_false
  | .registerLock _ => isFalse not_false
  | .registerQueue _ => isFalse not_false
  | .registerAdd _ => isFalse not_false
  | .deregisterSearch _ => isFalse not_false
  | .deregisterCancel => isFalse not_false
  | .deregisterFlush => isFalse not_false
  | .deregisterWait _ => isFalse not_false
  | .unlock _ => isFalse not_false
  | .done _ => isFalse not_false

instance (m : Machine ι) : DecidablePred (Removing m)
  | .deregisterSearch pid => inferInstanceAs (Decidable (m.mp3.IsLast pid))
  | .deregisterCancel => isTrue trivial
  | .deregisterFlush => isTrue trivial
  | .start _ => isFalse not_false
  | .registerAlloc _ => isFalse not_false
  | .registerLock _ => isFalse not_false
  | .registerQueue _ => isFalse not_false
  | .registerAdd _ => isFalse not_false
  | .deregisterWait _ => isFalse not_false
  | .unlock _ => isFalse not_false
  | .done _ => isFalse not_false

instance [Fintype ι] (m : Machine ι) (label : Label ι) : Decidable (Apart m label) :=
  match label with
  | .thread i => inferInstanceAs (Decidable (StartsRemoval m (m.threads i) → m.handler ≠ .atLock))
  | .timer => inferInstanceAs (Decidable (∀ i, m.threads i ≠ .deregisterFlush))
  | .worker => inferInstanceAs (Decidable ((m.handler = .idle → ∀ i, ¬ Removing m (m.threads i)) ∧
      (m.handler = .atLock →
        ∀ task ∈ m.mp3.tl, (m.mp3.kernel.processes task.pid).isSome = true)))
  | .environment _ _ => isTrue trivial

instance (m : Machine ι) : DecidablePred (InFlush m)
  | .deregisterWait run => inferInstanceAs (Decidable (¬ m.Flushed run))
  | .start _ => isFalse not_false
  | .registerAlloc _ => isFalse not_false
  | .registerLock _ => isFalse not_false
  | .registerQueue _ => isFalse not_false
  | .registerAdd _ => isFalse not_false
  | .deregisterSearch _ => isFalse not_false
  | .deregisterCancel => isFalse not_false
  | .deregisterFlush => isFalse not_false
  | .unlock _ => isFalse not_false
  | .done _ => isFalse not_false

instance [Fintype ι] (m : Machine ι) : Decidable (WaitCycle m) :=
  inferInstanceAs (Decidable (∃ i, InFlush m (m.threads i) ∧ m.owner = some (.thread i) ∧
    m.handler = .atLock))

instance [Fintype ι] (m : Machine ι) : Decidable (Unfinished m) :=
  inferInstanceAs (Decidable ((∃ i, (m.threads i).result = none) ∨ m.handler ≠ .idle))

instance [Fintype ι] (m : Machine ι) : Decidable (CanStep m) :=
  inferInstanceAs (Decidable ((∃ i, (threadStep m i).isSome = true) ∨
    (workerStep m).isSome = true))

instance [Fintype ι] (m : Machine ι) : Decidable (DeadlockFree m) :=
  inferInstanceAs (Decidable (¬ WaitCycle m ∧ (Unfinished m → CanStep m)))

/-! ### Who waits for whom -/

/-- The handler has dropped `lock`, or does not run. -/
def HandlerPc.Clear (pc : HandlerPc) : Prop := pc = .idle ∨ pc = .requeue

/-- The handler holds `lock` only between its traversal and its unlock. It is clear of `lock` while
the last task is removed, when the flush is called no work is in the queue, and a thread that waits
for a run that has not ended waits for one that is clear of `lock`. -/
structure Unblocked (m : Machine ι) : Prop where
  lockHeld : LockHeld m
  handler : m.owner = some .handler → m.handler = .traversed
  removing : ∀ i, Removing m (m.threads i) → m.handler.Clear
  cancelled : ∀ i, m.threads i = .deregisterFlush → m.queued = false
  waits : ∀ i run, m.threads i = .deregisterWait run →
    run ≤ m.runs ∧ (m.runs = run → m.handler.Clear)

omit [DecidableEq ι] in
/-- A thread that removes the last task holds `lock`. -/
theorem Removing.holds {m : Machine ι} {pc : Pc} (hpc : Removing m pc) : pc.Holds := by
  cases pc with
  | deregisterSearch pid => trivial
  | deregisterCancel => trivial
  | deregisterFlush => trivial
  | _ => exact hpc.elim

omit [DecidableEq ι] in
/-- Whether a thread removes the last task depends on the list. -/
theorem Removing.of_tl {m later : Machine ι} (htl : later.mp3.tl = m.mp3.tl) {pc : Pc}
    (hpc : Removing later pc) : Removing m pc := by
  cases pc with
  | deregisterSearch pid =>
    obtain ⟨hlisted, hlast⟩ := hpc
    refine ⟨?_, ?_⟩
    · rw [Mp3.listed, ← htl]
      exact hlisted
    · rw [Mp3.listDel_tl, ← htl]
      exact hlast
  | deregisterCancel => trivial
  | deregisterFlush => trivial
  | _ => exact hpc.elim

namespace Unblocked

variable {m later : Machine ι} {i : ι}

/-- A thread that holds `lock` can go on, or waits for a run of the handler that can. -/
theorem canStep_of_holds (hm : Unblocked m) (hi : (m.threads i).Holds) : CanStep m := by
  cases hpc : m.threads i with
  | registerQueue task => exact Or.inl ⟨i, by rw [threadStep, hpc]; rfl⟩
  | registerAdd task => exact Or.inl ⟨i, by rw [threadStep, hpc]; rfl⟩
  | deregisterSearch pid =>
    refine Or.inl ⟨i, ?_⟩
    rw [threadStep, hpc]
    dsimp only
    split_ifs <;> rfl
  | deregisterCancel => exact Or.inl ⟨i, by rw [threadStep, hpc]; rfl⟩
  | deregisterFlush => exact Or.inl ⟨i, by rw [threadStep, hpc]; rfl⟩
  | deregisterWait run =>
    by_cases hended : m.Flushed run
    · exact Or.inl ⟨i, by rw [threadStep, hpc]; simp only [if_pos hended, Option.isSome_some]⟩
    · obtain ⟨hle, hclear⟩ := hm.waits i run hpc
      have hlast : m.runs = run := (hle.eq_or_lt.resolve_right fun hlt ↦ hended (Or.inl hlt)).symm
      have hrequeue := (hclear hlast).resolve_left fun hidle ↦ hended (Or.inr ⟨hlast.symm, hidle⟩)
      exact Or.inr (by rw [workerStep, hrequeue]; rfl)
  | unlock ret => exact Or.inl ⟨i, by rw [threadStep, hpc]; rfl⟩
  | _ => exact absurd hi (by rw [hpc]; exact not_false)

/-- While nobody holds `lock`, a call that has not returned goes on. -/
theorem threadStep_isSome_of_free (hm : Unblocked m) (howner : m.owner = none)
    (hi : (m.threads i).result = none) : (threadStep m i).isSome = true := by
  have hfree : ¬ (m.threads i).Holds := fun hholds ↦ by
    cases howner.symm.trans ((hm.lockHeld.thread i).mp hholds)
  unfold threadStep
  cases hpc : m.threads i with
  | start call =>
    cases call with
    | register pid => rfl
    | deregister pid => simp [howner]
  | registerAlloc pid => rfl
  | registerLock task => simp [howner]
  | done ret =>
    rw [hpc] at hi
    cases hi
  | _ => exact absurd trivial (by rw [hpc] at hfree; exact hfree)

/-- Some step is possible while anything is unfinished. -/
theorem canStep (hm : Unblocked m) (hunfinished : Unfinished m) : CanStep m := by
  cases howner : m.owner with
  | none =>
    by_cases hidle : m.handler = .idle
    · obtain ⟨i, hi⟩ := hunfinished.resolve_right (not_not.mpr hidle)
      exact Or.inl ⟨i, hm.threadStep_isSome_of_free howner hi⟩
    · refine Or.inr ?_
      unfold workerStep
      cases hpc : m.handler with
      | idle => exact absurd hpc hidle
      | atLock => simp [howner]
      | traversed => rfl
      | requeue => rfl
  | some owner =>
    cases owner with
    | handler => exact Or.inr (by rw [workerStep, hm.handler howner]; rfl)
    | thread i => exact hm.canStep_of_holds ((hm.lockHeld.thread i).mpr howner)

omit [DecidableEq ι] in
/-- A handler that waits for `lock` is not clear of it. -/
theorem not_clear_of_atLock {pc : HandlerPc} (hlock : pc = .atLock) : ¬ pc.Clear := by
  rintro (hidle | hrequeue)
  · cases hlock.symm.trans hidle
  · cases hlock.symm.trans hrequeue

/-- There is no deadlock. -/
theorem deadlockFree (hm : Unblocked m) : DeadlockFree m := by
  refine ⟨?_, hm.canStep⟩
  rintro ⟨i, hflush, -, hlock⟩
  cases hpc : m.threads i with
  | deregisterWait run =>
    rw [hpc] at hflush
    obtain ⟨hle, hclear⟩ := hm.waits i run hpc
    have hlast := hle.eq_or_lt.resolve_right fun hlt ↦ hflush (Or.inl hlt)
    exact not_clear_of_atLock hlock (hclear hlast.symm)
  | _ =>
    rw [hpc] at hflush
    exact hflush

/-- A step of a thread, by what holds where it goes. It changes the list only while it holds `lock`,
and the handler holds `lock` afterwards only if it did before. -/
theorem update (hm : Unblocked m) {pc : Pc} (hlockHeld : LockHeld later)
    (hthreads : later.threads = Function.update m.threads i pc)
    (hhandler : later.handler = m.handler) (hruns : later.runs = m.runs)
    (howner : later.owner = some .handler → m.owner = some .handler)
    (hqueued : later.queued = true → m.queued = true)
    (htl : later.mp3.tl = m.mp3.tl ∨ (m.threads i).Holds)
    (hremoving : Removing later pc → m.handler.Clear)
    (hcancelled : pc = .deregisterFlush → later.queued = false)
    (hwaits : ∀ run, pc = .deregisterWait run → run ≤ m.runs ∧ (m.runs = run → m.handler.Clear)) :
    Unblocked later := by
  refine ⟨hlockHeld, fun hlater ↦ ?_, fun j hj ↦ ?_, fun j hj ↦ ?_, fun j run hj ↦ ?_⟩
  · rw [hhandler]
    exact hm.handler (howner hlater)
  · rw [hhandler]
    rw [hthreads] at hj
    by_cases heq : j = i
    · rw [heq, Function.update_self] at hj
      exact hremoving hj
    · rw [Function.update_of_ne heq] at hj
      refine hm.removing j (hj.of_tl (htl.resolve_right fun hholds ↦ heq ?_))
      -- both threads would hold `lock`
      have hself := (hm.lockHeld.thread i).mp hholds
      have hother := (hm.lockHeld.thread j).mp hj.holds
      exact Owner.thread.inj (Option.some.inj (hother.symm.trans hself))
  · rw [hthreads] at hj
    by_cases heq : j = i
    · rw [heq, Function.update_self] at hj
      exact hcancelled hj
    · rw [Function.update_of_ne heq] at hj
      refine Bool.eq_false_of_not_eq_true fun hlater ↦ ?_
      cases (hm.cancelled j hj).symm.trans (hqueued hlater)
  · rw [hhandler, hruns]
    rw [hthreads] at hj
    by_cases heq : j = i
    · rw [heq, Function.update_self] at hj
      exact hwaits run hj
    · rw [Function.update_of_ne heq] at hj
      exact hm.waits j run hj

/-- A step of a thread keeps the waits free. -/
theorem threadStep (hm : Unblocked m) {pc : Pc} (hi : m.threads i = pc)
    (hcondition : Apart m (.thread i)) (hstep : ThreadStep m i pc later) : Unblocked later := by
  have hlockHeld := hm.lockHeld.threadStep hi hstep
  have hremoving := hm.removing i
  have hholds : pc.Holds → (m.threads i).Holds := fun hpc ↦ hi ▸ hpc
  rw [hi] at hremoving
  cases hstep with
  | lockDeregister howner =>
    refine hm.update hlockHeld rfl rfl rfl (fun hhandler ↦ by cases hhandler) id (Or.inl rfl)
      (fun hlast ↦ ?_) (fun h ↦ by cases h) (fun _ h ↦ by cases h)
    have hlock : m.handler ≠ .atLock := hcondition (hi ▸ hlast)
    cases hhandler : m.handler with
    | idle => exact Or.inl rfl
    | atLock => exact absurd hhandler hlock
    | traversed => cases howner.symm.trans (hm.lockHeld.handler hhandler)
    | requeue => exact Or.inr rfl
  | removeLast hpid hlast =>
    exact hm.update hlockHeld rfl rfl rfl id id (Or.inr (hholds trivial))
      (fun _ ↦ hremoving ⟨hpid, hlast⟩) (fun h ↦ by cases h) (fun _ h ↦ by cases h)
  | cancel =>
    exact hm.update hlockHeld rfl rfl rfl id (fun h ↦ by cases h) (Or.inl rfl)
      (fun _ ↦ hremoving trivial) (fun _ ↦ rfl) (fun _ h ↦ by cases h)
  | flush =>
    refine hm.update hlockHeld rfl rfl rfl id id (Or.inl rfl) (fun h ↦ h.elim) (fun h ↦ by cases h)
      fun run hrun ↦ ?_
    rw [Pc.deregisterWait.injEq, hm.cancelled i hi] at hrun
    rw [← hrun]
    exact ⟨le_rfl, fun _ ↦ hremoving trivial⟩
  | lockRegister howner =>
    exact hm.update hlockHeld rfl rfl rfl (fun hhandler ↦ by cases hhandler) id (Or.inl rfl)
      (fun h ↦ h.elim) (fun h ↦ by cases h) (fun _ h ↦ by cases h)
  | unlock =>
    exact hm.update hlockHeld rfl rfl rfl (fun hhandler ↦ by cases hhandler) id (Or.inl rfl)
      (fun h ↦ h.elim) (fun h ↦ by cases h) (fun _ h ↦ by cases h)
  | queue =>
    exact hm.update hlockHeld rfl rfl rfl id id (Or.inr (hholds trivial)) (fun h ↦ h.elim)
      (fun h ↦ by cases h) (fun _ h ↦ by cases h)
  | add =>
    exact hm.update hlockHeld rfl rfl rfl id id (Or.inr (hholds trivial)) (fun h ↦ h.elim)
      (fun h ↦ by cases h) (fun _ h ↦ by cases h)
  | remove hpid hrest =>
    exact hm.update hlockHeld rfl rfl rfl id id (Or.inr (hholds trivial)) (fun h ↦ h.elim)
      (fun h ↦ by cases h) (fun _ h ↦ by cases h)
  | _ =>
    exact hm.update hlockHeld rfl rfl rfl id id (Or.inl rfl) (fun h ↦ h.elim) (fun h ↦ by cases h)
      (fun _ h ↦ by cases h)

omit [DecidableEq ι] in
/-- While no thread holds `lock`, no thread removes the last task or waits in a flush. -/
theorem of_free (hlockHeld : LockHeld later) (howner : ∀ i, later.owner ≠ some (.thread i))
    (hhandler : later.owner = some .handler → later.handler = .traversed) : Unblocked later := by
  have hfree : ∀ i, ¬ (later.threads i).Holds := fun i hholds ↦
    howner i ((hlockHeld.thread i).mp hholds)
  refine ⟨hlockHeld, hhandler, fun i hi ↦ absurd hi.holds (hfree i), fun i hi ↦ ?_,
    fun i run hi ↦ ?_⟩
  · exact absurd (by rw [hi]; trivial) (hfree i)
  · exact absurd (by rw [hi]; trivial) (hfree i)

omit [DecidableEq ι] in
/-- A step of the timer keeps the waits free. -/
theorem timerStep (hm : Unblocked m) (hcondition : Apart m .timer)
    (hstep : timerStep m = some later) : Unblocked later := by
  obtain ⟨-, -, rfl⟩ := timerStep_eq_some hstep
  exact ⟨⟨hm.lockHeld.thread, hm.lockHeld.handler⟩, hm.handler,
    fun i hi ↦ hm.removing i (hi.of_tl rfl), fun i hi ↦ absurd hi (hcondition i), hm.waits⟩

omit [DecidableEq ι] in
/-- A step of the worker keeps the waits free. -/
theorem workerStep (hm : Unblocked m) {pc : HandlerPc} (hpc : m.handler = pc)
    (hcondition : Apart m .worker) (hstep : WorkerStep m pc later) : Unblocked later := by
  have hlockHeld := hm.lockHeld.workerStep hpc hstep
  cases hstep with
  | begin hqueued =>
    refine ⟨hlockHeld, fun howner ↦ ?_, fun i hi ↦ ?_, fun i hi ↦ rfl, fun i run hi ↦ ?_⟩
    · cases hpc.symm.trans (hm.handler howner)
    · exact absurd (hi.of_tl rfl) (hcondition.1 hpc i)
    · have hrun := (hm.waits i run hi).1
      exact ⟨Nat.le_succ_of_le hrun, fun heq ↦ absurd heq (Nat.ne_of_gt (Nat.lt_succ_of_le hrun))⟩
  | traverse howner hlive =>
    exact of_free hlockHeld (fun i hi ↦ by cases hi) fun _ ↦ rfl
  | abort howner hdead =>
    obtain ⟨task, htask, hnone⟩ := aborted_traverse hdead
    have hsome := hcondition.2 hpc task htask
    rw [hnone] at hsome
    cases hsome
  | unlock => exact of_free hlockHeld (fun i hi ↦ by cases hi) fun howner ↦ by cases howner
  | requeue =>
    refine ⟨hlockHeld, fun howner ↦ ?_, fun i hi ↦ Or.inl rfl, hm.cancelled,
      fun i run hi ↦ ⟨(hm.waits i run hi).1, fun _ ↦ Or.inl rfl⟩⟩
    cases hpc.symm.trans (hm.handler howner)

end Unblocked

/-! ### The law along runs -/

/-- In every run in which sampling and the removal of the last task stay apart, and every traversal
finds the processes of all listed pids, there is no deadlock. -/
theorem deadlockFree_of_reachable {kernel : Kernel} {calls : ι → Call} {m : Machine ι}
    (hreach : ReachableUnder next Apart (Machine.start kernel calls) m) : DeadlockFree m := by
  refine Unblocked.deadlockFree (hreach.invariant Unblocked ?_ ?_)
  · refine Unblocked.of_free (LockHeld.start kernel calls) (fun i hi ↦ ?_) fun howner ↦ ?_
    · cases hi
    · cases howner
  · intro before label later hbefore hcondition hnext
    cases label with
    | thread i => exact hbefore.threadStep rfl hcondition (threadStep_spec hnext)
    | timer => exact hbefore.timerStep hcondition hnext
    | worker => exact hbefore.workerStep rfl hcondition (workerStep_spec hnext)
    | environment processes jiffies =>
      rw [← Option.some.inj hnext]
      exact ⟨⟨hbefore.lockHeld.thread, hbefore.lockHeld.handler⟩, hbefore.handler,
        fun i hi ↦ hbefore.removing i (hi.of_tl rfl), hbefore.cancelled, hbefore.waits⟩

/-- A pid is registered, sampled and deregistered, and the deregistration waits for a run of the
handler that has dropped `lock`. -/
theorem deadlockFree_flushing : ∃ m : Machine Bool,
    DeadlockFree m ∧ m.threads true = .deregisterWait 1 ∧ m.handler = .requeue := by
  obtain ⟨m, hreach, hm⟩ : ∃ m, ReachableUnder next Apart
      (Machine.start (kernelOf [5]) (registerAndDeregister 5)) m ∧
        (m.threads true = .deregisterWait 1 ∧ m.handler = .requeue) :=
    exists_reachableUnder_of_run
      (Label.steps false 6 ++ [.timer] ++ List.replicate 3 .worker ++ Label.steps true 4)
      (by decide +kernel) (by decide +kernel)
  exact ⟨m, deadlockFree_of_reachable hreach, hm⟩

/-- The handler starts while the last task is removed: the deregistration holds `lock` and waits for
the handler, which waits for `lock`, and no step is possible. -/
theorem exists_waitCycle : ∃ m, Reachable next
    (Machine.start (kernelOf [5]) (registerAndDeregister 5)) m ∧
      (¬ DeadlockFree m ∧ WaitCycle m ∧ ¬ CanStep m) :=
  exists_reachableUnder_of_run
    (Label.steps false 6 ++ Label.steps true 1 ++ [.timer, .worker] ++ Label.steps true 3)
    (by decide +kernel) (by decide +kernel)

end KernelModules.FaultProfiler
