import KernelModules.FaultProfiler.SamplingMachine

/-!
# Sampling stops with the last task

Whenever the list is empty and nothing is in progress, no sampling work should be pending
(`SamplingStops`). `Task_deregister` cancels the work under `lock`, but `wq_handler` queues itself
again after it has dropped `lock`: a removal of the last task that cancels in between leaves the
work pending for an empty list.

`samplingStops_of_reachable` says that this is the only way: every run in which no cancellation
falls between the unlock and the re-queue of the handler stops sampling with the last task.
-/

set_option autoImplicit false
set_option relaxedAutoImplicit false

namespace KernelModules.FaultProfiler

open Foundation

variable {ι : Type*}

/-! ### The law -/

/-- No call and no run of the handler is in progress. -/
def Quiescent (m : Machine ι) : Prop := (∀ i, ¬ (m.threads i).InProgress) ∧ m.handler = .idle

/-- With an empty list and nothing in progress, no sampling work is pending. -/
def SamplingStops (m : Machine ι) : Prop :=
  m.mp3.tl = [] → Quiescent m → m.mp3.pending = false

instance [Fintype ι] (m : Machine ι) : Decidable (Quiescent m) :=
  inferInstanceAs (Decidable ((∀ i, ¬ (m.threads i).InProgress) ∧ m.handler = .idle))

instance [Fintype ι] (m : Machine ι) : Decidable (SamplingStops m) :=
  inferInstanceAs (Decidable (m.mp3.tl = [] → Quiescent m → m.mp3.pending = false))

/-- The work is not cancelled while the handler stands between its unlock and its re-queue. -/
def CancelsSettled (m : Machine ι) : Label ι → Prop
  | .thread i => m.threads i = .deregisterCancel → m.handler ≠ .requeue
  | _ => True

instance (m : Machine ι) (label : Label ι) : Decidable (CancelsSettled m label) :=
  match label with
  | .thread i => inferInstanceAs (Decidable (m.threads i = .deregisterCancel →
      m.handler ≠ .requeue))
  | .timer => isTrue trivial
  | .worker => isTrue trivial
  | .environment _ _ => isTrue trivial

/-! ### The work while the list is empty -/

/-- No sampling work is pending, behind its timer or in the queue. -/
def NoWork (m : Machine ι) : Prop := m.mp3.pending = false ∧ m.queued = false

/-- There is no sampling work, and the handler does not run. -/
def Settled (m : Machine ι) : Prop := NoWork m ∧ m.handler = .idle

/-- What is known while the list is empty, by where the thread is that holds `lock`: it is about to
add a record or to cancel the work, or it waits for a run of the handler that cannot end, or there
is no work. -/
def EmptyAt (m : Machine ι) : Pc → Prop
  | .registerAdd _ => True
  | .deregisterCancel => True
  | .deregisterFlush => NoWork m ∧ (m.handler = .idle ∨ m.handler = .atLock)
  | .deregisterWait run => NoWork m ∧ (m.handler = .idle ∨ (m.handler = .atLock ∧ m.runs = run))
  | _ => Settled m

/-- While the list is empty, the handler does not hold `lock`, there is no work when nobody does,
and when a thread does, what is known by where it is. -/
structure Stopping (m : Machine ι) : Prop where
  lockHeld : LockHeld m
  free : m.mp3.tl = [] → m.owner = none → Settled m
  handler : m.mp3.tl = [] → m.owner ≠ some .handler
  thread : ∀ i, m.mp3.tl = [] → m.owner = some (.thread i) → EmptyAt m (m.threads i)

/-- Outside `lock`, an empty list is settled, and so sampling stops. -/
theorem Stopping.samplingStops {m : Machine ι} (hm : Stopping m) : SamplingStops m := by
  intro hempty hquiescent
  cases howner : m.owner with
  | none => exact (hm.free hempty howner).1.1
  | some owner =>
    cases owner with
    | handler => exact absurd howner (hm.handler hempty)
    | thread i =>
      have hholds := (hm.lockHeld.thread i).mpr howner
      have hidle := hquiescent.1 i
      cases hpc : m.threads i with
      | start call => exact absurd hholds (by rw [hpc]; exact not_false)
      | done ret => exact absurd hholds (by rw [hpc]; exact not_false)
      | _ => exact absurd trivial (by rw [hpc] at hidle; exact hidle)

variable [DecidableEq ι]

namespace Stopping

variable {m later : Machine ι} {i : ι}

/-- A thread that does not hold `lock` goes on without taking it. -/
theorem goto (hm : Stopping m) {before pc : Pc} (hi : m.threads i = before)
    (hbefore : ¬ before.Holds) (hpc : ¬ pc.Holds) : Stopping (m.goto i pc) where
  lockHeld := hm.lockHeld.change hi (iff_of_false hpc hbefore) m.mp3
  free := hm.free
  handler := hm.handler
  thread := by
    intro j hempty howner
    have hne : j ≠ i := by
      intro heq
      have hholds := (hm.lockHeld.thread j).mpr howner
      rw [heq, hi] at hholds
      exact hbefore hholds
    rw [Machine.goto_threads, Function.update_of_ne hne]
    exact hm.thread j hempty howner

/-- A thread that takes `lock` finds an empty list settled. -/
theorem take (hm : Stopping m) (howner : m.owner = none) {pc : Pc} (hpc : pc.Holds)
    (hempty : Settled m → EmptyAt (m.take i pc) pc) : Stopping (m.take i pc) where
  lockHeld := hm.lockHeld.take howner hpc
  free := fun _ hnone ↦ by cases hnone
  handler := fun _ hhandler ↦ by cases hhandler
  thread := by
    intro j htl hj
    rw [Machine.take_owner, Option.some.injEq, Owner.thread.injEq] at hj
    rw [← hj, Machine.take_threads, Function.update_self]
    exact hempty (hm.free htl howner)

omit [DecidableEq ι] in
/-- The thread that holds `lock` goes on and keeps it, and knows what it should if the list is
empty. -/
theorem hold (hm : Stopping m) {before pc : Pc} (hi : m.threads i = before)
    (hbefore : before.Holds) (hlockHeld : LockHeld later) (howner : later.owner = m.owner)
    (hthread : later.threads i = pc) (hempty : later.mp3.tl = [] → EmptyAt later pc) :
    Stopping later := by
  have hself := howner.trans ((hm.lockHeld.thread i).mp (hi ▸ hbefore))
  refine ⟨hlockHeld, fun _ hnone ↦ ?_, fun _ hhandler ↦ ?_, fun j htl hj ↦ ?_⟩
  · cases hnone.symm.trans hself
  · cases hhandler.symm.trans hself
  · obtain rfl : j = i := Owner.thread.inj (Option.some.inj (hj.symm.trans hself))
    rw [hthread]
    exact hempty htl

/-- The thread that holds `lock` changes the module, and knows what it should if the list is
empty. -/
theorem change (hm : Stopping m) {before pc : Pc} (hi : m.threads i = before)
    (hbefore : before.Holds) (hpc : pc.Holds) {s : Mp3}
    (hempty : s.tl = [] → EmptyAt (m.change i pc s) pc) : Stopping (m.change i pc s) :=
  hm.hold hi hbefore (hm.lockHeld.change hi (iff_of_true hpc hbefore) s) rfl
    (Function.update_self ..) hempty

/-- A thread that drops `lock` leaves an empty list settled. -/
theorem drop (hm : Stopping m) {before pc : Pc} (hi : m.threads i = before)
    (hbefore : before.Holds) (hpc : ¬ pc.Holds) (hempty : m.mp3.tl = [] → Settled m) :
    Stopping (m.drop i pc) where
  lockHeld := hm.lockHeld.drop hi hbefore hpc
  free := fun htl _ ↦ hempty htl
  handler := fun _ hhandler ↦ by cases hhandler
  thread := fun j _ hj ↦ by cases hj

omit [DecidableEq ι] in
/-- What the holder of `lock` knows while the list is empty. -/
theorem emptyAt (hm : Stopping m) {before : Pc} (hi : m.threads i = before)
    (hbefore : before.Holds) (hempty : m.mp3.tl = []) : EmptyAt m before := by
  rw [← hi]
  exact hm.thread i hempty ((hm.lockHeld.thread i).mp (hi ▸ hbefore))

/-- A step of a thread keeps what is known of an empty list. -/
theorem threadStep (hm : Stopping m) {pc : Pc} (hi : m.threads i = pc)
    (hcondition : CancelsSettled m (.thread i)) (hstep : ThreadStep m i pc later) :
    Stopping later := by
  cases hstep with
  | duplicate hpid => exact hm.goto hi not_false not_false
  | unlisted hpid => exact hm.goto hi not_false not_false
  | alloc => exact hm.goto hi not_false not_false
  | lockRegister howner => exact hm.take howner trivial id
  | queue => exact hm.change hi trivial (by trivial) fun _ ↦ trivial
  | add =>
    refine hm.change hi trivial (by trivial) fun htl ↦ ?_
    exact absurd htl (List.concat_ne_nil _ _)
  | lockDeregister howner => exact hm.take howner trivial id
  | notFound hpid => exact hm.change hi trivial (by trivial) fun htl ↦ hm.emptyAt hi trivial htl
  | removeLast hpid hlast => exact hm.change hi trivial (by trivial) fun _ ↦ trivial
  | remove hpid hrest => exact hm.change hi trivial (by trivial) fun htl ↦ absurd htl hrest
  | cancel =>
    have howner := (hm.lockHeld.thread i).mp (hi ▸ trivial)
    refine hm.hold hi trivial (hm.lockHeld.threadStep hi .cancel) rfl (Function.update_self ..)
      fun _ ↦ ⟨⟨rfl, rfl⟩, ?_⟩
    cases hhandler : m.handler with
    | idle => exact Or.inl hhandler
    | atLock => exact Or.inr hhandler
    | traversed =>
      rw [hm.lockHeld.handler hhandler] at howner
      cases howner
    | requeue => exact absurd hhandler (hcondition hi)
  | flush =>
    refine hm.change hi trivial (by trivial) fun htl ↦ ?_
    obtain ⟨hnone, hhandler⟩ := hm.emptyAt hi trivial htl
    refine ⟨hnone, hhandler.imp_right fun hlock ↦ ⟨hlock, ?_⟩⟩
    rw [Machine.change_runs, hnone.2]
    rfl
  | flushed hended =>
    refine hm.change hi trivial (by trivial) fun htl ↦ ?_
    obtain ⟨hnone, hidle | ⟨-, hrun⟩⟩ := hm.emptyAt hi trivial htl
    · exact ⟨hnone, hidle⟩
    · exact ⟨hnone, (hended.resolve_left (hrun ▸ Nat.lt_irrefl _)).2⟩
  | unlock => exact hm.drop hi trivial not_false fun htl ↦ hm.emptyAt hi trivial htl

omit [DecidableEq ι] in
/-- A thread that holds `lock` over an empty list while there is work is about to add a record or to
cancel the work, or it waits for the handler. -/
theorem emptyAt_of_not_settled {pc : Pc} (hpc : EmptyAt m pc) (hsettled : ¬ Settled m)
    (hwaits : ¬ (NoWork m ∧ m.handler = .atLock)) {other : Machine ι} :
    EmptyAt other pc := by
  cases pc with
  | registerAdd task => trivial
  | deregisterCancel => trivial
  | deregisterFlush =>
    obtain ⟨hnone, hidle | hlock⟩ := hpc
    · exact absurd ⟨hnone, hidle⟩ hsettled
    · exact absurd ⟨hnone, hlock⟩ hwaits
  | deregisterWait run =>
    obtain ⟨hnone, hidle | ⟨hlock, -⟩⟩ := hpc
    · exact absurd ⟨hnone, hidle⟩ hsettled
    · exact absurd ⟨hnone, hlock⟩ hwaits
  | _ => exact absurd hpc hsettled

omit [DecidableEq ι] in
/-- Nothing has to be known of a list with a task. -/
theorem of_nonempty (hlockHeld : LockHeld later) (hnonempty : later.mp3.tl ≠ []) :
    Stopping later :=
  ⟨hlockHeld, fun htl ↦ absurd htl hnonempty, fun htl ↦ absurd htl hnonempty,
    fun _ htl ↦ absurd htl hnonempty⟩

omit [DecidableEq ι] in
/-- A handler that takes `lock` to sample the list finds a task in it. -/
theorem sample_ne_nil (hm : Stopping m) (hpc : m.handler = .atLock) (howner : m.owner = none) :
    m.mp3.sample.tl ≠ [] := by
  rw [ne_eq, Mp3.tl_sample_eq_nil_iff]
  intro htl
  cases hpc.symm.trans (hm.free htl howner).2

omit [DecidableEq ι] in
/-- A step that leaves the list and `lock` keeps what is known of an empty list. Assumes: there is
work or a run of the handler, and not a run that waits for `lock` alone. -/
theorem of_busy (hm : Stopping m) (hsettled : ¬ Settled m)
    (hwaits : ¬ (NoWork m ∧ m.handler = .atLock)) (hlockHeld : LockHeld later)
    (htl : later.mp3.tl = m.mp3.tl) (howner : later.owner = m.owner)
    (hthreads : later.threads = m.threads) : Stopping later := by
  refine ⟨hlockHeld, fun hempty hnone ↦ ?_, fun hempty ↦ ?_, fun i hempty hi ↦ ?_⟩
  · exact absurd (hm.free (htl ▸ hempty) (howner ▸ hnone)) hsettled
  · rw [howner]
    exact hm.handler (htl ▸ hempty)
  · rw [hthreads]
    exact emptyAt_of_not_settled (hm.thread i (htl ▸ hempty) (howner ▸ hi)) hsettled hwaits

omit [DecidableEq ι] in
/-- A step of the timer keeps what is known of an empty list. -/
theorem timerStep (hm : Stopping m) (hstep : timerStep m = some later) : Stopping later := by
  obtain ⟨hpending, -, rfl⟩ := timerStep_eq_some hstep
  have hwork : ¬ NoWork m := fun hnone ↦ by cases hpending.symm.trans hnone.1
  exact hm.of_busy (fun hsettled ↦ hwork hsettled.1) (fun hwaits ↦ hwork hwaits.1)
    ⟨hm.lockHeld.thread, hm.lockHeld.handler⟩ rfl rfl rfl

omit [DecidableEq ι] in
/-- A step of the worker keeps what is known of an empty list. -/
theorem workerStep (hm : Stopping m) {pc : HandlerPc} (hpc : m.handler = pc)
    (hstep : WorkerStep m pc later) : Stopping later := by
  have hlockHeld := hm.lockHeld.workerStep hpc hstep
  cases hstep with
  | begin hqueued =>
    have hwork : ¬ NoWork m := fun hnone ↦ by cases hqueued.symm.trans hnone.2
    exact hm.of_busy (fun hsettled ↦ hwork hsettled.1) (fun hwaits ↦ hwork hwaits.1) hlockHeld rfl
      rfl rfl
  | traverse howner hlive => exact of_nonempty hlockHeld (hm.sample_ne_nil hpc howner)
  | abort howner hdead => exact of_nonempty hlockHeld (hm.sample_ne_nil hpc howner)
  | unlock =>
    refine of_nonempty hlockHeld fun htl ↦ ?_
    exact hm.handler htl (hm.lockHeld.handler hpc)
  | requeue =>
    exact hm.of_busy (fun hsettled ↦ by cases hpc.symm.trans hsettled.2)
      (fun hwaits ↦ by cases hpc.symm.trans hwaits.2) hlockHeld rfl rfl rfl

end Stopping

/-! ### The law along runs -/

/-- In every run from an empty list in which the work is never cancelled between the unlock and the
re-queue of the handler, no sampling work is pending whenever the list is empty and nothing is in
progress. -/
theorem samplingStops_of_reachable {kernel : Kernel} {calls : ι → Call} {m : Machine ι}
    (hreach : ReachableUnder next CancelsSettled (Machine.start kernel calls) m) :
    SamplingStops m := by
  refine Stopping.samplingStops (hreach.invariant Stopping ?_ ?_)
  · refine ⟨LockHeld.start kernel calls, fun _ _ ↦ ⟨⟨rfl, rfl⟩, rfl⟩, fun _ hhandler ↦ ?_,
      fun _ _ howner ↦ ?_⟩
    · cases hhandler
    · cases howner
  · intro before label later hbefore hcondition hnext
    cases label with
    | thread i => exact hbefore.threadStep rfl hcondition (threadStep_spec hnext)
    | timer => exact hbefore.timerStep hnext
    | worker => exact hbefore.workerStep rfl (workerStep_spec hnext)
    | environment processes jiffies =>
      rw [← Option.some.inj hnext]
      refine ⟨⟨hbefore.lockHeld.thread, hbefore.lockHeld.handler⟩, hbefore.free, hbefore.handler,
        ?_⟩
      intro i htl howner
      have hpc := hbefore.thread i htl howner
      change EmptyAt _ (before.threads i)
      cases hi : before.threads i <;> rw [hi] at hpc <;> exact hpc

/-- A pid is registered and deregistered without a run of the handler. -/
theorem samplingStops_registered : ∃ m : Machine Bool,
    SamplingStops m ∧ m.mp3.tl = [] ∧ Quiescent m ∧ m.threads true = .done 0 := by
  obtain ⟨m, hreach, hm⟩ : ∃ m, ReachableUnder next CancelsSettled
      (Machine.start (kernelOf [5]) (registerAndDeregister 5)) m ∧
        (m.mp3.tl = [] ∧ Quiescent m ∧ m.threads true = .done 0) :=
    exists_reachableUnder_of_run (Label.steps false 6 ++ Label.steps true 6) (by decide +kernel)
      (by decide +kernel)
  exact ⟨m, samplingStops_of_reachable hreach, hm⟩

/-- The last task is removed between the unlock and the re-queue of the handler, and the work stays
pending. -/
theorem exists_not_samplingStops : ∃ m, Reachable next
    (Machine.start (kernelOf [5]) (registerAndDeregister 5)) m ∧ ¬ SamplingStops m :=
  exists_reachableUnder_of_run
    (Label.steps false 6 ++ [.timer] ++ List.replicate 3 .worker ++ Label.steps true 4 ++
      [.worker] ++ Label.steps true 2)
    (by decide +kernel) (by decide +kernel)

end KernelModules.FaultProfiler
