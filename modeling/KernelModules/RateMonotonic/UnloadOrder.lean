import KernelModules.RateMonotonic.UnloadMachine

/-!
# The order of the unload

`mp2_exit` stops the dispatching thread, destroys the tasks and their cache, and removes the command
file last. Timers and commands therefore outlive the thread that they wake and the cache that they
allocate from. The dispatching thread tests the stop request apart from going to sleep, so that the
wake-up of `kthread_stop` can be lost.

`unloadSafe_of_reachable` says that the unload is safe (`UnloadSafe`) in every run that fits
(`UnloadFits`).
-/

set_option autoImplicit false
set_option relaxedAutoImplicit false

namespace KernelModules.RateMonotonic

open Foundation Scheduler

/-! ### The law -/

namespace Unload

variable {ι : Type*}

/-- `kthread_stop` does not wait for a dispatching thread that sleeps. -/
def StopSeen (m : Unload ι) : Prop :=
  ¬ (m.exit = .waitStop ∧ m.machine.dispatcher = .asleep ∧
    m.machine.sched.dispaching = .interruptible)

/-- When `mp2_exit` has returned, the list is empty and no timer is pending. -/
def NothingLeft (m : Unload ι) : Prop :=
  m.exit = .returned → m.machine.sched.tl = [] ∧
    ∀ a < m.machine.sched.fresh, ¬ m.machine.sched.pending a

/-- The unload is safe: `kthread_stop` does not wait for a thread that sleeps, nobody wakes the
thread after it was stopped, no record is allocated from the destroyed cache, and nothing is left.
-/
def UnloadSafe (m : Unload ι) : Prop :=
  m.StopSeen ∧ m.wokenStopped = false ∧ m.allocDestroyed = false ∧ m.NothingLeft

/-- The wake-up of `kthread_stop` does not fall between the test of the stop request and
`TASK_INTERRUPTIBLE`.

When `kthread_stop` returns, no callback and no command is about to wake the thread, and afterwards
no timer expires and no command clears `ct`, which it does before it wakes the thread.

When `Task_destroy` enters its section, no admitted registration has still to link its record, and
the pending timers are those of listed tasks; afterwards no registration is admitted, and no yield
arms the timer of a task that is not listed. -/
def UnloadFits (m : Unload ι) : UnloadLabel ι → Prop
  | .step (.thread i) =>
    ((m.machine.threads i).clearsCt = true → m.exit.stopped = false) ∧
      ((m.machine.threads i).admits = true → m.exit.destroying = false) ∧
      (m.exit.destroying = true → ∀ t ∈ (m.machine.threads i).arms, t ∈ m.machine.sched.tl)
  | .step (.fire _) => m.exit.stopped = false
  | .step _ => True
  | .exit =>
    (m.exit = .wakeStop → m.tested = false) ∧
      (m.exit = .waitStop →
        m.machine.callbacks = 0 ∧ ∀ i, (m.machine.threads i).waking = false) ∧
      (m.exit = .destroyLock → (∀ i, (m.machine.threads i).admitted = false) ∧
        ∀ a < m.machine.sched.fresh, m.machine.sched.pending a → a ∈ m.machine.sched.tl)

instance (s : Scheduler) (a : Addr) : Decidable (s.pending a) :=
  inferInstanceAs (Decidable ((s.slab a).timer.expires ≠ none))

instance (m : Unload ι) : Decidable m.StopSeen :=
  inferInstanceAs (Decidable (¬ (m.exit = .waitStop ∧ m.machine.dispatcher = .asleep ∧
    m.machine.sched.dispaching = .interruptible)))

instance (m : Unload ι) : Decidable m.NothingLeft :=
  inferInstanceAs (Decidable (m.exit = .returned → m.machine.sched.tl = [] ∧
    ∀ a < m.machine.sched.fresh, ¬ m.machine.sched.pending a))

instance [Fintype ι] (m : Unload ι) : ∀ label, Decidable (m.UnloadFits label)
  | .step (.thread i) => inferInstanceAs (Decidable
      (((m.machine.threads i).clearsCt = true → m.exit.stopped = false) ∧
        ((m.machine.threads i).admits = true → m.exit.destroying = false) ∧
        (m.exit.destroying = true →
          ∀ t ∈ (m.machine.threads i).arms, t ∈ m.machine.sched.tl)))
  | .step (.fire _) => inferInstanceAs (Decidable (m.exit.stopped = false))
  | .step .dispatcher | .step .callbackWake | .step .tick => isTrue trivial
  | .exit => inferInstanceAs (Decidable
      ((m.exit = .wakeStop → m.tested = false) ∧
        (m.exit = .waitStop →
          m.machine.callbacks = 0 ∧ ∀ i, (m.machine.threads i).waking = false) ∧
        (m.exit = .destroyLock → (∀ i, (m.machine.threads i).admitted = false) ∧
          ∀ a < m.machine.sched.fresh, m.machine.sched.pending a → a ∈ m.machine.sched.tl)))

end Unload

/-! ### The steps of the machine -/

section Steps

variable {platform : Platform} {locks : Locks} {now : UInt64} {s t : Scheduler} {a : Addr}

/-- A call is about to wake the dispatching thread only after it has cleared `ct`. -/
theorem ThreadStep.clearsCt {pc later : Pc}
    (hstep : RateMonotonic.ThreadStep platform locks now s pc later t)
    (hlater : later.waking = true) : pc.clearsCt = true := by
  cases hstep with
  | clear => rfl
  | deregClear => rfl
  | _ => cases hlater

/-- A registration is admitted when it has stored `total_util`. -/
theorem ThreadStep.admits {pc later : Pc}
    (hstep : RateMonotonic.ThreadStep platform locks now s pc later t)
    (hlater : later.admitted = true) : pc.admits = true := by
  cases hstep with
  | store => rfl
  | _ => cases hlater

/-- A call that links no record fills no empty list. -/
theorem ThreadStep.tl_of_not_admitted {pc later : Pc}
    (hstep : RateMonotonic.ThreadStep platform locks now s pc later t)
    (hpc : pc.admitted = false) : t.fresh = s.fresh ∧ (s.tl = [] → t.tl = []) := by
  cases hstep.effect with
  | keep hsame => exact ⟨hsame.fresh, fun hnil ↦ hsame.tl.trans hnil⟩
  | insert => cases hpc
  | unlink =>
    refine ⟨rfl, fun hnil ↦ ?_⟩
    rw [unlockTl_tl, removeTask_tl, hnil]
    rfl

/-- A timer that is pending after a step of a call was pending before, with its record still listed
if it was, or has just been armed. Assumes: a call that links no record. -/
theorem ThreadStep.pending_or_arms {pc later : Pc}
    (hstep : RateMonotonic.ThreadStep platform locks now s pc later t)
    (hpc : pc.admitted = false) (hpending : t.pending a) :
    (s.pending a ∧ (a ∈ s.tl → a ∈ t.tl)) ∨ (a ∈ pc.arms ∧ t.tl = s.tl) := by
  cases hstep with
  | insert => cases hpc
  | @miss task =>
    rw [Scheduler.pending, Locks.leave_slab, (advanceDdl_keeps s platform now task a).1] at hpending
    exact .inl ⟨hpending, id⟩
  | @deadline task =>
    rw [Scheduler.pending, lockTl_slab, (advanceDdl_keeps s platform now task a).1] at hpending
    exact .inl ⟨hpending, id⟩
  | @arm task =>
    by_cases hat : a = task
    · rw [hat]
      exact .inr ⟨rfl, rfl⟩
    · rw [Scheduler.pending, modTimer, slab_modify_of_ne s hat] at hpending
      exact .inl ⟨hpending, id⟩
  | @sleep task =>
    rw [Scheduler.pending,
      slab_setState_of_keep (fun task ↦ task.timer) (fun _ _ ↦ rfl)] at hpending
    exact .inl ⟨hpending, id⟩
  | @unlink task =>
    by_cases hat : a = task
    · rw [hat, Scheduler.pending, unlockTl_slab, removeTask_slab, Function.update_self] at hpending
      exact absurd rfl hpending
    · rw [Scheduler.pending, unlockTl_slab, slab_removeTask_of_ne s hat] at hpending
      exact .inl ⟨hpending, (List.mem_erase_of_ne hat).mpr⟩
  | _ => exact .inl ⟨hpending, id⟩

/-- A step of a call leaves the dispatching thread as it is, or wakes it. -/
theorem ThreadStep.dispaching_or {pc later : Pc}
    (hstep : RateMonotonic.ThreadStep platform locks now s pc later t) :
    t.dispaching = s.dispaching ∨ t.dispaching = .running := by
  cases hwaking : pc.waking with
  | false => exact .inl (hstep.dispaching hwaking)
  | true =>
    rw [hstep.wakes hwaking]
    exact .inr rfl

/-- A step of the dispatching thread touches no timer. -/
theorem DispatcherStep.timer {pc later : DispatcherPc} (hstep : DispatcherStep s pc later t)
    (a : Addr) : (t.slab a).timer = (s.slab a).timer := by
  have hset : ∀ (u : Scheduler) (b : Addr) (state : TaskState),
      ((u.setState b state).slab a).timer = (u.slab a).timer := fun u b state ↦
    slab_setState_of_keep (fun task ↦ task.timer) (fun _ _ ↦ rfl) u b state a
  have hsection : ∀ highest, ((ctSection highest s).state.slab a).timer = (s.slab a).timer := by
    intro highest
    have hcases := ctSection_step s highest
    generalize ctSection highest s = result at hcases
    cases hcases with
    | idle => rfl
    | demoteFault => exact hset s _ .ready
    | demote => exact hset s _ .ready
    | keep => rfl
    | startFault => rfl
    | preemptFault => exact hset s _ .ready
    | start => exact hset s _ .running
    | @preempt h cur => exact (hset (s.setState cur .ready) h .running).trans (hset s cur .ready)
  cases hstep with
  | section_ => exact hsection _
  | fault => exact hsection _
  | _ => rfl

/-- The expiry of a timer leaves the dispatching thread as it is. -/
theorem fire_dispaching (s : Scheduler) (a : Addr) : (s.fire a).dispaching = s.dispaching := by
  rw [Scheduler.fire, markReady_eq]
  rfl

end Steps

/-! ### The invariant -/

namespace Unload

variable {ι : Type*}

/-- While `kthread_stop` waits, the dispatching thread goes on to its next test; after it has
returned, nobody is about to wake the thread. From the section of `Task_destroy` on, no record is
about to be linked and the pending timers are those of listed tasks, and the list is empty when the
section ends. -/
structure Unloads (m : Unload ι) : Prop where
  seen : m.exit = .waitStop → m.tested = false ∧
    (m.machine.dispatcher = .beforeSchedule ∨ m.machine.dispatcher = .asleep →
      m.machine.sched.dispaching = .running)
  quiet : m.exit.stopped = true →
    m.machine.callbacks = 0 ∧ ∀ i, (m.machine.threads i).waking = false
  linked : m.exit.destroying = true → (∀ i, (m.machine.threads i).admitted = false) ∧
    ∀ a < m.machine.sched.fresh, m.machine.sched.pending a → a ∈ m.machine.sched.tl
  emptied : m.exit.emptied = true → m.machine.sched.tl = []
  woken : m.wokenStopped = false
  alloc : m.allocDestroyed = false

namespace Unloads

variable {platform : Platform} {locks : Locks} {m later : Unload ι}

/-- The start. -/
theorem start (slab : Addr → Mp2TaskStruct) (now : UInt64) (calls : ι → Call) :
    Unloads (Unload.start slab now calls) where
  seen := fun hwait ↦ absurd hwait ExitPc.noConfusion
  quiet := fun hstopped ↦ absurd hstopped Bool.false_ne_true
  linked := fun hdestroying ↦ absurd hdestroying Bool.false_ne_true
  emptied := fun hemptied ↦ absurd hemptied Bool.false_ne_true
  woken := rfl
  alloc := rfl

/-- The unload is safe. -/
theorem unloadSafe (hm : m.Unloads) : m.UnloadSafe := by
  refine ⟨?_, hm.woken, hm.alloc, fun hreturned ↦ ?_⟩
  · rintro ⟨hwait, hasleep, hinterruptible⟩
    cases hinterruptible.symm.trans ((hm.seen hwait).2 (.inr hasleep))
  · have hnil := hm.emptied (by rw [hreturned]; rfl)
    refine ⟨hnil, fun a ha hpending ↦ ?_⟩
    have hlisted := (hm.linked (by rw [hreturned]; rfl)).2 a ha hpending
    rw [hnil] at hlisted
    cases hlisted

/-- `mp2_exit` goes on without a change of the records or of the list. -/
theorem goOn (hm : m.Unloads) {exit : ExitPc} {sched : Scheduler}
    (hslab : sched.slab = m.machine.sched.slab) (hfresh : sched.fresh = m.machine.sched.fresh)
    (htl : sched.tl = m.machine.sched.tl) (hwait : exit ≠ .waitStop)
    (hstopped : exit.stopped = true → m.exit.stopped = true)
    (hdestroying : exit.destroying = true → m.exit.destroying = true)
    (hemptied : exit.emptied = true → m.exit.emptied = true) :
    (m.goOn exit sched).Unloads where
  seen := fun heq ↦ absurd heq hwait
  quiet := fun hstop ↦ hm.quiet (hstopped hstop)
  linked := by
    intro hdestroy
    obtain ⟨hadmitted, hpending⟩ := hm.linked (hdestroying hdestroy)
    refine ⟨hadmitted, fun a ha hpend ↦ ?_⟩
    show a ∈ sched.tl
    rw [htl]
    refine hpending a (hfresh ▸ ha) ?_
    have hsame : sched.pending a := hpend
    rw [Scheduler.pending, hslab] at hsame
    exact hsame
  emptied := fun hempty ↦ htl.trans (hm.emptied (hemptied hempty))
  woken := hm.woken
  alloc := hm.alloc

/-- A step of `mp2_exit` that fits. -/
theorem exit (hm : m.Unloads) (hfits : m.UnloadFits .exit)
    (hstep : m.exitStep locks = some later) : later.Unloads := by
  obtain ⟨hwake, hwait, hdestroy⟩ := hfits
  have hquiet := hm.quiet
  have hlinked := hm.linked
  have hnil := hm.emptied
  unfold exitStep at hstep
  cases hpc : m.exit with
  | wakeStop =>
    rw [hpc] at hstep
    cases hstep
    exact ⟨fun _ ↦ ⟨hwake hpc, fun _ ↦ rfl⟩, fun hstopped ↦ absurd hstopped Bool.false_ne_true,
      fun hdestroying ↦ absurd hdestroying Bool.false_ne_true,
      fun hemptied ↦ absurd hemptied Bool.false_ne_true, hm.woken, hm.alloc⟩
  | waitStop =>
    rw [hpc] at hstep
    obtain ⟨-, rfl⟩ := Option.ite_none_right_eq_some.mp hstep |>.imp id Option.some.inj
    exact ⟨fun heq ↦ absurd heq ExitPc.noConfusion, fun _ ↦ hwait hpc,
      fun hdestroying ↦ absurd hdestroying Bool.false_ne_true,
      fun hemptied ↦ absurd hemptied Bool.false_ne_true, hm.woken, hm.alloc⟩
  | destroyLock =>
    rw [hpc] at hstep hquiet
    obtain ⟨-, rfl⟩ := Option.ite_none_left_eq_some.mp hstep |>.imp id Option.some.inj
    exact ⟨fun heq ↦ absurd heq ExitPc.noConfusion, hquiet, fun _ ↦ hdestroy hpc,
      fun hemptied ↦ absurd hemptied Bool.false_ne_true, hm.woken, hm.alloc⟩
  | destroyRemove =>
    rw [hpc] at hstep hquiet hlinked
    dsimp only at hstep
    split at hstep
    next htl =>
      cases hstep
      exact ⟨fun heq ↦ absurd heq ExitPc.noConfusion, hquiet, hlinked, fun _ ↦ htl, hm.woken,
        hm.alloc⟩
    next itr rest htl =>
      cases hstep
      obtain ⟨hadmitted, hpending⟩ := hlinked rfl
      refine ⟨fun heq ↦ absurd heq ExitPc.noConfusion, hquiet, fun _ ↦ ⟨hadmitted, ?_⟩,
        fun hemptied ↦ absurd hemptied Bool.false_ne_true, hm.woken, hm.alloc⟩
      intro a ha hpend
      have hdel : ((m.machine.sched.delTimer itr).listDel itr).pending a := hpend
      by_cases hitr : a = itr
      · rw [hitr, Scheduler.pending, listDel_slab, delTimer, slab_modify_self] at hdel
        exact absurd rfl hdel
      · rw [Scheduler.pending, listDel_slab, delTimer, slab_modify_of_ne _ hitr] at hdel
        exact (List.mem_erase_of_ne hitr).mpr (hpending a ha hdel)
  | waitStatus =>
    rw [hpc] at hstep
    obtain ⟨-, rfl⟩ := Option.ite_none_right_eq_some.mp hstep |>.imp id Option.some.inj
    exact hm.goOn rfl rfl rfl ExitPc.noConfusion (fun _ ↦ by rw [hpc]; rfl)
      (fun _ ↦ by rw [hpc]; rfl) fun _ ↦ by rw [hpc]; rfl
  | returned =>
    rw [hpc] at hstep
    cases hstep
  | requestStop =>
    rw [hpc] at hstep
    cases hstep
    exact hm.goOn rfl rfl rfl ExitPc.noConfusion (fun hfalse ↦ absurd hfalse Bool.false_ne_true)
      (fun hfalse ↦ absurd hfalse Bool.false_ne_true)
      fun hfalse ↦ absurd hfalse Bool.false_ne_true
  | mutexDestroyTl | mutexDestroyCt =>
    rw [hpc] at hstep
    cases hstep
    exact hm.goOn rfl rfl rfl ExitPc.noConfusion (fun _ ↦ by rw [hpc]; rfl)
      (fun hfalse ↦ absurd hfalse Bool.false_ne_true)
      fun hfalse ↦ absurd hfalse Bool.false_ne_true
  | destroyUnlock | cacheDestroy | removeStatus | removeDir =>
    rw [hpc] at hstep
    cases hstep
    exact hm.goOn rfl rfl rfl ExitPc.noConfusion (fun _ ↦ by rw [hpc]; rfl)
      (fun _ ↦ by rw [hpc]; rfl) fun _ ↦ by rw [hpc]; rfl

/-- The expiry of a timer that fits. -/
theorem fire (hm : m.Unloads) {a : Addr} (hfits : m.UnloadFits (.step (.fire a))) (callbacks : ℕ) :
    Unloads { m with machine := { m.machine with
      sched := m.machine.sched.fire a, callbacks := callbacks } } := by
  have hundestroyed : m.exit.destroying = false := by
    by_contra hdestroying
    have hstopped := ExitPc.stopped_of_destroying (Bool.eq_true_of_not_eq_false hdestroying)
    cases hstopped.symm.trans hfits
  refine ⟨fun hwait ↦ ?_, fun hstopped ↦ ?_, fun hdestroying ↦ ?_, fun hemptied ↦ ?_, hm.woken,
    hm.alloc⟩
  · obtain ⟨htested, hrunning⟩ := hm.seen hwait
    exact ⟨htested, fun hsleeps ↦ (fire_dispaching _ a).trans (hrunning hsleeps)⟩
  · cases hstopped.symm.trans hfits
  · cases hdestroying.symm.trans hundestroyed
  · cases (ExitPc.destroying_of_emptied hemptied).symm.trans hundestroyed

variable [DecidableEq ι]

/-- After `kthread_stop` has returned, a step of a call leaves nobody about to wake the thread.
Assumes: it clears `ct` only before. -/
theorem quiet_thread (hm : m.Unloads) {i : ι} {pc : Pc} {sched : Scheduler}
    (hthread : RateMonotonic.ThreadStep platform locks m.machine.jiffies m.machine.sched
      (m.machine.threads i) pc sched)
    (hclears : (m.machine.threads i).clearsCt = true → m.exit.stopped = false)
    (hstopped : m.exit.stopped = true) (j : ι) :
    (Function.update m.machine.threads i pc j).waking = false := by
  revert j
  refine (Function.forall_update_iff _ (p := fun _ (pc : Pc) ↦ pc.waking = false)).mpr
    ⟨?_, fun j _ ↦ (hm.quiet hstopped).2 j⟩
  by_contra hwaking
  have hclear := hthread.clearsCt (Bool.eq_true_of_not_eq_false hwaking)
  cases hstopped.symm.trans (hclears hclear)

/-- From the section of `Task_destroy` on, a step of a call leaves no record about to be linked, and
the pending timers are those of listed tasks. Assumes: it admits no registration and arms the timers
of listed tasks only. -/
theorem linked_thread (hm : m.Unloads) {i : ι} {pc : Pc} {sched : Scheduler}
    (hthread : RateMonotonic.ThreadStep platform locks m.machine.jiffies m.machine.sched
      (m.machine.threads i) pc sched)
    (hadmits : (m.machine.threads i).admits = true → m.exit.destroying = false)
    (harms : ∀ t ∈ (m.machine.threads i).arms, t ∈ m.machine.sched.tl)
    (hdestroying : m.exit.destroying = true) :
    (∀ j, (Function.update m.machine.threads i pc j).admitted = false) ∧
      ∀ a < sched.fresh, sched.pending a → a ∈ sched.tl := by
  obtain ⟨hadmitted, hpending⟩ := hm.linked hdestroying
  obtain ⟨hfresh, -⟩ := hthread.tl_of_not_admitted (hadmitted i)
  constructor
  · refine (Function.forall_update_iff _ (p := fun _ (pc : Pc) ↦ pc.admitted = false)).mpr
      ⟨?_, fun j _ ↦ hadmitted j⟩
    by_contra hlater
    have hadmit := hthread.admits (Bool.eq_true_of_not_eq_false hlater)
    cases hdestroying.symm.trans (hadmits hadmit)
  · intro a ha hpend
    rcases hthread.pending_or_arms (hadmitted i) hpend with ⟨hbefore, hstays⟩ | ⟨harm, htl⟩
    · exact hstays (hpending a (hfresh ▸ ha) hbefore)
    · rw [htl]
      exact harms a harm

/-- A step of a call that fits. -/
theorem thread (hm : m.Unloads) {i : ι} (hfits : m.UnloadFits (.step (.thread i)))
    (hstep : m.threadStep platform locks i = some later) : later.Unloads := by
  obtain ⟨hclears, hadmits, harms⟩ := hfits
  unfold Unload.threadStep at hstep
  split_ifs at hstep with hstart hremoved halloc
  · cases hstep
    exact ⟨hm.seen, hm.quiet, hm.linked, hm.emptied, hm.woken, hm.alloc⟩
  · cases hstep
    refine ⟨hm.seen, hm.quiet, hm.linked, hm.emptied, hm.woken,
      Bool.or_eq_false_iff.mpr ⟨hm.alloc, ?_⟩⟩
    by_contra hdestroyed
    have hdestroying :=
      ExitPc.destroying_of_cacheDestroyed (Bool.eq_true_of_not_eq_false hdestroyed)
    cases halloc.1.symm.trans ((hm.linked hdestroying).1 i)
  · obtain ⟨machine, hmachine, rfl⟩ := Option.map_eq_some_iff.mp hstep
    cases next_spec hmachine with
    | @thread _ pc s hthread =>
      refine ⟨fun hwait ↦ ?_,
        fun hstopped ↦ ⟨(hm.quiet hstopped).1, hm.quiet_thread hthread hclears hstopped⟩,
        fun hdestroying ↦ hm.linked_thread hthread hadmits (harms hdestroying) hdestroying,
        fun hemptied ↦ ?_, ?_, hm.alloc⟩
      · obtain ⟨htested, hrunning⟩ := hm.seen hwait
        refine ⟨htested, fun hsleeps ↦ ?_⟩
        rcases hthread.dispaching_or with hsame | hwoken
        · exact hsame.trans (hrunning hsleeps)
        · exact hwoken
      · have hadmitted := (hm.linked (ExitPc.destroying_of_emptied hemptied)).1 i
        exact (hthread.tl_of_not_admitted hadmitted).2 (hm.emptied hemptied)
      · refine Bool.or_eq_false_iff.mpr ⟨hm.woken, ?_⟩
        by_contra hboth
        obtain ⟨hwaking, hstopped⟩ := Bool.and_eq_true_iff.mp (Bool.eq_true_of_not_eq_false hboth)
        cases hwaking.symm.trans ((hm.quiet hstopped).2 i)

/-- A step of the dispatching thread. -/
theorem dispatcher (hm : m.Unloads) (hstep : m.dispatcherStep platform locks = some later) :
    later.Unloads := by
  unfold Unload.dispatcherStep at hstep
  split_ifs at hstep with hleft htop hstop
  · cases hstep
    exact ⟨hm.seen, hm.quiet, hm.linked, hm.emptied, hm.woken, hm.alloc⟩
  · cases hstep
    refine ⟨fun hwait ↦ ?_, hm.quiet, hm.linked, hm.emptied, hm.woken, hm.alloc⟩
    have hwait : m.exit = .waitStop := hwait
    rw [hwait] at hstop
    exact absurd rfl hstop
  · obtain ⟨machine, hmachine, rfl⟩ := Option.map_eq_some_iff.mp hstep
    cases next_spec hmachine with
    | @dispatcher pc s hdispatcher =>
      have hsame := hdispatcher.sameTasks
      refine ⟨fun hwait ↦ ⟨rfl, ?_⟩, hm.quiet, fun hdestroying ↦ ?_, fun hemptied ↦ ?_, hm.woken,
        hm.alloc⟩
      · obtain ⟨htested, hrunning⟩ := hm.seen hwait
        show pc = .beforeSchedule ∨ pc = .asleep → s.dispaching = .running
        generalize m.machine.dispatcher = before at hdispatcher htop hrunning
        cases hdispatcher with
        | setState => exact absurd ⟨rfl, htested⟩ htop
        | sleep hinterruptible =>
          intro _
          exact hrunning (.inl rfl)
        | _ => rintro (hpc | hpc) <;> cases hpc
      · obtain ⟨hadmitted, hpending⟩ := hm.linked hdestroying
        refine ⟨hadmitted, fun a ha hpend ↦ ?_⟩
        show a ∈ s.tl
        rw [hsame.tl]
        refine hpending a (hsame.fresh ▸ ha) ?_
        have hlater : s.pending a := hpend
        rw [Scheduler.pending, hdispatcher.timer] at hlater
        exact hlater
      · exact hsame.tl.trans (hm.emptied hemptied)

/-- Every step that fits. -/
theorem next (hm : m.Unloads) {label : UnloadLabel ι} (hfits : m.UnloadFits label)
    (hnext : m.next platform locks label = some later) : later.Unloads := by
  cases label with
  | exit => exact hm.exit hfits hnext
  | step label =>
    cases label with
    | thread i => exact hm.thread hfits hnext
    | dispatcher => exact hm.dispatcher hnext
    | fire a =>
      obtain ⟨-, hmap⟩ := Option.ite_none_right_eq_some.mp hnext
      obtain ⟨machine, hmachine, rfl⟩ := Option.map_eq_some_iff.mp hmap
      cases next_spec hmachine
      exact hm.fire hfits _
    | callbackWake =>
      obtain ⟨machine, hmachine, rfl⟩ := Option.map_eq_some_iff.mp hnext
      cases next_spec hmachine with
      | callbackWake hcallbacks =>
        have hrunning : m.exit.stopped = false := by
          by_contra hstopped
          exact hcallbacks (hm.quiet (Bool.eq_true_of_not_eq_false hstopped)).1
        refine ⟨fun hwait ↦ ⟨(hm.seen hwait).1, fun _ ↦ rfl⟩, fun hstopped ↦ ?_, hm.linked,
          hm.emptied, Bool.or_eq_false_iff.mpr ⟨hm.woken, hrunning⟩, hm.alloc⟩
        cases hstopped.symm.trans hrunning
    | tick =>
      cases hnext
      exact ⟨hm.seen, hm.quiet, hm.linked, hm.emptied, hm.woken, hm.alloc⟩

end Unloads

end Unload

/-! ### Runs -/

/-- In every state that a run of any calls and an unload reaches, under any locks, the unload is
safe, as long as each step fits. -/
theorem unloadSafe_of_reachable {ι : Type*} [DecidableEq ι] {platform : Platform} {locks : Locks}
    {slab : Addr → Mp2TaskStruct} {now : UInt64} {calls : ι → Call} {m : Unload ι}
    (hreach : ReachableUnder (Unload.next platform locks) Unload.UnloadFits
      (Unload.start slab now calls) m) : m.UnloadSafe := by
  have hm : m.Unloads := hreach.invariant Unload.Unloads (.start slab now calls)
    fun _ _ _ hbefore hfits hnext ↦ hbefore.next hfits hnext
  exact hm.unloadSafe

/-- Repeated steps. -/
def UnloadLabel.times {ι : Type*} (label : UnloadLabel ι) (count : ℕ) : List (UnloadLabel ι) :=
  List.replicate count label

/-- Pid 1 is registered and yields, and the module is unloaded while its timer is pending and the
dispatching thread sleeps. -/
theorem unloadSafe_of_reachable_armed :
    let calls : Fin 2 → Call := fun i ↦
      if i = 0 then .register ⟨1, 2, 1, some 1⟩ else .yeild 1
    ∃ m, Reachable (Unload.next platformHz1000 mutexes) (Unload.start zeroSlab 5 calls) m ∧
      m.exit = .returned ∧ (m.machine.threads 1).outcome = some (.returned 0) ∧ m.UnloadSafe := by
  intro calls
  obtain ⟨m, hreach, hexit, hdone⟩ : ∃ m, ReachableUnder (Unload.next platformHz1000 mutexes)
      Unload.UnloadFits (Unload.start zeroSlab 5 calls) m ∧
        m.exit = .returned ∧ (m.machine.threads 1).outcome = some (.returned 0) :=
    exists_reachableUnder_of_run
      (UnloadLabel.times (.step (.thread 0)) 7 ++ UnloadLabel.times (.step (.thread 1)) 8 ++
        UnloadLabel.times (.step .dispatcher) 3 ++ UnloadLabel.times .exit 2 ++
        UnloadLabel.times (.step .dispatcher) 4 ++ UnloadLabel.times .exit 11)
      (by decide +kernel) (by decide +kernel)
  exact ⟨m, hreach.mono fun _ _ _ ↦ trivial, hexit, hdone, unloadSafe_of_reachable hreach⟩

/-- The wake-up of `kthread_stop` falls between the test and `TASK_INTERRUPTIBLE`, and the thread
goes to sleep. A timer expires after `kthread_stop` has returned, and its callback wakes the thread.
A registration begins after the cache was destroyed. A registration that was admitted before links
its record after the list was emptied. -/
theorem unloadSafe_overtaken :
    let start : Unload (Fin 2) := Unload.start zeroSlab 5 fun i ↦
      if i = 0 then .register ⟨1, 2, 1, some 1⟩ else .yeild 1
    (¬ ∀ m, Reachable (Unload.next platformHz1000 mutexes) start m → m.StopSeen) ∧
      (¬ ∀ m, Reachable (Unload.next platformHz1000 mutexes) start m → m.wokenStopped = false) ∧
      (¬ ∀ m, Reachable (Unload.next platformHz1000 mutexes) start m → m.allocDestroyed = false) ∧
      ¬ ∀ m, Reachable (Unload.next platformHz1000 mutexes) start m → m.NothingLeft := by
  intro start
  refine ⟨fun hall ↦ ?_, fun hall ↦ ?_, fun hall ↦ ?_, fun hall ↦ ?_⟩
  · obtain ⟨m, hreach, hfails⟩ : ∃ m, Reachable (Unload.next platformHz1000 mutexes) start m ∧
        ¬ m.StopSeen :=
      exists_reachableUnder_of_run
        ([.step .dispatcher] ++ UnloadLabel.times .exit 2 ++
          UnloadLabel.times (.step .dispatcher) 2)
        (by decide +kernel) (by decide +kernel)
    exact hfails (hall m hreach)
  · obtain ⟨m, hreach, hfails⟩ : ∃ m, Reachable (Unload.next platformHz1000 mutexes) start m ∧
        ¬ m.wokenStopped = false :=
      exists_reachableUnder_of_run
        (UnloadLabel.times (.step (.thread 0)) 7 ++ UnloadLabel.times (.step (.thread 1)) 8 ++
          UnloadLabel.times .exit 2 ++ [.step .dispatcher, .exit] ++
          UnloadLabel.times (.step .tick) 2 ++ [.step (.fire 0), .step .callbackWake])
        (by decide +kernel) (by decide +kernel)
    exact hfails (hall m hreach)
  · obtain ⟨m, hreach, hfails⟩ : ∃ m, Reachable (Unload.next platformHz1000 mutexes) start m ∧
        ¬ m.allocDestroyed = false :=
      exists_reachableUnder_of_run
        (UnloadLabel.times .exit 2 ++ [.step .dispatcher] ++ UnloadLabel.times .exit 7 ++
          UnloadLabel.times (.step (.thread 0)) 6)
        (by decide +kernel) (by decide +kernel)
    exact hfails (hall m hreach)
  · obtain ⟨m, hreach, hfails⟩ : ∃ m, Reachable (Unload.next platformHz1000 mutexes) start m ∧
        ¬ m.NothingLeft :=
      exists_reachableUnder_of_run
        (UnloadLabel.times (.step (.thread 0)) 6 ++ UnloadLabel.times .exit 2 ++
          [.step .dispatcher] ++ UnloadLabel.times .exit 7 ++ [.step (.thread 0)] ++
          UnloadLabel.times .exit 3)
        (by decide +kernel) (by decide +kernel)
    exact hfails (hall m hreach)

end KernelModules.RateMonotonic
