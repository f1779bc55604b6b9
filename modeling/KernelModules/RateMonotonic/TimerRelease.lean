import KernelModules.RateMonotonic.LinkedRecords

/-!
# Timer releases

A task that sleeps after a yield is released by its timer, so the timer should be pending
(`ReleasePending`). `Task_yeild` arms the timer before it assigns `SLEEPING`, and the timer callback
does not take `tl_lock`. A timer that fires between the two statements marks the task `READY`; the
yield then overwrites the mark, and no release is left.

That is the only way to lose a release: `releasePending_of_reachable` says that in every run in
which no timer fires in that gap of a yield of its task, every state has its releases pending. The
invariant behind it (`SleepArmed`) covers yields in progress: a listed task that some yield is about
to put to sleep has its timer pending, and so has one that a yield has put to sleep and that still
sleeps.
-/

set_option autoImplicit false
set_option relaxedAutoImplicit false

namespace KernelModules.RateMonotonic

open Foundation Scheduler

/-- The record of a yield in progress. -/
def Pc.yeilding : Pc → Option Addr
  | .yeildDeadline t => some t
  | .yeildArm t => some t
  | .yeildSleep t => some t
  | .yeildBlock t => some t
  | .yeildClear t => some t
  | .yeildWake t => some t
  | _ => none

/-- The record that a yield has put to sleep. -/
def Pc.slept : Pc → Option Addr
  | .yeildBlock t => some t
  | .yeildClear t => some t
  | .yeildWake t => some t
  | .yeildDone t => some t
  | _ => none

variable {ι : Type*}

/-- Every registered task that has completed a yield, that no yield is in progress of, and that is
`SLEEPING` has its timer pending. -/
def ReleasePending (m : Machine ι) : Prop :=
  ∀ t ∈ m.sched.tl, (∃ i, m.threads i = .yeildDone t) → (∀ i, (m.threads i).yeilding ≠ some t) →
    (m.sched.slab t).state = .sleeping → m.sched.pending t

/-- No timer fires between the `mod_timer` and the `SLEEPING` of a yield of its task. -/
def FireFits (m : Machine ι) : Label ι → Prop
  | .fire a => ∀ i, m.threads i ≠ .yeildSleep a
  | _ => True

instance {n : ℕ} (m : Machine (Fin n)) : ∀ label, Decidable (FireFits m label)
  | .thread _ => isTrue trivial
  | .dispatcher => isTrue trivial
  | .fire a => inferInstanceAs (Decidable (∀ i, m.threads i ≠ .yeildSleep a))
  | .callbackWake => isTrue trivial
  | .tick => isTrue trivial

/-- The timer of a listed task is pending when a yield has armed it and is about to put the task to
sleep, and when a yield has put the task to sleep and it still sleeps. -/
structure SleepArmed (m : Machine ι) : Prop where
  armed : ∀ i a, m.threads i = .yeildSleep a → a ∈ m.sched.tl → m.sched.pending a
  slept : ∀ i a, (m.threads i).slept = some a → a ∈ m.sched.tl →
    (m.sched.slab a).state = .sleeping → m.sched.pending a

/-! ### Timers and sleeping tasks under one step -/

/-- A change of state keeps the timers. -/
theorem pending_setState {s : Scheduler} {a : Addr} (hpending : s.pending a) (b : Addr)
    (state : TaskState) : (s.setState b state).pending a := by
  rw [Scheduler.pending, slab_setState_of_keep (fun task ↦ task.timer) (fun _ _ ↦ rfl)]
  exact hpending

section Thread

variable {platform : Platform} {locks : Locks} {now : UInt64} {pc later : Pc} {s t : Scheduler}
  {a : Addr}

/-- A step of a thread keeps the timers of the records that stay listed. Assumes: a list without
repetition, and a record that was not just linked. -/
theorem ThreadStep.pending (hstep : ThreadStep platform locks now s pc later t)
    (hnodup : s.tl.Nodup) (ha : a ∈ t.tl) (hne : a ≠ s.fresh) (hpending : s.pending a) :
    t.pending a := by
  cases hstep with
  | insert =>
    rw [Scheduler.pending, insert_slab, Function.update_of_ne hne]
    exact hpending
  | @miss task =>
    rw [Scheduler.pending, Locks.leave_slab, (advanceDdl_keeps s platform now task a).1]
    exact hpending
  | @deadline task =>
    rw [Scheduler.pending, lockTl_slab, (advanceDdl_keeps s platform now task a).1]
    exact hpending
  | @arm task =>
    by_cases hat : a = task
    · rw [hat, Scheduler.pending, modTimer, slab_modify_self]
      exact Option.some_ne_none _
    · rw [Scheduler.pending, modTimer, slab_modify_of_ne s hat]
      exact hpending
  | sleep => exact pending_setState hpending _ .sleeping
  | @unlink task =>
    have hat : a ≠ task := (hnodup.mem_erase_iff.mp ha).1
    rw [Scheduler.pending, unlockTl_slab, slab_removeTask_of_ne s hat]
    exact hpending
  | _ => exact hpending

/-- A step of a thread puts a task to sleep only in a yield of it. Assumes: a record that was not
just linked. -/
theorem ThreadStep.sleeping (hstep : ThreadStep platform locks now s pc later t)
    (hne : a ≠ s.fresh) (hsleeping : (t.slab a).state = .sleeping) :
    (s.slab a).state = .sleeping ∨ pc = .yeildSleep a := by
  cases hstep with
  | insert =>
    rw [insert_slab, Function.update_of_ne hne] at hsleeping
    exact .inl hsleeping
  | @miss task =>
    rw [Locks.leave_slab, (advanceDdl_keeps s platform now task a).2] at hsleeping
    exact .inl hsleeping
  | @deadline task =>
    rw [lockTl_slab, (advanceDdl_keeps s platform now task a).2] at hsleeping
    exact .inl hsleeping
  | @arm task =>
    rw [state_modTimer] at hsleeping
    exact .inl hsleeping
  | @sleep task =>
    rw [state_setState] at hsleeping
    split_ifs at hsleeping with hat
    · exact .inr (by rw [hat])
    · exact .inl hsleeping
  | @unlink task =>
    have hstate := slab_removeTask_of_keep (fun record ↦ record.state) (fun _ _ ↦ rfl) s task a
    exact .inl (hstate ▸ hsleeping)
  | _ => exact .inl hsleeping

/-- A thread is about to put a task to sleep only after it has armed its timer. -/
theorem ThreadStep.armed (hstep : ThreadStep platform locks now s pc later t)
    (hlater : later = .yeildSleep a) : t.pending a := by
  cases hstep with
  | arm =>
    rw [Pc.yeildSleep.injEq] at hlater
    rw [hlater, Scheduler.pending, modTimer, slab_modify_self]
    exact Option.some_ne_none _
  | _ => cases hlater

/-- A thread has put a task to sleep before the step, or does so in the step. -/
theorem ThreadStep.slept (hstep : ThreadStep platform locks now s pc later t)
    (hlater : later.slept = some a) : pc.slept = some a ∨ pc = .yeildSleep a := by
  cases hstep with
  | sleep =>
    cases hlater
    exact .inr rfl
  | _ => first | exact .inl hlater | cases hlater

/-- A record that is listed after a step of a thread was listed before, or is new. -/
theorem ThreadStep.mem_tl (hstep : ThreadStep platform locks now s pc later t) (ha : a ∈ t.tl) :
    a ∈ s.tl ∨ a = s.fresh := by
  cases hstep.effect with
  | keep hsame => exact .inl (hsame.tl ▸ ha)
  | insert => exact (List.mem_append.mp ha).imp_right List.mem_singleton.mp
  | unlink => exact .inl (List.mem_of_mem_erase ha)

end Thread

/-- A step of the dispatching thread touches no timer, and puts no task to sleep. -/
theorem DispatcherStep.sleeping {s t : Scheduler} {pc later : DispatcherPc}
    (hstep : DispatcherStep s pc later t) (a : Addr) :
    (s.pending a → t.pending a) ∧
      ((t.slab a).state = .sleeping → (s.slab a).state = .sleeping) := by
  have hset : ∀ (u : Scheduler) (b : Addr) (state : TaskState), state ≠ .sleeping →
      (u.pending a → (u.setState b state).pending a) ∧
        (((u.setState b state).slab a).state = .sleeping → (u.slab a).state = .sleeping) := by
    intro u b state hstate
    exact ⟨fun hpending ↦ pending_setState hpending b state,
      fun hsleeping ↦ (state_of_setState hsleeping hstate).2⟩
  have hready : TaskState.ready ≠ .sleeping := by decide
  have hrunning : TaskState.running ≠ .sleeping := by decide
  have hsection : ∀ highest, (s.pending a → (ctSection highest s).state.pending a) ∧
      (((ctSection highest s).state.slab a).state = .sleeping →
        (s.slab a).state = .sleeping) := by
    intro highest
    have hcases := ctSection_step s highest
    generalize ctSection highest s = result at hcases
    cases hcases with
    | idle => exact ⟨id, id⟩
    | demoteFault => exact hset s _ .ready hready
    | demote => exact hset s _ .ready hready
    | keep => exact ⟨id, id⟩
    | startFault => exact ⟨id, id⟩
    | preemptFault => exact hset s _ .ready hready
    | start => exact hset s _ .running hrunning
    | @preempt h cur =>
      obtain ⟨hpending, hsleeping⟩ := hset s cur .ready hready
      obtain ⟨hpending', hsleeping'⟩ := hset (s.setState cur .ready) h .running hrunning
      exact ⟨fun ha ↦ hpending' (hpending ha), fun ha ↦ hsleeping (hsleeping' ha)⟩
  cases hstep with
  | section_ => exact hsection _
  | fault => exact hsection _
  | _ => exact ⟨id, id⟩

/-- The expiry of a timer touches no other timer, and puts no task to sleep. -/
theorem fire_of_ne (s : Scheduler) {a b : Addr} (hne : b ≠ a) :
    (s.pending b → (s.fire a).pending b) ∧
      (((s.fire a).slab b).state = .sleeping → (s.slab b).state = .sleeping) := by
  have hdel : (s.delTimer a).slab b = s.slab b := slab_modify_of_ne s hne _
  constructor
  · intro hpending
    rw [Scheduler.pending, Scheduler.fire,
      slab_markReady_of_keep (fun task ↦ task.timer) (fun _ _ ↦ rfl), hdel]
    exact hpending
  · intro hsleeping
    rw [Scheduler.fire, slab_markReady, hdel] at hsleeping
    split_ifs at hsleeping
    exact hsleeping

/-- The expiry of the timer of a listed task marks it `READY`. Assumes: a timer that carries the
pid. -/
theorem fire_ready {s : Scheduler} {a : Addr} (ha : a ∈ s.tl)
    (hdata : (s.slab a).timer.data = (s.slab a).pid) : ((s.fire a).slab a).state = .ready := by
  have hpid : ((s.delTimer a).slab a).pid = (s.slab a).timer.data := by
    rw [(sameTasks_delTimer s a).pid, hdata]
  rw [Scheduler.fire, slab_markReady, if_pos ⟨ha, hpid⟩]

/-! ### Runs -/

namespace SleepArmed

variable {platform : Platform} {locks : Locks} {m later : Machine ι}

/-- In the invariant, every release is pending. -/
theorem releasePending (hm : SleepArmed m) : ReleasePending m := by
  rintro t ht ⟨i, hdone⟩ - hsleeping
  exact hm.slept i t (by rw [hdone]; rfl) ht hsleeping

variable [DecidableEq ι]

/-- A step whose timer fits keeps the invariant. Assumes: records in use that are allocated. -/
theorem next (halloc : Allocated m) (hm : SleepArmed m) {label : Label ι}
    (hnext : RateMonotonic.next platform locks m label = some later)
    (hfits : FireFits m label) : SleepArmed later := by
  cases next_spec hnext with
  | @thread i pc s hthread =>
    -- a record that a thread holds was not just linked
    have hold : ∀ j a, (m.threads j).task = some a → a ≠ m.sched.fresh := fun j a ha ↦
      (halloc.thread_fresh j a ha).ne
    have hlisted : ∀ {a}, a ∈ s.tl → a ≠ m.sched.fresh → a ∈ m.sched.tl := fun ha hne ↦
      (hthread.mem_tl ha).resolve_right hne
    have hkeep : ∀ {a}, a ∈ s.tl → a ≠ m.sched.fresh → m.sched.pending a → s.pending a :=
      fun ha hne hpending ↦ hthread.pending halloc.tl_nodup ha hne hpending
    have hsleep : ∀ j a, (m.threads j).slept = some a → a ∈ s.tl →
        (s.slab a).state = .sleeping → s.pending a := by
      intro j a hslept ha hsleeping
      have hne : a ≠ m.sched.fresh := by
        refine hold j a ?_
        cases hj : m.threads j <;> rw [hj] at hslept <;> first | exact hslept | cases hslept
      rcases hthread.sleeping hne hsleeping with hbefore | hpc
      · exact hkeep ha hne (hm.slept j a hslept (hlisted ha hne) hbefore)
      · exact hkeep ha hne (hm.armed i a hpc (hlisted ha hne))
    constructor
    · intro j a hj ha
      by_cases hji : j = i
      · simp only [hji, Function.update_self] at hj
        exact hthread.armed hj
      · simp only [Function.update_of_ne hji] at hj
        have hne := hold j a (by rw [hj]; rfl)
        exact hkeep ha hne (hm.armed j a hj (hlisted ha hne))
    · intro j a hj ha hsleeping
      by_cases hji : j = i
      · simp only [hji, Function.update_self] at hj
        rcases hthread.slept hj with hslept | hpc
        · exact hsleep i a hslept ha hsleeping
        · have hne := hold i a (by rw [hpc]; rfl)
          exact hkeep ha hne (hm.armed i a hpc (hlisted ha hne))
      · simp only [Function.update_of_ne hji] at hj
        exact hsleep j a hj ha hsleeping
  | dispatcher hdispatcher =>
    have htl := hdispatcher.sameTasks.tl
    constructor
    · intro j a hj ha
      exact (hdispatcher.sleeping a).1 (hm.armed j a hj (htl ▸ ha))
    · intro j a hj ha hsleeping
      have hstep := hdispatcher.sleeping a
      exact hstep.1 (hm.slept j a hj (htl ▸ ha) (hstep.2 hsleeping))
  | @fire a =>
    have htl := (sameTasks_fire m.sched a).tl
    constructor
    · intro j b hj hb
      have hne : b ≠ a := by
        rintro rfl
        exact hfits j hj
      exact (fire_of_ne m.sched hne).1 (hm.armed j b hj (htl ▸ hb))
    · intro j b hj hb hsleeping
      by_cases hba : b = a
      · -- the task that is released does not sleep any more
        have hlisted : a ∈ m.sched.tl := hba ▸ htl ▸ hb
        have hready := fire_ready hlisted (halloc.timer_data a hlisted)
        rw [hba, hready] at hsleeping
        cases hsleeping
      · have hstep := fire_of_ne m.sched hba
        exact hstep.1 (hm.slept j b hj (htl ▸ hb) (hstep.2 hsleeping))
  | callbackWake => exact ⟨hm.armed, hm.slept⟩
  | tick => exact ⟨hm.armed, hm.slept⟩

end SleepArmed

variable [DecidableEq ι]

/-- In every state that a run reaches, of any threads and under any locks, the releases are pending,
as long as no timer fires in the gap of a yield of its task. -/
theorem releasePending_of_reachable {platform : Platform} {locks : Locks}
    {slab : Addr → Mp2TaskStruct} {now : UInt64} {calls : ι → Call} {m : Machine ι}
    (hreach : ReachableUnder (next platform locks) FireFits
      (Machine.start (mp2Init slab) now calls) m) : ReleasePending m := by
  have hstart : SleepArmed (Machine.start (mp2Init slab) now calls) := by
    constructor
    · intro i a hi
      cases hi
    · intro i a hi
      cases hi
  refine (hreach.invariant (fun m ↦ Allocated m ∧ SleepArmed m) ⟨.start slab now calls, hstart⟩
    ?_).2.releasePending
  rintro before label later ⟨halloc, hm⟩ hfits hnext
  exact ⟨halloc.next hnext, hm.next halloc hnext hfits⟩

/-- Thread 0 registers pid 1, and thread 1 yields for it: the task has its release pending. -/
theorem releasePending_of_reachable_yeilded :
    let calls : Fin 2 → Call := fun i ↦
      if i = 0 then .register ⟨1, 2, 1, some 1⟩ else .yeild 1
    ∃ m, Reachable (next platformHz1000 mutexes) (Machine.start (mp2Init zeroSlab) 5 calls) m ∧
      (m.threads 1).outcome = some (.returned 0) ∧ ReleasePending m := by
  intro calls
  obtain ⟨m, hreach, hdone⟩ : ∃ m, ReachableUnder (next platformHz1000 mutexes) FireFits
      (Machine.start (mp2Init zeroSlab) 5 calls) m ∧
        (m.threads 1).outcome = some (.returned 0) :=
    exists_reachableUnder_of_run [.thread 0, .thread 0, .thread 0, .thread 0, .thread 0, .thread 1,
      .thread 1, .thread 1, .thread 1, .thread 1, .thread 1, .thread 1] (by decide +kernel)
      (by decide +kernel)
  exact ⟨m, hreach.mono fun _ _ _ ↦ trivial, hdone, releasePending_of_reachable hreach⟩

/-- Thread 1 yields for pid 1 at time 5 with deadline 7. The timer fires at time 7, after the
`mod_timer` and before the `SLEEPING`: when both calls have returned, the task sleeps and its timer
is not pending. -/
theorem releasePending_lost :
    let calls : Fin 2 → Call := fun i ↦
      if i = 0 then .register ⟨1, 2, 1, some 1⟩ else .yeild 1
    ∃ m, Reachable (next platformHz1000 mutexes) (Machine.start (mp2Init zeroSlab) 5 calls) m ∧
      ¬ ReleasePending m := by
  intro calls
  obtain ⟨m, hreach, hlisted, hdone, hyeilding, hsleeping, hexpired⟩ :
      ∃ m, Reachable (next platformHz1000 mutexes) (Machine.start (mp2Init zeroSlab) 5 calls) m ∧
        0 ∈ m.sched.tl ∧ m.threads 1 = .yeildDone 0 ∧
          (∀ i, (m.threads i).yeilding ≠ some 0) ∧ (m.sched.slab 0).state = .sleeping ∧
            (m.sched.slab 0).timer.expires = none :=
    exists_reachableUnder_of_run [.thread 0, .thread 0, .thread 0, .thread 0, .thread 0, .thread 1,
      .thread 1, .thread 1, .tick, .tick, .fire 0, .callbackWake, .thread 1, .thread 1, .thread 1,
      .thread 1] (by decide +kernel) (by decide +kernel)
  exact ⟨m, hreach, fun hm ↦ hm 0 hlisted ⟨1, hdone⟩ hyeilding hsleeping hexpired⟩

end KernelModules.RateMonotonic
