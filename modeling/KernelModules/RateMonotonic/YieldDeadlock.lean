import KernelModules.RateMonotonic.LinkedRecords

/-!
# Yields that sleep with `tl_lock` held

`Task_yeild` sets the state of the yielding process to `TASK_UNINTERRUPTIBLE` and calls `schedule`
while it holds `tl_lock`. In a call that a helper makes for the process, `schedule` returns. In a
call that the process makes itself it returns once the dispatching thread has woken the process, and
the dispatching thread takes `tl_lock` before it selects a task.

The machine is the one of the interleaved calls, with the process that makes each call (`caller`)
and the callers that sleep in `schedule`. `not_yieldDeadlock_of_reachable` says when this is safe: a
process that yields itself goes to sleep only after the dispatching thread has made its selection,
and is about to wake that process. The invariant is that of an exclusive lock, and that every
sleeping caller is the process that the next section under `ct_lock` wakes: nobody changes what that
section will find while the caller holds `tl_lock`.
-/

set_option autoImplicit false
set_option relaxedAutoImplicit false

namespace KernelModules.RateMonotonic

open Foundation Scheduler

/-! ### Callers that sleep -/

/-- The points at which a thread holds `tl_lock`. -/
def Pc.holdsTl : Pc → Bool
  | .yeildArm _ => true
  | .yeildSleep _ => true
  | .yeildBlock _ => true
  | .yeildClear _ => true
  | .deregClear _ => true
  | .deregWake _ => true
  | .deregUnlink _ => true
  | _ => false

/-- The process that the section under `ct_lock` wakes, for the task that was selected. A task with
a NULL `linux_task` ends the section before. -/
def Scheduler.wakesUp (s : Scheduler) : Option Addr → Option LinuxTask
  | none => none
  | some h =>
    match s.ct with
    | none => (s.slab h).linuxTask
    | some cur =>
      if s.outranked cur h && (s.slab cur).linuxTask.isSome then (s.slab h).linuxTask else none

/-- The process that the next step of the dispatching thread wakes. -/
def DispatcherPc.wakes (s : Scheduler) : DispatcherPc → Option LinuxTask
  | .picked highest => s.wakesUp highest
  | _ => none

/-- The next step of a call of `caller` sets the state of `caller` itself, and calls `schedule`. -/
def Pc.sleeps (s : Scheduler) (caller : LinuxTask) : Pc → Bool
  | .yeildBlock t => (s.slab t).linuxTask = some caller
  | _ => false

/-- The machine, with the threads whose callers sleep in `Task_yeild`. -/
structure Sleepers (ι : Type*) where
  machine : Machine ι
  asleep : ι → Bool

variable {ι : Type*}

namespace Sleepers

/-- The start: no call has begun. -/
def start (s : Scheduler) (now : UInt64) (calls : ι → Call) : Sleepers ι where
  machine := Machine.start s now calls
  asleep := fun _ ↦ false

/-- A caller sleeps while it holds `tl_lock`, and the dispatching thread waits for `tl_lock`. -/
def YieldDeadlock (m : Sleepers ι) : Prop :=
  ∃ i, m.asleep i = true ∧ (m.machine.threads i).holdsTl = true ∧
    m.machine.dispatcher = .awake ∧ m.machine.sched.tlLock = true

instance [Fintype ι] (m : Sleepers ι) : Decidable m.YieldDeadlock :=
  inferInstanceAs (Decidable (∃ i, m.asleep i = true ∧ (m.machine.threads i).holdsTl = true ∧
    m.machine.dispatcher = .awake ∧ m.machine.sched.tlLock = true))

/-- A caller goes to sleep in its own yield only when the next step of the dispatching thread wakes
it. -/
def WokenInTime (caller : ι → LinuxTask) (m : Sleepers ι) : Label ι → Prop
  | .thread i => (m.machine.threads i).sleeps m.machine.sched (caller i) = true →
      m.machine.dispatcher.wakes m.machine.sched = some (caller i)
  | _ => True

instance (caller : ι → LinuxTask) (m : Sleepers ι) : ∀ label, Decidable (WokenInTime caller m label)
  | .thread i => inferInstanceAs (Decidable
      ((m.machine.threads i).sleeps m.machine.sched (caller i) = true →
        m.machine.dispatcher.wakes m.machine.sched = some (caller i)))
  | .dispatcher => isTrue trivial
  | .fire _ => isTrue trivial
  | .callbackWake => isTrue trivial
  | .tick => isTrue trivial

variable [DecidableEq ι]

/-- The step of the machine. A thread whose caller sleeps takes no step, and the dispatching thread
wakes all calls of a process. -/
def next (platform : Platform) (caller : ι → LinuxTask) (m : Sleepers ι) :
    Label ι → Option (Sleepers ι)
  | .thread i =>
    if m.asleep i then none
    else (RateMonotonic.next platform mutexes m.machine (.thread i)).map fun later ↦
      { machine := later
        asleep := Function.update m.asleep i
          ((m.machine.threads i).sleeps m.machine.sched (caller i)) }
  | .dispatcher =>
    (RateMonotonic.next platform mutexes m.machine .dispatcher).map fun later ↦
      { machine := later
        asleep := fun i ↦
          m.asleep i && m.machine.dispatcher.wakes m.machine.sched ≠ some (caller i) }
  | .fire a => (RateMonotonic.next platform mutexes m.machine (.fire a)).map (⟨·, m.asleep⟩)
  | .callbackWake =>
    (RateMonotonic.next platform mutexes m.machine .callbackWake).map (⟨·, m.asleep⟩)
  | .tick => (RateMonotonic.next platform mutexes m.machine .tick).map (⟨·, m.asleep⟩)

end Sleepers

/-! ### The lock -/

section Lock

variable {platform : Platform} {now : UInt64} {pc later : Pc} {s t : Scheduler}

/-- A thread outside the sections of `tl_lock` enters none while the lock is held, and changes
neither the records nor `ct`. -/
theorem threadStep_outside (hpc : pc.holdsTl = false) (hlock : s.tlLock = true)
    (hstep : threadStep platform mutexes now pc s = some (later, t)) :
    later.holdsTl = false ∧ t.tlLock = true ∧ t.slab = s.slab ∧ t.ct = s.ct := by
  have hwait : mutexes.wait s.tlLock = true := hlock
  cases pc with
  | start call => cases call <;> simp [threadStep, hwait] at hstep
  | registerTest q =>
    simp only [threadStep] at hstep
    split_ifs at hstep <;> cases hstep <;> exact ⟨rfl, hlock, rfl, rfl⟩
  | registerLoad q =>
    cases hstep
    exact ⟨rfl, hlock, rfl, rfl⟩
  | registerStore q loaded =>
    cases hstep
    exact ⟨rfl, hlock, rfl, rfl⟩
  | registerInsert q => simp [threadStep, hwait] at hstep
  | yeildDeadline task => simp [threadStep, hwait] at hstep
  | yeildWake task =>
    cases hstep
    exact ⟨rfl, hlock, rfl, rfl⟩
  | deregCheck task => simp [threadStep, hwait] at hstep
  | yeildDone task => cases hstep
  | returned code => cases hstep
  | faulted fault => cases hstep
  | _ => cases hpc

/-- A thread holds `tl_lock` where it should. Assumes: it does so before the step. -/
theorem ThreadStep.tlLock {locks : Locks} (hstep : ThreadStep platform locks now s pc later t)
    (hpc : pc.holdsTl = true → s.tlLock = true) (hlater : later.holdsTl = true) :
    t.tlLock = true := by
  cases hstep with
  | deadline => rfl
  | arm => exact hpc rfl
  | sleep => exact hpc rfl
  | block => exact hpc rfl
  | current => rfl
  | other => rfl
  | deregClear => exact hpc rfl
  | deregWake => exact hpc rfl
  | _ => cases hlater

end Lock

/-- The section under `ct_lock` keeps `tl_lock`. -/
theorem tlLock_ctSection (s : Scheduler) (highest : Option Addr) :
    (ctSection highest s).state.tlLock = s.tlLock := by
  have hstep := ctSection_step s highest
  generalize ctSection highest s = result at hstep
  cases hstep <;> rfl

/-- What the dispatching thread is going to wake depends on `ct` and on the fixed fields of the
tasks. -/
theorem wakes_congr {s t : Scheduler} (hct : t.ct = s.ct)
    (hfixed : ∀ a, (t.slab a).fixed = (s.slab a).fixed) (pc : DispatcherPc) :
    pc.wakes t = pc.wakes s := by
  have hperiod : ∀ a, (t.slab a).period = (s.slab a).period := fun a ↦ congrArg (·.2.1) (hfixed a)
  have hlinux : ∀ a, (t.slab a).linuxTask = (s.slab a).linuxTask := fun a ↦
    congrArg (·.2.2.2.1) (hfixed a)
  cases pc with
  | picked highest =>
    cases highest with
    | none => rfl
    | some h =>
      simp only [DispatcherPc.wakes, wakesUp, outranked, hct, hperiod, hlinux]
      cases s.ct <;> rfl
  | _ => rfl

/-! ### Sleeping callers are woken -/

/-- At most one thread holds `tl_lock`, and every caller that sleeps holds it and is about to be
woken. -/
structure Waking (caller : ι → LinuxTask) (m : Sleepers ι) : Prop where
  locked : ∀ i, (m.machine.threads i).holdsTl = true → m.machine.sched.tlLock = true
  alone : ∀ i j, (m.machine.threads i).holdsTl = true → (m.machine.threads j).holdsTl = true → i = j
  woken : ∀ i, m.asleep i = true → (m.machine.threads i).holdsTl = true ∧
    m.machine.dispatcher.wakes m.machine.sched = some (caller i)

namespace Waking

variable {caller : ι → LinuxTask} {m : Sleepers ι}

/-- No caller sleeps in a deadlock. -/
theorem not_yieldDeadlock (hm : Waking caller m) : ¬ m.YieldDeadlock := by
  rintro ⟨i, hasleep, -, hdispatcher, -⟩
  have hwoken := (hm.woken i hasleep).2
  rw [hdispatcher] at hwoken
  cases hwoken

variable {platform : Platform} {i : ι} {pc : Pc} {s : Scheduler}

/-- A step of a thread keeps the invariant. Assumes: a caller that goes to sleep is about to be
woken. -/
theorem thread [DecidableEq ι] (hm : Waking caller m)
    (hstep : threadStep platform mutexes m.machine.jiffies (m.machine.threads i) m.machine.sched =
      some (pc, s))
    (hwoken : Sleepers.WokenInTime caller m (.thread i)) :
    Waking caller
      { machine := { m.machine with sched := s, threads := Function.update m.machine.threads i pc }
        asleep := Function.update m.asleep i
          ((m.machine.threads i).sleeps m.machine.sched (caller i)) } := by
  have hspec := threadStep_spec hstep
  -- while another thread holds the lock, this one is outside and stays there
  have hother : ∀ j, j ≠ i → (m.machine.threads j).holdsTl = true →
      pc.holdsTl = false ∧ s.tlLock = true ∧ s.slab = m.machine.sched.slab ∧
        s.ct = m.machine.sched.ct := by
    intro j hj hholds
    refine threadStep_outside ?_ (hm.locked j hholds) hstep
    cases hi : (m.machine.threads i).holdsTl with
    | false => rfl
    | true => exact absurd (hm.alone j i hholds hi) hj
  refine ⟨fun j hj ↦ ?_, fun j k hj hk ↦ ?_, fun j hj ↦ ?_⟩
  · by_cases hji : j = i
    · subst hji
      simp only [Function.update_self] at hj
      exact hspec.tlLock (hm.locked j) hj
    · simp only [Function.update_of_ne hji] at hj
      exact (hother j hji hj).2.1
  · by_cases hji : j = i
    · by_cases hki : k = i
      · rw [hji, hki]
      · simp only [hji, Function.update_self, Function.update_of_ne hki] at hj hk
        rw [(hother k hki hk).1] at hj
        cases hj
    · simp only [Function.update_of_ne hji] at hj
      by_cases hki : k = i
      · simp only [hki, Function.update_self] at hk
        rw [(hother j hji hj).1] at hk
        cases hk
      · simp only [Function.update_of_ne hki] at hk
        exact hm.alone j k hj hk
  · by_cases hji : j = i
    · subst hji
      simp only [Function.update_self] at hj ⊢
      have hwakes := hwoken hj
      generalize m.machine.threads j = before at hspec hj
      cases hspec with
      | block hlinux => exact ⟨rfl, hwakes⟩
      | @blockNull t hnull =>
        rw [Pc.sleeps, hnull] at hj
        cases hj
      | _ => cases hj
    · simp only [Function.update_of_ne hji] at hj ⊢
      obtain ⟨hholds, hwakes⟩ := hm.woken j hj
      obtain ⟨-, -, hslab, hct⟩ := hother j hji hholds
      refine ⟨hholds, (wakes_congr hct (fun a ↦ ?_) _).trans hwakes⟩
      rw [hslab]

/-- A step of the dispatching thread wakes every caller that sleeps. -/
theorem dispatcher (hm : Waking caller m) {pc : DispatcherPc}
    (hstep : dispatcherStep mutexes m.machine.dispatcher m.machine.sched = some (pc, s)) :
    Waking caller
      { machine := { m.machine with sched := s, dispatcher := pc }
        asleep := fun i ↦
          m.asleep i && m.machine.dispatcher.wakes m.machine.sched ≠ some (caller i) } := by
  refine ⟨fun i hi ↦ ?_, hm.alone, fun i hi ↦ ?_⟩
  · have hlock := hm.locked i hi
    have hspec := dispatcherStep_spec hstep
    generalize m.machine.dispatcher = before at hspec hstep
    cases hspec with
    | pick =>
      -- the selection waits for the lock
      have hwait : mutexes.wait m.machine.sched.tlLock = true := hlock
      simp [dispatcherStep, hwait] at hstep
    | section_ hreturned => exact (tlLock_ctSection _ _).trans hlock
    | fault hfaulted => exact (tlLock_ctSection _ _).trans hlock
    | _ => exact hlock
  · obtain ⟨hasleep, hnot⟩ := Bool.and_eq_true_iff.mp hi
    exact absurd (hm.woken i hasleep).2 (of_decide_eq_true hnot)

/-- The expiry of a timer keeps the invariant. -/
theorem fire (hm : Waking caller m) (a : Addr) (callbacks : ℕ) :
    Waking caller
      { m with machine := { m.machine with
          sched := m.machine.sched.fire a, callbacks := callbacks } } := by
  have hlock : (m.machine.sched.fire a).tlLock = m.machine.sched.tlLock := by
    rw [Scheduler.fire, markReady_eq]
    rfl
  refine ⟨fun i hi ↦ hlock.trans (hm.locked i hi), hm.alone, fun i hi ↦ ⟨(hm.woken i hi).1, ?_⟩⟩
  exact (wakes_congr (fire_ct _ a) (sameTasks_fire _ a).fixed _).trans (hm.woken i hi).2

/-- Every step keeps the invariant, if it puts no caller to sleep that is not about to be woken. -/
theorem next [DecidableEq ι] (hm : Waking caller m) {label : Label ι} {later : Sleepers ι}
    (hwoken : Sleepers.WokenInTime caller m label)
    (hnext : m.next platform caller label = some later) :
    Waking caller later := by
  cases label with
  | thread i =>
    obtain ⟨-, hmap⟩ := Option.ite_none_left_eq_some.mp hnext
    obtain ⟨machine, hmachine, rfl⟩ := Option.map_eq_some_iff.mp hmap
    obtain ⟨⟨pc, s⟩, hstep, rfl⟩ := Option.map_eq_some_iff.mp hmachine
    exact hm.thread hstep hwoken
  | dispatcher =>
    obtain ⟨machine, hmachine, rfl⟩ := Option.map_eq_some_iff.mp hnext
    obtain ⟨⟨pc, s⟩, hstep, rfl⟩ := Option.map_eq_some_iff.mp hmachine
    exact hm.dispatcher hstep
  | fire a =>
    obtain ⟨machine, hmachine, rfl⟩ := Option.map_eq_some_iff.mp hnext
    cases next_spec hmachine
    exact hm.fire a _
  | callbackWake =>
    obtain ⟨machine, hmachine, rfl⟩ := Option.map_eq_some_iff.mp hnext
    cases next_spec hmachine
    refine ⟨hm.locked, hm.alone, fun i hi ↦ ⟨(hm.woken i hi).1, ?_⟩⟩
    exact (wakes_congr rfl (fun _ ↦ rfl) _).trans (hm.woken i hi).2
  | tick =>
    cases hnext
    exact ⟨hm.locked, hm.alone, hm.woken⟩

end Waking

/-! ### Runs -/

/-- In every run of any calls by any callers, in which callers go to sleep in their own yields only
when the next step of the dispatching thread wakes them, no sleeping caller holds `tl_lock` while
the dispatching thread waits for it. -/
theorem not_yieldDeadlock_of_reachable [DecidableEq ι] {platform : Platform}
    {caller : ι → LinuxTask} {s : Scheduler} {now : UInt64} {calls : ι → Call} {m : Sleepers ι}
    (hreach : ReachableUnder (Sleepers.next platform caller) (Sleepers.WokenInTime caller)
      (Sleepers.start s now calls) m) : ¬ m.YieldDeadlock := by
  have hm : Waking caller m := by
    refine hreach.invariant (Waking caller) ?_ fun _ _ _ hbefore hwoken hnext ↦
      hbefore.next hwoken hnext
    refine ⟨fun i hi ↦ ?_, fun i j hi _ ↦ ?_, fun i hi ↦ ?_⟩
    · cases hi
    · cases hi
    · cases hi
  exact hm.not_yieldDeadlock

/-- Pid 5 of process 7 is registered. A helper, process 8, makes its first yield; the timer fires
and the dispatching thread selects the task. Then process 7 makes its second yield and goes to
sleep, is woken, and its call ends. -/
theorem exists_yield_woken :
    let calls : Fin 3 → Call := fun i ↦ if i = 0 then .register ⟨5, 2, 1, some 7⟩ else .yeild 5
    ∃ m, Reachable (Sleepers.next platformHz1000 ![8, 8, 7])
        (Sleepers.start (mp2Init zeroSlab) 5 calls) m ∧
      m.machine.threads 2 = .yeildDone 0 ∧ ¬ m.YieldDeadlock := by
  intro calls
  obtain ⟨m, hreach, hdone⟩ : ∃ m, ReachableUnder (Sleepers.next platformHz1000 ![8, 8, 7])
      (Sleepers.WokenInTime ![8, 8, 7]) (Sleepers.start (mp2Init zeroSlab) 5 calls) m ∧
        m.machine.threads 2 = .yeildDone 0 :=
    exists_reachableUnder_of_run [.thread 0, .thread 0, .thread 0, .thread 0, .thread 0, .thread 1,
      .thread 1, .thread 1, .thread 1, .thread 1, .thread 1, .thread 1, .dispatcher, .dispatcher,
      .tick, .tick, .fire 0, .callbackWake, .dispatcher, .dispatcher, .thread 2, .thread 2,
      .thread 2, .thread 2, .thread 2, .dispatcher, .thread 2, .thread 2] (by decide +kernel)
      (by decide +kernel)
  exact ⟨m, hreach.mono fun _ _ _ ↦ trivial, hdone, not_yieldDeadlock_of_reachable hreach⟩

/-- Pid 5 of process 7 is registered, and the process makes its first yield itself. Its timer fires
while it sleeps, and the dispatching thread waits for the lock that it holds. -/
theorem exists_yieldDeadlock :
    let calls : Fin 2 → Call := fun i ↦ if i = 0 then .register ⟨5, 2, 1, some 7⟩ else .yeild 5
    ∃ m, Reachable (Sleepers.next platformHz1000 ![7, 7])
        (Sleepers.start (mp2Init zeroSlab) 5 calls) m ∧ m.YieldDeadlock := by
  intro calls
  exact exists_reachableUnder_of_run [.dispatcher, .dispatcher, .thread 0, .thread 0, .thread 0,
    .thread 0, .thread 0, .thread 1, .thread 1, .thread 1, .thread 1, .thread 1, .tick, .tick,
    .fire 0, .callbackWake, .dispatcher] (by decide +kernel) (by decide +kernel)

end KernelModules.RateMonotonic
