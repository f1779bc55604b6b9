import KernelModules.RateMonotonic.LinkedRecords

/-!
# Wake-ups of the dispatching thread

While the dispatching thread sleeps and nobody is about to wake it, no `READY` task should wait for
a `ct` that is NULL or has a longer period (`NoLostWakeup`). Every step that makes work (the marking
of the timer callback, and each `ct = NULL`) is followed by a `wake_up_process`. A wake-up does
nothing to a thread that is running, and the loop sets its state to `TASK_INTERRUPTIBLE` without
looking for work again. A wake-up that arrives after the selection and before that assignment is
therefore lost, unless the work it announces has been seen to.

`noLostWakeup_of_reachable` says that nothing else loses a wake-up: the property holds in every
state of a run in which each wake-up that arrives in this window is followed by another one, or
finds every `READY` task attended to by the picked task or by `ct`. The invariant (`Attended`) says
what each position of the loop owes: nothing between a return of `schedule` and the selection, and
an answer for every `READY` task elsewhere.
-/

set_option autoImplicit false
set_option relaxedAutoImplicit false

namespace KernelModules.RateMonotonic

open Foundation Scheduler

/-! ### Work for the dispatching thread -/

namespace Scheduler

/-- The task is not NULL and has a period at most that of the task at an address. -/
def Covers (s : Scheduler) (task : Option Addr) (a : Addr) : Prop :=
  ∃ cur, task = some cur ∧ (s.slab cur).period ≤ (s.slab a).period

instance (s : Scheduler) (task : Option Addr) (a : Addr) : Decidable (s.Covers task a) :=
  match task with
  | none => isFalse fun ⟨_, heq, _⟩ ↦ by cases heq
  | some cur =>
    decidable_of_iff ((s.slab cur).period ≤ (s.slab a).period)
      ⟨fun hle ↦ ⟨cur, rfl, hle⟩, fun ⟨_, heq, hle⟩ ↦ Option.some.inj heq ▸ hle⟩

/-- No `READY` task waits while `ct` is NULL or has a longer period. -/
def Covered (s : Scheduler) : Prop :=
  ∀ a ∈ s.tl, (s.slab a).state = .ready → s.Covers s.ct a

/-- No `READY` task waits while both the picked task and `ct` are NULL or have longer periods. -/
def PickCovers (s : Scheduler) (highest : Option Addr) : Prop :=
  ∀ a ∈ s.tl, (s.slab a).state = .ready → s.Covers highest a ∨ s.Covers s.ct a

instance (s : Scheduler) : Decidable s.Covered :=
  inferInstanceAs (Decidable (∀ a ∈ s.tl, (s.slab a).state = .ready → s.Covers s.ct a))

instance (s : Scheduler) (highest : Option Addr) : Decidable (s.PickCovers highest) :=
  inferInstanceAs (Decidable
    (∀ a ∈ s.tl, (s.slab a).state = .ready → s.Covers highest a ∨ s.Covers s.ct a))

/-- What the position of the dispatching thread owes the `READY` tasks: nothing when it is going to
select, or will not sleep. -/
def Attended (s : Scheduler) : DispatcherPc → Prop
  | .top => s.Covered
  | .beforeSchedule => s.Covered ∨ s.dispaching = .running
  | .asleep => s.Covered ∨ s.dispaching = .running
  | .awake => True
  | .picked highest => s.PickCovers highest
  | .dead => True

/-- What a wake-up finds: at the top of the loop, or after the selection, it changes nothing. -/
def Heeds (s : Scheduler) : DispatcherPc → Prop
  | .top => s.Covered
  | .picked highest => s.PickCovers highest
  | _ => True

instance (s : Scheduler) : ∀ pc, Decidable (s.Heeds pc)
  | .top => inferInstanceAs (Decidable s.Covered)
  | .beforeSchedule => isTrue trivial
  | .asleep => isTrue trivial
  | .awake => isTrue trivial
  | .picked highest => inferInstanceAs (Decidable (s.PickCovers highest))
  | .dead => isTrue trivial

end Scheduler

/-- The next statement of the thread wakes the dispatching thread. -/
def Pc.waking : Pc → Bool
  | .yeildWake _ => true
  | .deregWake _ => true
  | _ => false

/-- A thread at the end of its call wakes nobody. -/
theorem Pc.waking_of_outcome {pc : Pc} {outcome : Outcome} (houtcome : pc.outcome = some outcome) :
    pc.waking = false := by
  cases pc with
  | yeildWake => cases houtcome
  | deregWake => cases houtcome
  | _ => rfl

variable {ι : Type*}

/-- Some thread or timer callback is about to wake the dispatching thread. -/
def AboutToWake (m : Machine ι) : Prop :=
  (∃ i, (m.threads i).waking = true) ∨ m.callbacks ≠ 0

/-- While the dispatching thread is asleep and nobody is about to wake it, no `READY` task waits
while `ct` is NULL or has a longer period. -/
def NoLostWakeup (m : Machine ι) : Prop :=
  m.dispatcher = .asleep → m.sched.dispaching = .interruptible → ¬ AboutToWake m → m.sched.Covered

/-- A wake-up is not the last one on its way, or the dispatching thread is where a wake-up counts,
or every `READY` task is covered by the picked task or by `ct`. -/
def WakeFits (m : Machine ι) : Label ι → Prop
  | .thread i => (m.threads i).waking = true →
      (∃ j, j ≠ i ∧ (m.threads j).waking = true) ∨ m.callbacks ≠ 0 ∨ m.sched.Heeds m.dispatcher
  | .callbackWake =>
      (∃ i, (m.threads i).waking = true) ∨ 1 < m.callbacks ∨ m.sched.Heeds m.dispatcher
  | _ => True

instance {n : ℕ} (m : Machine (Fin n)) : ∀ label, Decidable (WakeFits m label)
  | .thread i => inferInstanceAs (Decidable ((m.threads i).waking = true →
      (∃ j, j ≠ i ∧ (m.threads j).waking = true) ∨ m.callbacks ≠ 0 ∨ m.sched.Heeds m.dispatcher))
  | .dispatcher => isTrue trivial
  | .fire _ => isTrue trivial
  | .callbackWake => inferInstanceAs (Decidable
      ((∃ i, (m.threads i).waking = true) ∨ 1 < m.callbacks ∨ m.sched.Heeds m.dispatcher))
  | .tick => isTrue trivial

/-! ### Steps that make no work -/

/-- Work that was attended to stays so when no task becomes `READY`, and `ct` and the periods in use
stay. -/
theorem Scheduler.Attended.of_ready {s t : Scheduler} {pc : DispatcherPc}
    (hs : s.Attended pc)
    (hready : ∀ a ∈ t.tl, (t.slab a).state = .ready → a ∈ s.tl ∧ (s.slab a).state = .ready)
    (hct : t.ct = s.ct) (hdispaching : t.dispaching = s.dispaching)
    (hlisted : ∀ a ∈ s.tl, (t.slab a).period = (s.slab a).period)
    (hcur : ∀ cur, s.ct = some cur → (t.slab cur).period = (s.slab cur).period)
    (hpicked : ∀ h, pc = .picked (some h) → (t.slab h).period = (s.slab h).period) :
    t.Attended pc := by
  have hcovers : ∀ (task : Option Addr) (a : Addr), a ∈ s.tl →
      (∀ cur, task = some cur → (t.slab cur).period = (s.slab cur).period) →
        s.Covers task a → t.Covers task a := by
    rintro task a ha hperiod ⟨cur, hsome, hle⟩
    refine ⟨cur, hsome, ?_⟩
    rw [hperiod cur hsome, hlisted a ha]
    exact hle
  have hcovered : s.Covered → t.Covered := by
    intro hs a ha haReady
    obtain ⟨hmem, hbefore⟩ := hready a ha haReady
    rw [hct]
    exact hcovers s.ct a hmem hcur (hs a hmem hbefore)
  cases pc with
  | top => exact hcovered hs
  | beforeSchedule => exact hs.imp hcovered fun hrunning ↦ hdispaching.trans hrunning
  | asleep => exact hs.imp hcovered fun hrunning ↦ hdispaching.trans hrunning
  | awake => trivial
  | picked highest =>
    intro a ha haReady
    obtain ⟨hmem, hbefore⟩ := hready a ha haReady
    rw [hct]
    refine (hs a hmem hbefore).imp (hcovers highest a hmem ?_) (hcovers s.ct a hmem hcur)
    rintro h rfl
    exact hpicked h rfl
  | dead => trivial

section Thread

variable {platform : Platform} {locks : Locks} {now : UInt64} {pc later : Pc} {s t : Scheduler}
  {a : Addr}

/-- A step of a thread makes no task `READY`. Assumes: listed records that are allocated. -/
theorem ThreadStep.ready (hstep : ThreadStep platform locks now s pc later t)
    (hfresh : ∀ a ∈ s.tl, a < s.fresh) (ha : a ∈ t.tl) (hready : (t.slab a).state = .ready) :
    a ∈ s.tl ∧ (s.slab a).state = .ready := by
  cases hstep with
  | @insert q =>
    rw [insert_slab] at hready
    rcases List.mem_append.mp ha with ha | ha
    · rw [Function.update_of_ne (hfresh a ha).ne] at hready
      exact ⟨ha, hready⟩
    · rw [List.mem_singleton.mp ha, Function.update_self] at hready
      cases hready
  | @miss task =>
    rw [Locks.leave_slab, (advanceDdl_keeps s platform now task a).2] at hready
    exact ⟨ha, hready⟩
  | @deadline task =>
    rw [lockTl_slab, (advanceDdl_keeps s platform now task a).2] at hready
    exact ⟨ha, hready⟩
  | arm =>
    rw [state_modTimer] at hready
    exact ⟨ha, hready⟩
  | sleep => exact ⟨ha, (state_of_setState hready (by decide)).2⟩
  | @unlink task =>
    have hstate := slab_removeTask_of_keep (fun record ↦ record.state) (fun _ _ ↦ rfl) s task a
    exact ⟨List.mem_of_mem_erase ha, hstate ▸ hready⟩
  | _ => exact ⟨ha, hready⟩

/-- A step of a thread keeps the periods of the allocated records. -/
theorem ThreadStep.period (hstep : ThreadStep platform locks now s pc later t) (ha : a < s.fresh) :
    (t.slab a).period = (s.slab a).period := by
  cases hstep.effect with
  | keep hsame => exact hsame.period a
  | insert => rw [insert_slab, Function.update_of_ne ha.ne]
  | unlink => exact slab_removeTask_of_keep (fun record ↦ record.period) (fun _ _ ↦ rfl) s _ a

/-- A step of a thread keeps `ct`, or the next one wakes the dispatching thread. -/
theorem ThreadStep.ct_or_waking (hstep : ThreadStep platform locks now s pc later t) :
    t.ct = s.ct ∨ later.waking = true := by
  cases hstep with
  | clear => exact .inr rfl
  | deregClear => exact .inr rfl
  | _ => exact .inl rfl

/-- A step of a thread that does not wake the dispatching thread keeps its state. -/
theorem ThreadStep.dispaching (hstep : ThreadStep platform locks now s pc later t)
    (hwaking : pc.waking = false) : t.dispaching = s.dispaching := by
  cases hstep with
  | wake => cases hwaking
  | deregWake => cases hwaking
  | _ => rfl

/-- A step that wakes the dispatching thread does nothing else. -/
theorem ThreadStep.wakes (hstep : ThreadStep platform locks now s pc later t)
    (hwaking : pc.waking = true) : t = s.wakeDispaching := by
  cases hstep with
  | wake => rfl
  | deregWake => rfl
  | _ => cases hwaking

end Thread

/-! ### The dispatching thread -/

/-- A wake-up attends to the `READY` tasks where it counts. -/
theorem Scheduler.Heeds.wakeDispaching {s : Scheduler} {pc : DispatcherPc} (hs : s.Heeds pc) :
    s.wakeDispaching.Attended pc := by
  cases pc with
  | top => exact hs
  | beforeSchedule => exact .inr rfl
  | asleep => exact .inr rfl
  | awake => trivial
  | picked highest => exact hs
  | dead => trivial

/-- The selection covers every `READY` task. -/
theorem pickCovers_highestReady (s : Scheduler) : s.PickCovers s.highestReady := by
  intro a ha haReady
  cases hselected : s.highestReady with
  | none =>
    have hnot := highestReady_eq_none_iff.mp hselected a ha
    exact absurd haReady (of_decide_eq_false hnot)
  | some h =>
    exact .inl ⟨h, rfl, (highestReady_spec hselected).2.2 a ha (decide_eq_true haReady)⟩

/-- A section that returns covers every `READY` task. Assumes: tasks that the selected task or `ct`
covers. -/
theorem covered_ctSection {s : Scheduler} {highest : Option Addr} (hs : s.PickCovers highest)
    {code : Int} (hreturned : (ctSection highest s).outcome = .returned code) :
    (ctSection highest s).state.Covered := by
  have hsame := sameTasks_ctSection highest s
  have hstep := ctSection_step s highest
  generalize ctSection highest s = result at hreturned hsame hstep
  -- a task that is covered by a task of the old state is covered by it in the new one
  have hkept : ∀ {a cur : Addr}, (s.slab cur).period ≤ (s.slab a).period →
      result.state.ct = some cur → result.state.Covers result.state.ct a := by
    intro a cur hle hct
    refine ⟨cur, hct, ?_⟩
    rw [hsame.period, hsame.period]
    exact hle
  have hready : ∀ {u : Scheduler} {b a : Addr},
      ((u.setState b .ready).slab a).state = .ready → a = b ∨ (u.slab a).state = .ready := by
    intro u b a ha
    rw [state_setState] at ha
    split_ifs at ha with hab
    · exact .inl hab
    · exact .inr ha
  have hrunning : ∀ {u : Scheduler} {b a : Addr},
      ((u.setState b .running).slab a).state = .ready → (u.slab a).state = .ready := fun ha ↦
    (state_of_setState ha (by decide)).2
  cases hstep with
  | idle hct =>
    intro a ha haReady
    rcases hs a ha haReady with ⟨_, hnone, -⟩ | hcovers
    · cases hnone
    · exact hcovers
  | demoteFault => cases hreturned
  | @demote cur hct =>
    intro a ha haReady
    rcases hready haReady with rfl | hbefore
    · exact hkept (UInt64.le_refl _) hct
    · rcases hs a ha hbefore with ⟨_, hnone, -⟩ | ⟨other, hother, hle⟩
      · cases hnone
      · exact hkept hle hother
  | @keep h cur hct hrank =>
    intro a ha haReady
    rcases hs a ha haReady with ⟨_, heq, hle⟩ | hcovers
    · have hcur : (s.slab cur).period ≤ (s.slab h).period :=
        Scheduler.le_of_not_outranked hrank
      rw [← Option.some.inj heq] at hle
      exact hkept (UInt64.le_trans hcur hle) hct
    · exact hcovers
  | startFault => cases hreturned
  | preemptFault => cases hreturned
  | @start h hct =>
    intro a ha haReady
    rcases hs a ha (hrunning haReady) with ⟨_, heq, hle⟩ | ⟨other, hother, -⟩
    · rw [← Option.some.inj heq] at hle
      exact hkept hle rfl
    · cases hct.symm.trans hother
  | @preempt h cur hct hrank =>
    have hlt : (s.slab h).period ≤ (s.slab cur).period :=
      UInt64.le_of_lt (Scheduler.lt_of_outranked hrank)
    intro a ha haReady
    rcases hready (hrunning haReady) with rfl | hbefore
    · exact hkept hlt rfl
    · rcases hs a ha hbefore with ⟨_, heq, hle⟩ | ⟨other, hother, hle⟩
      · rw [← Option.some.inj heq] at hle
        exact hkept hle rfl
      · rw [← Option.some.inj (hct.symm.trans hother)] at hle
        exact hkept (UInt64.le_trans hlt hle) rfl

/-- A step of the dispatching thread keeps the tasks attended to. -/
theorem DispatcherStep.attended {s t : Scheduler} {pc later : DispatcherPc}
    (hstep : DispatcherStep s pc later t) (hs : s.Attended pc) : t.Attended later := by
  cases hstep with
  | setState => exact .inl hs
  | sleep => exact hs
  | cancelled => trivial
  | woken => trivial
  | pick => exact pickCovers_highestReady s
  | section_ hreturned => exact covered_ctSection hs hreturned
  | fault => trivial

/-! ### Runs -/

section Runs

variable [DecidableEq ι] {platform : Platform} {locks : Locks} {m later : Machine ι}

/-- A step whose wake-up fits keeps the invariant: someone is about to wake the dispatching thread,
or the `READY` tasks are attended to. Assumes: records in use that are allocated. -/
theorem aboutToWake_or_attended_next (halloc : Allocated m)
    (hm : AboutToWake m ∨ m.sched.Attended m.dispatcher) {label : Label ι}
    (hnext : next platform locks m label = some later) (hfits : WakeFits m label) :
    AboutToWake later ∨ later.sched.Attended later.dispatcher := by
  cases next_spec hnext with
  | @thread i pc s hthread =>
    have hother : ∀ j, j ≠ i → (m.threads j).waking = true →
        AboutToWake { m with sched := s, threads := Function.update m.threads i pc } := by
      intro j hj hwaking
      refine .inl ⟨j, ?_⟩
      simp only [Function.update_of_ne hj]
      exact hwaking
    cases hwaking : (m.threads i).waking with
    | true =>
      obtain rfl := hthread.wakes hwaking
      rcases hfits hwaking with ⟨j, hj, hwakes⟩ | hcallbacks | hheeds
      · exact .inl (hother j hj hwakes)
      · exact .inl (.inr hcallbacks)
      · exact .inr hheeds.wakeDispaching
    | false =>
      rcases hm with (⟨j, hj⟩ | hcallbacks) | hattended
      · refine .inl (hother j ?_ hj)
        rintro rfl
        rw [hwaking] at hj
        cases hj
      · exact .inl (.inr hcallbacks)
      · rcases hthread.ct_or_waking with hct | hwakes
        · refine .inr (hattended.of_ready (fun a ha ↦ hthread.ready halloc.tl_fresh ha) hct
            (hthread.dispaching hwaking) (fun a ha ↦ ?_) (fun cur hcur ↦ ?_) fun h hh ↦ ?_)
          · exact hthread.period (halloc.tl_fresh a ha)
          · exact hthread.period (halloc.ct_fresh cur hcur)
          · exact hthread.period (halloc.picked_fresh h hh)
        · refine .inl (.inl ⟨i, ?_⟩)
          simp only [Function.update_self]
          exact hwakes
  | dispatcher hdispatcher => exact hm.imp id hdispatcher.attended
  | fire => exact .inl (.inr (Nat.succ_ne_zero _))
  | callbackWake =>
    rcases hfits with hthread | hmore | hheeds
    · exact .inl (.inl hthread)
    · exact .inl (.inr (Nat.sub_ne_zero_of_lt hmore))
    · exact .inr hheeds.wakeDispaching
  | tick => exact hm

end Runs

end KernelModules.RateMonotonic
