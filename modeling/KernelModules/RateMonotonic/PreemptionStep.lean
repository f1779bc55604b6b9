import KernelModules.RateMonotonic.RateMonotonicChoice

/-!
# One iteration of the dispatching thread as a preemption step

When `ct` is the only task that may be `RUNNING`, an iteration of `dispaching_thread_function` hands
the processor to the first registered `READY` task of the shortest period, unless the current task
has a period at most that short, and puts the displaced task back to `READY`; without a `READY` task
it demotes the current one. `PreemptsByPeriod` states all of this, with what does not change.

The section under `ct_lock` passes `linux_task` to `wake_up_process` and `sched_setscheduler`, and
`Task_register` stores what `find_task_by_pid` returns, NULL included. `preemptsByPeriod_iff` says
that an iteration is a preemption step exactly when the tasks it hands to the kernel have a process.
-/

set_option autoImplicit false
set_option relaxedAutoImplicit false

namespace KernelModules.RateMonotonic

open Scheduler

/-! ### The earliest shortest task -/

/-- The first minimum of a list splits it at a place before which everything is larger. -/
theorem split_of_argmin {α : Type*} {key : α → ℕ} {itrs : List α} {h : α}
    (hmin : List.argmin key itrs = some h) :
    ∃ before after, itrs = before ++ h :: after ∧ ∀ a ∈ before, key h < key a := by
  induction itrs using List.reverseRecOn with
  | nil => cases hmin
  | append_singleton itrs itr ih =>
    rw [List.argmin_concat] at hmin
    cases hrest : List.argmin key itrs with
    | none =>
      rw [List.argmin_eq_none.mp hrest] at hmin ⊢
      cases hmin
      exact ⟨[], [], rfl, fun a ha ↦ by cases ha⟩
    | some least =>
      simp only [hrest] at hmin
      split_ifs at hmin with hless
      · -- the last element is below the minimum of the ones before it
        cases hmin
        refine ⟨itrs, [], rfl, fun a ha ↦ lt_of_lt_of_le hless ?_⟩
        exact List.le_of_mem_argmin ha hrest
      · cases hmin
        obtain ⟨before, after, hsplit, hbefore⟩ := ih hrest
        exact ⟨before, after ++ [itr], by rw [hsplit]; simp, hbefore⟩

/-- The task is the earliest registered one among the `READY` tasks of the shortest period. -/
def EarliestShortest (s : Scheduler) (h : Addr) : Prop :=
  s.isReady h = true ∧ (∀ a ∈ s.tl, s.isReady a = true → (s.slab h).period ≤ (s.slab a).period) ∧
    ∃ before after, s.tl = before ++ h :: after ∧
      ∀ a ∈ before, s.isReady a = true → (s.slab h).period < (s.slab a).period

/-- `Task_get_highest` selects the earliest registered one. -/
theorem earliestShortest_of_highestReady {s : Scheduler} {h : Addr}
    (hselected : s.highestReady = some h) : EarliestShortest s h := by
  obtain ⟨-, hready, hshortest⟩ := highestReady_spec hselected
  refine ⟨hready, hshortest, ?_⟩
  rw [highestReady_eq_argmin] at hselected
  obtain ⟨readyBefore, readyAfter, hfilter, hlonger⟩ := split_of_argmin hselected
  obtain ⟨front, rest, htl, hfront, hrest⟩ := List.filter_eq_append_iff.mp hfilter
  obtain ⟨between, after, hsplit, hbetween, -, -⟩ := List.filter_eq_cons_iff.mp hrest
  refine ⟨front ++ between, after, by rw [htl, hsplit, List.append_assoc], fun a ha haReady ↦ ?_⟩
  rcases List.mem_append.mp ha with hmem | hmem
  · have hlisted : a ∈ readyBefore := hfront ▸ List.mem_filter.mpr ⟨hmem, haReady⟩
    exact UInt64.lt_iff_toNat_lt.mpr (hlonger a hlisted)
  · exact absurd haReady (hbetween a hmem)

/-- There is one such task. -/
theorem EarliestShortest.unique {s : Scheduler} {a b : Addr} (ha : EarliestShortest s a)
    (hb : EarliestShortest s b) : a = b := by
  obtain ⟨haReady, haMin, aBefore, aAfter, haSplit, haFirst⟩ := ha
  obtain ⟨hbReady, hbMin, bBefore, bAfter, hbSplit, hbFirst⟩ := hb
  have hmem : a ∈ s.tl ∧ b ∈ s.tl := by
    constructor
    · rw [haSplit]
      simp
    · rw [hbSplit]
      simp
  have hnotBefore : a ∉ bBefore ∧ b ∉ aBefore := by
    constructor
    · intro hbefore
      exact UInt64.not_lt.mpr (haMin b hmem.2 hbReady) (hbFirst a hbefore haReady)
    · intro hbefore
      exact UInt64.not_lt.mpr (hbMin a hmem.1 haReady) (haFirst b hbefore hbReady)
  rcases List.append_eq_append_iff.mp (haSplit.symm.trans hbSplit) with
    ⟨between, hbefore, hafter⟩ | ⟨between, hbefore, hafter⟩
  · cases between with
    | nil => exact (List.cons.inj hafter).1
    | cons first rest =>
      cases hafter
      exact absurd (by rw [hbefore]; simp) hnotBefore.1
  · cases between with
    | nil => exact (List.cons.inj hafter).1.symm
    | cons first rest =>
      cases hafter
      exact absurd (by rw [hbefore]; simp) hnotBefore.2

/-! ### The specification of an iteration -/

/-- `ct` is NULL or a listed `RUNNING` task, and no other listed task is `RUNNING`. -/
structure OnlyCtRuns (s : Scheduler) : Prop where
  running : ∀ old, s.ct = some old → old ∈ s.tl ∧ (s.slab old).state = .running
  only : ∀ a ∈ s.tl, (s.slab a).state = .running → s.ct = some a

/-- The iteration that ended with the result is a step of rate-monotonic preemption. -/
structure PreemptsByPeriod (s : Scheduler) (r : Result) : Prop where
  returned : r.outcome = .returned 0
  /-- With a `READY` task, `ct` ends at a listed task, which is the only `RUNNING` one. -/
  runs : SomeReady s → ∃ cur ∈ s.tl, r.state.ct = some cur ∧
    ∀ a ∈ s.tl, (r.state.slab a).state = .running ↔ a = cur
  /-- Its period is at most that of every task that was `READY`, and of the previous `ct`. -/
  shortest : SomeReady s → ∀ cur, r.state.ct = some cur →
    (∀ a ∈ s.tl, s.isReady a = true → (s.slab cur).period ≤ (s.slab a).period) ∧
      ∀ old, s.ct = some old → (s.slab cur).period ≤ (s.slab old).period
  /-- A previous `ct` with a period at most the shortest is kept. -/
  kept : SomeReady s → ∀ old, s.ct = some old →
    (∀ a ∈ s.tl, s.isReady a = true → (s.slab old).period ≤ (s.slab a).period) →
      r.state.ct = some old
  /-- A new `ct` is the earliest registered one of the shortest period. -/
  earliest : SomeReady s → ∀ cur, r.state.ct = some cur → s.ct ≠ some cur → EarliestShortest s cur
  /-- The previous `ct` is `READY` exactly when it was replaced. -/
  replaced : SomeReady s → ∀ old, s.ct = some old →
    ((r.state.slab old).state = .ready ↔ r.state.ct ≠ some old)
  /-- Without a `READY` task, the previous `ct` becomes `READY` and `ct` stays. -/
  demoted : ¬ SomeReady s → r.state.ct = s.ct ∧
    ∀ old, s.ct = some old → (r.state.slab old).state = .ready
  /-- No task but the previous and the new `ct` changes. -/
  frame : ∀ a, s.ct ≠ some a → r.state.ct ≠ some a → r.state.slab a = s.slab a
  /-- A record changes in its state only. -/
  fields : ∀ a, { r.state.slab a with state := (s.slab a).state } = s.slab a
  tl : r.state.tl = s.tl
  totalUtil : r.state.totalUtil = s.totalUtil

/-- The iteration hands the process of the task to the kernel: the task is the previous `ct` and
every selected task has a shorter period, or it is the selected task and `ct` is NULL or has a
longer period. -/
def HandsOver (s : Scheduler) (a : Addr) : Prop :=
  (s.ct = some a ∧ ∀ h, EarliestShortest s h → (s.slab h).period < (s.slab a).period) ∨
    (EarliestShortest s a ∧ ∀ old, s.ct = some old → (s.slab a).period < (s.slab old).period)

/-! ### The cases of the section -/

/-- Some task is selected exactly when some task is `READY`. -/
theorem someReady_iff {s : Scheduler} : SomeReady s ↔ ∃ h, s.highestReady = some h := by
  rw [← Option.ne_none_iff_exists', Ne, highestReady_eq_none_iff]
  simp [SomeReady]

/-- A change of state changes a record in its state only. -/
theorem fields_setState (s : Scheduler) (a : Addr) (state other : TaskState) (b : Addr) :
    { (s.setState a state).slab b with state := other } = { s.slab b with state := other } :=
  slab_setState_of_keep (fun task ↦ { task with state := other }) (fun _ _ ↦ rfl) s a state b

namespace PreemptsByPeriod

variable {s t : Scheduler} {h cur : Addr}

/-- Without a `READY` task, `ct` stays and its task has to be `READY`. -/
theorem of_not_ready (hready : ¬ SomeReady s) (hctAfter : t.ct = s.ct)
    (hdemoted : ∀ old, s.ct = some old → (t.slab old).state = .ready)
    (hframe : ∀ a, s.ct ≠ some a → t.slab a = s.slab a)
    (hfields : ∀ a, { t.slab a with state := (s.slab a).state } = s.slab a) (htl : t.tl = s.tl)
    (htotal : t.totalUtil = s.totalUtil) : PreemptsByPeriod s ⟨.returned 0, t⟩ where
  returned := rfl
  runs := fun hsome ↦ absurd hsome hready
  shortest := fun hsome ↦ absurd hsome hready
  kept := fun hsome ↦ absurd hsome hready
  earliest := fun hsome ↦ absurd hsome hready
  replaced := fun hsome ↦ absurd hsome hready
  demoted := fun _ ↦ ⟨hctAfter, hdemoted⟩
  frame := fun a ha _ ↦ hframe a ha
  fields := hfields
  tl := htl
  totalUtil := htotal

/-- Without a `READY` task and without a current task, nothing has to change. -/
theorem of_idle (hready : ¬ SomeReady s) (hct : s.ct = none) (hslab : t.slab = s.slab)
    (hctAfter : t.ct = s.ct) (htl : t.tl = s.tl) (htotal : t.totalUtil = s.totalUtil) :
    PreemptsByPeriod s ⟨.returned 0, t⟩ := by
  refine of_not_ready hready hctAfter (fun old hold ↦ ?_) (fun a _ ↦ ?_) (fun a ↦ ?_) htl htotal
  · cases hct.symm.trans hold
  · rw [hslab]
  · rw [hslab]

/-- Without a `READY` task, the current one has to be demoted. -/
theorem of_demote (hready : ¬ SomeReady s) (hct : s.ct = some cur)
    (hslab : t.slab = (s.setState cur .ready).slab) (hctAfter : t.ct = s.ct) (htl : t.tl = s.tl)
    (htotal : t.totalUtil = s.totalUtil) : PreemptsByPeriod s ⟨.returned 0, t⟩ := by
  refine of_not_ready hready hctAfter (fun old hold ↦ ?_) (fun a ha ↦ ?_) (fun a ↦ ?_) htl htotal
  · cases hct.symm.trans hold
    rw [hslab, state_setState, if_pos rfl]
  · have hne : a ≠ cur := by
      rintro rfl
      exact ha hct
    rw [hslab, setState, slab_modify_of_ne s hne]
  · rw [hslab, fields_setState]

/-- A current task that runs with a period at most the shortest is kept. -/
theorem of_keep (hs : OnlyCtRuns s) (hselected : s.highestReady = some h) (hct : s.ct = some cur)
    (hle : (s.slab cur).period ≤ (s.slab h).period) (hslab : t.slab = s.slab)
    (hctAfter : t.ct = s.ct) (htl : t.tl = s.tl) (htotal : t.totalUtil = s.totalUtil) :
    PreemptsByPeriod s ⟨.returned 0, t⟩ where
  returned := rfl
  runs := by
    obtain ⟨hmem, hrunning⟩ := hs.running cur hct
    refine fun _ ↦ ⟨cur, hmem, hctAfter.trans hct, fun a ha ↦ ?_⟩
    rw [hslab]
    constructor
    · intro haRunning
      exact Option.some.inj ((hs.only a ha haRunning).symm.trans hct)
    · rintro rfl
      exact hrunning
  shortest := by
    intro _ other hother
    cases (hctAfter.trans hct).symm.trans hother
    refine ⟨fun a ha haReady ↦ ?_, fun old hold ↦ ?_⟩
    · exact UInt64.le_trans hle ((highestReady_spec hselected).2.2 a ha haReady)
    · cases hct.symm.trans hold
      exact UInt64.le_refl _
  kept := fun _ old hold _ ↦ hctAfter.trans hold
  earliest := fun _ other hother hnew ↦ absurd (hctAfter.symm.trans hother) hnew
  replaced := by
    intro _ old hold
    rw [hslab, (hs.running old hold).2]
    refine iff_of_false (by simp) fun hne ↦ hne (hctAfter.trans hold)
  demoted := fun hnone ↦ absurd (someReady_iff.mpr ⟨h, hselected⟩) hnone
  frame := fun a _ _ ↦ by rw [hslab]
  fields := fun a ↦ by rw [hslab]
  tl := htl
  totalUtil := htotal

/-- A selected task of a period shorter than the current one's replaces it. Assumes: a state `u`
with the current task, if any, put back to `READY`, from which the selected one is set `RUNNING`. -/
theorem of_switch {u : Scheduler} (hs : OnlyCtRuns s) (hselected : s.highestReady = some h)
    (hlonger : ∀ old, s.ct = some old → (s.slab h).period < (s.slab old).period)
    (hdemoted : ∀ a, u.slab a =
      if s.ct = some a then { s.slab a with state := .ready } else s.slab a)
    (hslab : t.slab = (u.setState h .running).slab) (hctAfter : t.ct = some h) (htl : t.tl = s.tl)
    (htotal : t.totalUtil = s.totalUtil) : PreemptsByPeriod s ⟨.returned 0, t⟩ := by
  obtain ⟨hmem, -, hshortest⟩ := highestReady_spec hselected
  have hearliest := earliestShortest_of_highestReady hselected
  have hdisplaced : ∀ old, s.ct = some old → old ≠ h := by
    rintro old hold rfl
    exact UInt64.lt_irrefl _ (hlonger old hold)
  constructor
  case returned => rfl
  case runs =>
    refine fun _ ↦ ⟨h, hmem, hctAfter, fun a ha ↦ ?_⟩
    rw [hslab, state_setState]
    split_ifs with hah
    · exact iff_of_true rfl hah
    · refine iff_of_false (fun haRunning ↦ ?_) hah
      rw [hdemoted] at haRunning
      split_ifs at haRunning with hold
      exact hold (hs.only a ha haRunning)
  case shortest =>
    intro _ other hother
    cases hctAfter.symm.trans hother
    exact ⟨hshortest, fun old hold ↦ UInt64.le_of_lt (hlonger old hold)⟩
  case kept =>
    intro _ old hold hle
    exact absurd (hlonger old hold) (UInt64.not_lt.mpr (hle h hmem hearliest.1))
  case earliest =>
    intro _ other hother _
    cases hctAfter.symm.trans hother
    exact hearliest
  case replaced =>
    intro _ old hold
    have hne := hdisplaced old hold
    refine iff_of_true ?_ fun hkept ↦ ?_
    · rw [hslab, state_setState, if_neg hne, hdemoted, if_pos hold]
    · exact hne (Option.some.inj (hctAfter.symm.trans hkept)).symm
  case demoted => exact fun hnone ↦ absurd (someReady_iff.mpr ⟨h, hselected⟩) hnone
  case frame =>
    intro a hold hnew
    have hne : a ≠ h := by
      rintro rfl
      exact hnew hctAfter
    rw [hslab, setState, slab_modify_of_ne u hne, hdemoted, if_neg hold]
  case fields =>
    intro a
    rw [hslab, fields_setState, hdemoted]
    split_ifs <;> rfl
  case tl => exact htl
  case totalUtil => exact htotal

end PreemptsByPeriod

/-! ### When an iteration is a preemption step -/

/-- A faulted iteration is no preemption step. -/
theorem not_preemptsByPeriod_of_faulted (s t : Scheduler) (fault : Fault) :
    ¬ PreemptsByPeriod s ⟨.faulted fault, t⟩ := by
  intro hstep
  cases hstep.returned

/-- With the selected task known, the tasks handed to the kernel are the current task and the
selected one, if `ct` is NULL or has a longer period. -/
theorem handsOver_iff {s : Scheduler} {h : Addr} (hselected : s.highestReady = some h) (a : Addr) :
    HandsOver s a ↔ (s.ct = some a ∨ a = h) ∧
      ∀ old, s.ct = some old → (s.slab h).period < (s.slab old).period := by
  have hearliest := earliestShortest_of_highestReady hselected
  constructor
  · rintro (⟨hold, hshorter⟩ | ⟨ha, hlonger⟩)
    · refine ⟨.inl hold, fun old hother ↦ ?_⟩
      cases hold.symm.trans hother
      exact hshorter h hearliest
    · rw [ha.unique hearliest] at hlonger ⊢
      exact ⟨.inr rfl, hlonger⟩
  · rintro ⟨hold | rfl, hlonger⟩
    · refine .inl ⟨hold, fun other hother ↦ ?_⟩
      rw [hother.unique hearliest]
      exact hlonger a hold
    · exact .inr ⟨hearliest, hlonger⟩

/-- Without a `READY` task, the task handed to the kernel is the current one. -/
theorem handsOver_iff_of_none {s : Scheduler} (hready : ¬ SomeReady s) (a : Addr) :
    HandsOver s a ↔ s.ct = some a := by
  have hnone : ∀ b, ¬ EarliestShortest s b := by
    rintro b ⟨hbReady, -, before, after, hsplit, -⟩
    exact hready ⟨b, by rw [hsplit]; simp, hbReady⟩
  simp [HandsOver, hnone]

/-- An outranked current task is the only one that has to have the longer period. -/
theorem forall_lt_of_outranked {s : Scheduler} {cur highest : Addr} (hct : s.ct = some cur)
    (hrank : s.outranked cur highest = true) :
    ∀ old, s.ct = some old → (s.slab highest).period < (s.slab old).period := by
  intro old hold
  cases hct.symm.trans hold
  exact Scheduler.lt_of_outranked hrank

/-- When `ct` is the only task that may run, an iteration is a step of rate-monotonic preemption
exactly when the tasks it hands to the kernel have a process. -/
theorem preemptsByPeriod_iff {s : Scheduler} (hs : OnlyCtRuns s) :
    PreemptsByPeriod s (dispachingIteration s) ↔
      ∀ a, HandsOver s a → (s.slab a).linuxTask ≠ none := by
  have hstep := ctSection_step s.unlockTl s.highestReady
  rw [dispachingIteration_eq]
  cases hselected : s.highestReady with
  | none =>
    have hready : ¬ SomeReady s := by
      rw [someReady_iff, hselected]
      simp
    simp only [handsOver_iff_of_none hready]
    rw [hselected] at hstep
    generalize ctSection none s.unlockTl = result at hstep
    cases hstep with
    | idle hct =>
      refine iff_of_true (.of_idle hready hct rfl rfl rfl rfl) fun a ha ↦ ?_
      cases hct.symm.trans ha
    | @demoteFault cur hct hnull =>
      refine iff_of_false (not_preemptsByPeriod_of_faulted _ _ _) fun hall ↦ ?_
      exact hall cur hct hnull
    | demote hct hlinux =>
      refine iff_of_true (.of_demote hready hct rfl rfl rfl rfl) fun a ha ↦ ?_
      cases hct.symm.trans ha
      exact hlinux
  | some h =>
    simp only [handsOver_iff hselected]
    rw [hselected] at hstep
    generalize ctSection (some h) s.unlockTl = result at hstep
    cases hstep with
    | @keep _ cur hct hrank =>
      have hle : (s.slab cur).period ≤ (s.slab h).period :=
        Scheduler.le_of_not_outranked hrank
      refine iff_of_true (.of_keep hs hselected hct hle rfl rfl rfl rfl) ?_
      rintro a ⟨-, hlonger⟩
      exact absurd (hlonger cur hct) (UInt64.not_lt.mpr hle)
    | startFault hct hnull =>
      refine iff_of_false (not_preemptsByPeriod_of_faulted _ _ _) fun hall ↦ ?_
      refine hall h ⟨.inr rfl, fun old hold ↦ ?_⟩ hnull
      cases hct.symm.trans hold
    | @preemptFault _ cur hct hrank hnull =>
      have hlonger := forall_lt_of_outranked hct hrank
      refine iff_of_false (not_preemptsByPeriod_of_faulted _ _ _) fun hall ↦ ?_
      rcases hnull with hnull | hnull
      · exact hall cur ⟨.inl hct, hlonger⟩ hnull
      · exact hall h ⟨.inr rfl, hlonger⟩ hnull
    | start hct hlinux =>
      have hnone : ∀ a, s.ct ≠ some a := by
        intro a ha
        cases hct.symm.trans ha
      refine iff_of_true (.of_switch (u := s) hs hselected (fun old hold ↦ absurd hold (hnone old))
        (fun a ↦ by rw [if_neg (hnone a)]) rfl rfl rfl rfl) ?_
      rintro a ⟨ha | rfl, -⟩
      · exact absurd ha (hnone a)
      · exact hlinux
    | @preempt _ cur hct hrank hcur hlinux =>
      have hlonger := forall_lt_of_outranked hct hrank
      have hdemoted : ∀ a, (s.setState cur .ready).slab a =
          if s.ct = some a then { s.slab a with state := .ready } else s.slab a := by
        intro a
        rw [show s.ct = some cur from hct, setState]
        by_cases ha : a = cur
        · rw [ha, slab_modify_self, if_pos rfl]
        · rw [slab_modify_of_ne s ha, if_neg fun heq ↦ ha (Option.some.inj heq).symm]
      refine iff_of_true (.of_switch hs hselected hlonger hdemoted rfl rfl rfl rfl) ?_
      rintro a ⟨ha | rfl, -⟩
      · cases hct.symm.trans ha
        exact hcur
      · exact hlinux

/-- Task 1 runs with period 200 and task 2 is released with period 100: both have a process, and the
iteration is a preemption step. -/
theorem preemptsByPeriod_iff_release :
    let s := (execAll platformHz1000 (startOp zeroSlab) [.register 1 200 10 (some 1),
      .register 2 100 10 (some 2), .yeild 1 5, .yeild 2 6, .timer 1, .dispatch, .timer 2]).state
    PreemptsByPeriod s (dispachingIteration s) ↔
      ∀ a, HandsOver s a → (s.slab a).linuxTask ≠ none :=
  preemptsByPeriod_iff ⟨by decide, by decide⟩

/-- The only task is `READY` and was registered for a pid without a process. The iteration selects
it and faults in `wake_up_process`. -/
theorem preemptsByPeriod_nullTask :
    ¬ ∀ s, OnlyCtRuns s → PreemptsByPeriod s (dispachingIteration s) := by
  intro hall
  have hstep := hall (execAll platformHz1000 (startOp zeroSlab)
    [.register 1 200 10 none, .timer 1]).state ⟨by decide, by decide⟩
  exact absurd hstep.returned (by decide)

end KernelModules.RateMonotonic
