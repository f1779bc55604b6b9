import KernelModules.RateMonotonic.UtilisationAccounting

/-!
# The rate-monotonic choice of the dispatching thread

An iteration of `dispaching_thread_function` that starts with a `READY` task should end with `ct` at
a `RUNNING` task of minimal period (`ChoosesShortest`). The section under `ct_lock` decides on `ct`
and its period alone, and not on the state of the task `ct` points to. An iteration that finds
nothing `READY` demotes the current task and leaves `ct` at it, so that a later iteration finds a
`READY` task there and, when no shorter period is `READY`, leaves it as it is.

Over whole runs `ct` is NULL or points to a listed task with a process (`CtListed`).
`choosesShortest_iff` says, for every state a run reaches, which iterations end well: those that
find the current task still `RUNNING` with a period at most the shortest one, and those that replace
it by a task with a process.
-/

set_option autoImplicit false
set_option relaxedAutoImplicit false

namespace KernelModules.RateMonotonic

open Foundation Scheduler

/-! ### The current task -/

/-- `ct` is NULL or points to a listed task with a process. -/
def CtListed (s : Scheduler) : Prop :=
  ∀ cur, s.ct = some cur → cur ∈ s.tl ∧ (s.slab cur).linuxTask ≠ none

namespace CtListed

variable {s t : Scheduler}

/-- An operation that keeps the tasks, and keeps or clears `ct`, keeps the invariant. -/
theorem of_sameTasks (hs : CtListed s) (hsame : SameTasks s t) (hct : t.ct = s.ct ∨ t.ct = none) :
    CtListed t := by
  intro cur hcur
  rcases hct with hct | hct
  · rw [hsame.tl, hsame.linuxTask]
    exact hs cur (hct ▸ hcur)
  · rw [hct] at hcur
    cases hcur

/-- A registration keeps the invariant. Assumes: listed records that are allocated. -/
theorem registered (hs : CtListed s) (hfresh : ∀ a ∈ s.tl, a < s.fresh) (pid : UInt32)
    (period procTime : UInt64) (found : Option LinuxTask) :
    CtListed (s.registered pid period procTime found) := by
  intro cur hcur
  obtain ⟨hmem, hlinux⟩ := hs cur hcur
  refine ⟨List.mem_append_left _ hmem, ?_⟩
  rw [registered_slab, Function.update_of_ne (hfresh cur hmem).ne]
  exact hlinux

/-- A removal keeps the invariant, with `ct` cleared when it points to the task. Assumes: a list
without repetition. -/
theorem removed (hs : CtListed s) (t : Addr) : CtListed ((s.releaseCt t).removeTask t) := by
  intro cur hcur
  rw [removeTask_ct, releaseCt_ct] at hcur
  split_ifs at hcur with heq
  obtain ⟨hmem, hlinux⟩ := hs cur hcur
  have hne : cur ≠ t := by
    rintro rfl
    exact heq hcur
  constructor
  · rw [removeTask_tl, releaseCt_tl]
    exact (List.mem_erase_of_ne hne).mpr hmem
  · rw [slab_removeTask_of_ne _ hne, releaseCt_slab]
    exact hlinux

/-- The section under `ct_lock` keeps the invariant. Assumes: a selected task that is listed. -/
theorem ctSection (hs : CtListed s) (highest : Option Addr) (hhighest : ∀ h ∈ highest, h ∈ s.tl) :
    CtListed (ctSection highest s).state := by
  have hsame := sameTasks_ctSection highest s
  have hstep := ctSection_step s highest
  generalize RateMonotonic.ctSection highest s = result at hsame hstep
  cases hstep with
  | idle => exact hs.of_sameTasks hsame (.inl rfl)
  | demoteFault => exact hs.of_sameTasks hsame (.inl rfl)
  | demote => exact hs.of_sameTasks hsame (.inl rfl)
  | keep => exact hs.of_sameTasks hsame (.inl rfl)
  | startFault => exact hs.of_sameTasks hsame (.inl rfl)
  | preemptFault => exact hs.of_sameTasks hsame (.inl rfl)
  | @start h _ hlinux =>
    rintro cur ⟨⟩
    rw [hsame.linuxTask]
    exact ⟨hhighest h rfl, hlinux⟩
  | @preempt h _ _ _ _ hlinux =>
    rintro cur ⟨⟩
    rw [hsame.linuxTask]
    exact ⟨hhighest h rfl, hlinux⟩

end CtListed

/-- The selected task is listed. -/
theorem mem_of_mem_highestReady {s : Scheduler} {h : Addr} (hselected : h ∈ s.highestReady) :
    h ∈ s.tl :=
  (highestReady_spec hselected).1

/-- Every operation keeps the invariant. Assumes: a scheduler backed by a ledger. -/
theorem ctListed_exec {s : Scheduler} {ledger : Ledger UInt32 726663} (hledger : Refines s ledger)
    (hs : CtListed s) (platform : Platform) (op : Op) : CtListed (exec platform op s).state := by
  cases op with
  | register pid period procTime found =>
    simp only [exec]
    rcases taskRegister_fails_or_registers pid period procTime found s with
      ⟨-, lock, hstate⟩ | hresult
    · rw [hstate]
      exact hs
    · rw [hresult]
      exact hs.registered hledger.tl_fresh pid period procTime found
  | yeild pid now =>
    refine hs.of_sameTasks (sameTasks_taskYeild platform pid now s) ?_
    simp only [exec]
    rcases taskYeild_cases platform pid now s with
      ⟨-, hresult⟩ | ⟨t, -, ⟨-, hresult⟩ | ⟨-, -, hresult⟩ | ⟨-, -, hresult⟩⟩
    · exact .inl (by rw [hresult]; rfl)
    · exact .inl (by rw [hresult]; rfl)
    · exact .inl (by rw [hresult]; rfl)
    · exact .inr (by rw [hresult]; rfl)
  | deregister pid =>
    simp only [exec]
    rcases taskDeregister_cases pid s with ⟨-, hresult⟩ | ⟨t, hfound, ⟨hperiod, -⟩ | ⟨-, hresult⟩⟩
    · rw [hresult]
      exact hs
    · exact absurd hperiod (hledger.period_ne_zero t (mem_of_deregLookup hfound).1)
    · rw [hresult]
      exact CtListed.removed (s := s.lockTl) hs t
  | timer data =>
    exact hs.of_sameTasks (sameTasks_mp2TimerCallback data s) (.inl (markReady_ct s data))
  | dispatch =>
    have hsection := CtListed.ctSection (s := s.unlockTl) hs s.highestReady
      fun h hselected ↦ mem_of_mem_highestReady hselected
    simp only [exec]
    rw [dispachingIteration_eq]
    unfold Result.andThen
    split
    · exact hsection
    · exact hsection

/-- In every state a run reaches, `ct` is NULL or points to a listed task with a process. -/
theorem ctListed_of_reachable {platform : Platform} {condition : Result → Op → Prop}
    {slab : Addr → Mp2TaskStruct} {r : Result}
    (hreach : ReachableUnder (nextOp platform) condition (startOp slab) r) : CtListed r.state := by
  refine (hreach.invariant (fun r ↦ (∃ ledger, Refines r.state ledger) ∧ CtListed r.state)
    ⟨⟨_, refines_mp2Init slab⟩, ?_⟩ ?_).2
  · rintro cur ⟨⟩
  · rintro before op later ⟨⟨ledger, hledger⟩, hs⟩ - hnext
    cases hnext
    exact ⟨⟨_, refines_exec hledger platform op⟩, ctListed_exec hledger hs platform op⟩

/-! ### One iteration -/

/-- Some listed task is `READY`. -/
def SomeReady (s : Scheduler) : Prop := ∃ a ∈ s.tl, s.isReady a = true

/-- An iteration from the state ends, with `ct` at a listed `RUNNING` task whose period is at most
the period of every listed task that is then `READY`. -/
def ChoosesShortest (s : Scheduler) : Prop :=
  let r := dispachingIteration s
  r.outcome = .returned 0 ∧ ∃ cur ∈ r.state.tl, r.state.ct = some cur ∧
    (r.state.slab cur).state = .running ∧
      ∀ a ∈ r.state.tl, r.state.isReady a = true →
        (r.state.slab cur).period ≤ (r.state.slab a).period

/-- The current task is `RUNNING` with a period at most that of every `READY` task; or the first
`READY` task of the shortest period has a process, and `ct` is NULL or has a longer period. -/
def ChoiceFits (s : Scheduler) : Prop :=
  (∃ cur, s.ct = some cur ∧ (s.slab cur).state = .running ∧
    ∀ a ∈ s.tl, s.isReady a = true → (s.slab cur).period ≤ (s.slab a).period) ∨
  ∃ h ∈ List.argmin (fun a ↦ (s.slab a).period.toNat) (s.tl.filter s.isReady),
    (s.slab h).linuxTask ≠ none ∧ ∀ cur, s.ct = some cur → (s.slab h).period < (s.slab cur).period

/-- A task that is `READY` after others were set to `READY` and the selected one to `RUNNING` has
at least the period of the selected one. Assumes: a selection of minimal period, and a demoted task
of no shorter period. -/
theorem period_le_of_isReady {s t : Scheduler} {h : Addr} (hselected : s.highestReady = some h)
    (hsame : SameTasks s t)
    (hstate : ∀ a ∈ s.tl, (t.slab a).state = .ready →
      (s.slab a).state = .ready ∨ (s.slab h).period ≤ (s.slab a).period) :
    ∀ a ∈ t.tl, t.isReady a = true → (t.slab h).period ≤ (t.slab a).period := by
  intro a ha hready
  rw [hsame.tl] at ha
  rw [hsame.period, hsame.period]
  rcases hstate a ha (of_decide_eq_true hready) with hbefore | hle
  · exact (highestReady_spec hselected).2.2 a ha (decide_eq_true hbefore)
  · exact hle

/-- An iteration with a `READY` task ends well exactly when the choice fits. Assumes: `ct` NULL or
at a listed task with a process. -/
theorem choosesShortest_iff_of_ctListed {s : Scheduler} (hs : CtListed s) (hready : SomeReady s) :
    ChoosesShortest s ↔ ChoiceFits s := by
  obtain ⟨h, hselected⟩ : ∃ h, s.highestReady = some h := by
    refine Option.ne_none_iff_exists'.mp fun hnone ↦ ?_
    obtain ⟨a, ha, haReady⟩ := hready
    rw [highestReady_eq_none_iff.mp hnone a ha] at haReady
    cases haReady
  obtain ⟨hmem, hisReady, hshortest⟩ := highestReady_spec hselected
  have hchoice : ChoiceFits s ↔
      (∃ cur, s.ct = some cur ∧ (s.slab cur).state = .running ∧
        (s.slab cur).period ≤ (s.slab h).period) ∨
      ((s.slab h).linuxTask ≠ none ∧
        ∀ cur, s.ct = some cur → (s.slab h).period < (s.slab cur).period) := by
    unfold ChoiceFits
    rw [← highestReady_eq_argmin, hselected]
    refine or_congr ?_ (by simp)
    refine exists_congr fun cur ↦ and_congr_right fun _ ↦ and_congr_right fun _ ↦ ?_
    exact ⟨fun hall ↦ hall h hmem hisReady,
      fun hle a ha haReady ↦ UInt64.le_trans hle (hshortest a ha haReady)⟩
  have hsame := sameTasks_dispachingIteration s
  have hstep := ctSection_step s.unlockTl (some h)
  unfold ChoosesShortest
  rw [hchoice]
  rw [dispachingIteration_eq, hselected] at hsame ⊢
  generalize ctSection (some h) s.unlockTl = result at hsame hstep
  cases hstep with
  | @keep _ cur hct hrank =>
    -- the section leaves everything as it is, whatever the state of the current task
    have hle : (s.slab cur).period ≤ (s.slab h).period := Scheduler.le_of_not_outranked hrank
    constructor
    · rintro ⟨-, other, -, hother, hrunning, -⟩
      cases hct.symm.trans hother
      exact .inl ⟨cur, hct, hrunning, hle⟩
    · rintro (⟨other, hother, hrunning, -⟩ | ⟨-, hlonger⟩)
      · cases hct.symm.trans hother
        refine ⟨rfl, cur, (hs cur hct).1, hct, hrunning, fun a ha haReady ↦ ?_⟩
        exact UInt64.le_trans hle (hshortest a ha haReady)
      · exact absurd (hlonger cur hct) (UInt64.not_lt.mpr hle)
  | startFault hct hnull =>
    refine iff_of_false ?_ ?_
    · rintro ⟨hreturned, -⟩
      cases hreturned
    · rintro (⟨cur, hcur, -⟩ | ⟨hlinux, -⟩)
      · cases hct.symm.trans hcur
      · exact hlinux hnull
  | @preemptFault _ cur hct hrank hnull =>
    have hlt : (s.slab h).period < (s.slab cur).period := Scheduler.lt_of_outranked hrank
    have hnull' := hnull.resolve_left (hs cur hct).2
    refine iff_of_false ?_ ?_
    · rintro ⟨hreturned, -⟩
      cases hreturned
    · rintro (⟨other, hother, -, hle⟩ | ⟨hlinux, -⟩)
      · cases hct.symm.trans hother
        exact UInt64.not_lt.mpr hle hlt
      · exact hlinux hnull'
  | start hct hlinux =>
    refine iff_of_true ⟨rfl, h, hmem, rfl, ?_, ?_⟩ (.inr ⟨hlinux, fun cur hcur ↦ ?_⟩)
    · change ((s.setState h .running).slab h).state = .running
      rw [state_setState, if_pos rfl]
    · refine period_le_of_isReady hselected hsame fun a _ haReady ↦ .inl ?_
      change ((s.setState h .running).slab a).state = .ready at haReady
      exact (state_of_setState haReady (by decide)).2
    · cases hct.symm.trans hcur
  | @preempt _ cur hct hrank hcurLinux hlinux =>
    have hlt : (s.slab h).period < (s.slab cur).period := Scheduler.lt_of_outranked hrank
    refine iff_of_true ⟨rfl, h, hmem, rfl, ?_, ?_⟩ (.inr ⟨hlinux, fun other hother ↦ ?_⟩)
    · change (((s.setState cur .ready).setState h .running).slab h).state = .running
      rw [state_setState, if_pos rfl]
    · refine period_le_of_isReady hselected hsame fun a _ haReady ↦ ?_
      change (((s.setState cur .ready).setState h .running).slab a).state = .ready at haReady
      rw [state_setState, state_setState] at haReady
      split_ifs at haReady with hah hacur
      · exact .inr (hacur ▸ UInt64.le_of_lt hlt)
      · exact .inl haReady
    · cases hct.symm.trans hother
      exact hlt

/-! ### Whole runs -/

/-- A step takes an iteration of the dispatching thread only when a wake-up has been issued. -/
def WokenDispatch (before : Result) : Op → Prop
  | .dispatch => before.state.dispaching = .running
  | _ => True

instance (before : Result) : ∀ op, Decidable (WokenDispatch before op)
  | .register .. => isTrue trivial
  | .yeild .. => isTrue trivial
  | .deregister .. => isTrue trivial
  | .timer .. => isTrue trivial
  | .dispatch => inferInstanceAs (Decidable (before.state.dispaching = .running))

/-- The outcome of operations that meet the condition is reached by the woken system. -/
theorem woken_execAll (platform : Platform) (slab : Addr → Mp2TaskStruct) (ops : List Op)
    (hwoken : Meets (nextOp platform) WokenDispatch (startOp slab) ops) :
    ReachableUnder (nextOp platform) WokenDispatch (startOp slab)
      (execAll platform (startOp slab) ops) :=
  hwoken.reachableUnder .refl (run_nextOp platform (startOp slab) ops)

/-- In every state that a run of the woken system reaches, an iteration that starts with a `READY`
task ends well if and only if the choice fits. -/
theorem choosesShortest_iff {platform : Platform} {slab : Addr → Mp2TaskStruct} {r : Result}
    (hreach : ReachableUnder (nextOp platform) WokenDispatch (startOp slab) r)
    (hready : SomeReady r.state) : ChoosesShortest r.state ↔ ChoiceFits r.state :=
  choosesShortest_iff_of_ctListed (ctListed_of_reachable hreach) hready

/-- A yield and an expiry of one registered task: the iteration ends well since its choice fits. -/
theorem choosesShortest_iff_first_release :
    let ops : List Op := [.register 1 100 10 (some 1), .yeild 1 5, .timer 1]
    ChoosesShortest (execAll platformHz1000 (startOp zeroSlab) ops).state ↔
      ChoiceFits (execAll platformHz1000 (startOp zeroSlab) ops).state :=
  choosesShortest_iff (woken_execAll platformHz1000 zeroSlab _ (by decide))
    ⟨0, by decide, by decide⟩

/-- Task 1 runs when the timer of task 2 expires; task 2 is removed before the dispatching thread
runs, so that task 1 is demoted with `ct` left at it. The iteration after the expiry of task 3 finds
tasks 1 and 3 `READY`, and leaves them so. -/
theorem choosesShortest_lost :
    ¬ ∀ r, ReachableUnder (nextOp platformHz1000) WokenDispatch (startOp zeroSlab) r →
      SomeReady r.state → ChoosesShortest r.state := by
  intro hall
  have hlast := hall _ (woken_execAll platformHz1000 zeroSlab
    [.register 1 100 10 (some 1), .register 2 200 10 (some 2), .register 3 300 10 (some 3),
      .yeild 1 5, .yeild 2 6, .yeild 3 7, .timer 1, .dispatch, .timer 2, .deregister 2, .dispatch,
      .timer 3] (by decide)) ⟨0, by decide, by decide⟩
  obtain ⟨-, cur, -, hct, hrunning, -⟩ := hlast
  have hcur : cur = 0 := by
    have hzero : some cur = some 0 := hct.symm.trans (by decide)
    exact Option.some.inj hzero
  subst hcur
  exact absurd hrunning (by decide)

end KernelModules.RateMonotonic
