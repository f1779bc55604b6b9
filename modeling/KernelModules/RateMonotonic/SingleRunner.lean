import KernelModules.RateMonotonic.UtilisationAccounting

/-!
# The single runner

At most one registered task should be `RUNNING`, and `ct` should point to it (`SingleRunner`). Four
of the five operations keep this. `Task_deregister` clears `ct` only for the current task, the timer
callback only takes tasks out of `RUNNING`, and the dispatching thread replaces the current task
together with `ct`. `Task_yeild` clears `ct` whichever task yields, so a yield of one task while
another one is `RUNNING` leaves a runner that `ct` no longer points to.

`singleRunner_iff` says that this is the only way to lose the invariant: it holds in all states of a
run if and only if every yield that is carried through finds no other task `RUNNING`.
-/

set_option autoImplicit false
set_option relaxedAutoImplicit false

namespace KernelModules.RateMonotonic

open Foundation Scheduler

/-- At most one registered task is `RUNNING`, and `ct` points to every task that is. -/
def SingleRunner (s : Scheduler) : Prop :=
  (∀ a ∈ s.tl, ∀ b ∈ s.tl, (s.slab a).state = .running → (s.slab b).state = .running → a = b) ∧
    ∀ a ∈ s.tl, (s.slab a).state = .running → s.ct = some a

/-- A yield that is carried through, of a task that is listed, has made its deadline and has a
process, finds no other listed task `RUNNING`. -/
def SparesRunner (platform : Platform) (s : Scheduler) : Op → Prop
  | .yeild pid now => ∀ t, s.yeildLookup pid = some t →
      (s.slab t).missesDdl platform now = false → (s.slab t).linuxTask ≠ none →
        ∀ a ∈ s.tl, (s.slab a).state = .running → a = t
  | _ => True

/-- The second clause gives the first: two tasks `ct` points to are one. -/
theorem singleRunner_of_ct {s : Scheduler}
    (hct : ∀ a ∈ s.tl, (s.slab a).state = .running → s.ct = some a) : SingleRunner s := by
  refine ⟨fun a ha b hb haRun hbRun ↦ ?_, hct⟩
  have heq := (hct a ha haRun).symm.trans (hct b hb hbRun)
  exact Option.some.inj heq

namespace SingleRunner

variable {s t : Scheduler}

/-- A step that lists no new task, makes no task `RUNNING` and keeps `ct` keeps the invariant. -/
theorem of_subset (hs : SingleRunner s) (htl : ∀ a ∈ t.tl, a ∈ s.tl)
    (hrun : ∀ a ∈ t.tl, (t.slab a).state = .running → (s.slab a).state = .running)
    (hct : t.ct = s.ct) : SingleRunner t := by
  refine singleRunner_of_ct fun a ha haRun ↦ ?_
  rw [hct]
  exact hs.2 a (htl a ha) (hrun a ha haRun)

/-- No listed task is `RUNNING` when `ct` is NULL. -/
theorem not_running (hs : SingleRunner s) (hct : s.ct = none) {a : Addr} (ha : a ∈ s.tl) :
    (s.slab a).state ≠ .running := by
  intro haRun
  have hsome := hs.2 a ha haRun
  rw [hct] at hsome
  cases hsome

/-- A demotion of the current task leaves no task `RUNNING`. -/
theorem demoted (hs : SingleRunner s) {cur : Addr} (hcur : s.ct = some cur) {a : Addr}
    (ha : a ∈ s.tl) : ((s.setState cur .ready).slab a).state ≠ .running := by
  intro haRun
  obtain ⟨hne, hbefore⟩ := state_of_setState haRun (by decide)
  have hct := hs.2 a ha hbefore
  rw [hcur] at hct
  exact hne (Option.some.inj hct).symm

end SingleRunner

/-- The section under `ct_lock` keeps the invariant. -/
theorem singleRunner_ctSection {s : Scheduler} (hs : SingleRunner s) (highest : Option Addr) :
    SingleRunner (ctSection highest s).state := by
  have hstep := ctSection_step s highest
  generalize ctSection highest s = result at hstep
  cases hstep with
  | idle => exact hs
  | demoteFault hct =>
    exact singleRunner_of_ct fun a ha haRun ↦ absurd haRun (hs.demoted hct ha)
  | demote hct =>
    exact singleRunner_of_ct fun a ha haRun ↦ absurd haRun (hs.demoted hct ha)
  | keep => exact hs
  | startFault => exact hs
  | preemptFault hct =>
    exact singleRunner_of_ct fun a ha haRun ↦ absurd haRun (hs.demoted hct ha)
  | @start h hct =>
    refine singleRunner_of_ct fun a ha haRun ↦ ?_
    change ((s.setState h .running).slab a).state = .running at haRun
    rw [state_setState] at haRun
    split_ifs at haRun with heq
    · rw [heq]
      rfl
    · exact absurd haRun (hs.not_running hct ha)
  | @preempt h cur hct =>
    refine singleRunner_of_ct fun a ha haRun ↦ ?_
    change (((s.setState cur .ready).setState h .running).slab a).state = .running at haRun
    rw [state_setState] at haRun
    split_ifs at haRun with heq
    · rw [heq]
      rfl
    · exact absurd haRun (hs.demoted hct ha)

/-- A registration lists a task that is not `RUNNING`. Assumes: listed records that are
allocated. -/
theorem singleRunner_registered {s : Scheduler} (hs : SingleRunner s)
    (hfresh : ∀ a ∈ s.tl, a < s.fresh) (pid : UInt32) (period procTime : UInt64)
    (found : Option LinuxTask) : SingleRunner (s.registered pid period procTime found) := by
  refine singleRunner_of_ct fun a ha haRun ↦ ?_
  rw [registered_tl, List.mem_append, List.mem_singleton] at ha
  rw [registered_slab] at haRun
  rcases ha with ha | rfl
  · rw [Function.update_of_ne (hfresh a ha).ne] at haRun
    exact hs.2 a ha haRun
  · rw [Function.update_self] at haRun
    cases haRun

/-- The removal of a task keeps the invariant, with `ct` cleared when it points to that task.
Assumes: a list without repetition. -/
theorem singleRunner_removed {s : Scheduler} (hs : SingleRunner s) (hnodup : s.tl.Nodup)
    (t : Addr) : SingleRunner ((s.releaseCt t).removeTask t) := by
  refine singleRunner_of_ct fun a ha haRun ↦ ?_
  rw [removeTask_tl, releaseCt_tl, hnodup.mem_erase_iff] at ha
  rw [slab_removeTask_of_ne _ ha.1, releaseCt_slab] at haRun
  have hct := hs.2 a ha.2 haRun
  rw [removeTask_ct, releaseCt_ct, if_neg, hct]
  rw [hct]
  exact fun heq ↦ ha.1 (Option.some.inj heq)

/-- What a yield does to the invariant: it is kept unless the yield is carried through while another
task is `RUNNING`. -/
theorem singleRunner_taskYeild_iff {s : Scheduler} (hs : SingleRunner s) (platform : Platform)
    (pid : UInt32) (now : UInt64) :
    SingleRunner (taskYeild platform pid now s).state ↔
      SparesRunner platform s (.yeild pid now) := by
  have hslept : ∀ t, ∀ a ∈ s.tl, ((s.putToSleep platform now t).slab a).state = .running →
      a ≠ t ∧ (s.slab a).state = .running := by
    intro t a _ haRun
    by_cases heq : a = t
    · rw [heq, state_putToSleep_self] at haRun
      cases haRun
    · rw [slab_putToSleep_of_ne s platform now heq] at haRun
      exact ⟨heq, haRun⟩
  rcases taskYeild_cases platform pid now s with
    ⟨hnone, hresult⟩ | ⟨t, hfound, ⟨hmiss, hresult⟩ | ⟨-, hnull, hresult⟩ |
      ⟨hmade, hlinux, hresult⟩⟩
  · rw [hresult]
    refine iff_of_true hs fun t hfound ↦ ?_
    rw [hnone] at hfound
    cases hfound
  · rw [hresult]
    refine iff_of_true ?_ fun other hother hmade ↦ ?_
    · refine hs.of_subset (fun _ ha ↦ ha) (fun a _ haRun ↦ ?_) rfl
      have hstate : ((s.advanceDdl platform now t).slab a).state = (s.slab a).state := by
        refine slab_modify_of_keep (fun task ↦ task.state) ?_ s t a
        intro task
        rfl
      rw [← hstate]
      exact haRun
    · rw [hfound] at hother
      cases hother
      rw [hmiss] at hmade
      cases hmade
  · rw [hresult]
    refine iff_of_true ?_ fun other hother _ hlinux ↦ ?_
    · exact hs.of_subset (fun _ ha ↦ ha) (fun a ha haRun ↦ (hslept t a ha haRun).2) rfl
    · rw [hfound] at hother
      cases hother
      exact absurd hnull hlinux
  · rw [hresult]
    constructor
    · intro hafter other hother _ _ a ha haRun
      rw [hfound] at hother
      cases hother
      by_contra hne
      have haRun' : ((s.putToSleep platform now t).slab a).state = .running := by
        rw [slab_putToSleep_of_ne s platform now hne]
        exact haRun
      exact hafter.not_running rfl ha haRun'
    · intro hspares
      refine singleRunner_of_ct fun a ha haRun ↦ ?_
      obtain ⟨hne, hbefore⟩ := hslept t a ha haRun
      exact absurd (hspares t hfound hmade hlinux a ha hbefore) hne

/-- The invariant survives an operation exactly when the operation spares the runner. Assumes: a
scheduler backed by a ledger. -/
theorem singleRunner_exec_iff {s : Scheduler} {ledger : Ledger UInt32 726663}
    (hledger : Refines s ledger) (hs : SingleRunner s) (platform : Platform) (op : Op) :
    SingleRunner (exec platform op s).state ↔ SparesRunner platform s op := by
  cases op with
  | register pid period procTime found =>
    refine iff_of_true ?_ trivial
    simp only [exec]
    rcases taskRegister_fails_or_registers pid period procTime found s with
      ⟨-, lock, hstate⟩ | hresult
    · rw [hstate]
      exact hs
    · rw [hresult]
      exact singleRunner_registered hs hledger.tl_fresh pid period procTime found
  | yeild pid now => exact singleRunner_taskYeild_iff hs platform pid now
  | deregister pid =>
    refine iff_of_true ?_ trivial
    simp only [exec]
    rcases taskDeregister_cases pid s with
      ⟨-, hresult⟩ | ⟨t, hfound, ⟨hperiod, -⟩ | ⟨-, hresult⟩⟩
    · rw [hresult]
      exact hs
    · exact absurd hperiod (hledger.period_ne_zero t (mem_of_deregLookup hfound).1)
    · rw [hresult]
      exact singleRunner_removed (s := s.lockTl) hs hledger.tl_nodup t
  | timer data =>
    refine iff_of_true ?_ trivial
    refine hs.of_subset (fun a ha ↦ markReady_tl s data ▸ ha) (fun a _ haRun ↦ ?_)
      (markReady_ct s data)
    change ((s.markReady data).slab a).state = .running at haRun
    rw [slab_markReady] at haRun
    split_ifs at haRun
    exact haRun
  | dispatch =>
    refine iff_of_true ?_ trivial
    have hsection := singleRunner_ctSection (s := s.unlockTl) hs s.highestReady
    simp only [exec]
    rw [dispachingIteration_eq]
    unfold Result.andThen
    split
    · exact hsection
    · exact hsection

/-- In every run, all states have a single runner if and only if every step spares the runner. -/
theorem singleRunner_iff (platform : Platform) (slab : Addr → Mp2TaskStruct) (ops : List Op) :
    Always (nextOp platform) (fun r ↦ SingleRunner r.state) (startOp slab) ops ↔
      Meets (nextOp platform) (fun r op ↦ SparesRunner platform r.state op) (startOp slab) ops := by
  have hstart : SingleRunner (startOp slab).state :=
    singleRunner_of_ct fun _ ha ↦ absurd ha List.not_mem_nil
  refine always_iff_meets
    (fun r : Result ↦ (∃ ledger, Refines r.state ledger) ∧ SingleRunner r.state)
    (fun r hr ↦ hr.2) ?_ ?_ ⟨⟨_, refines_mp2Init slab⟩, hstart⟩ ops
  · rintro before op later ⟨⟨ledger, hledger⟩, hs⟩ hnext hspares
    cases hnext
    exact ⟨⟨_, refines_exec hledger platform op⟩,
      (singleRunner_exec_iff hledger hs platform op).mpr hspares⟩
  · rintro before op later ⟨⟨ledger, hledger⟩, hs⟩ hnext hnot hafter
    cases hnext
    exact hnot ((singleRunner_exec_iff hledger hs platform op).mp hafter)

/-- Task 1 is dispatched, then task 2 yields: task 1 is `RUNNING` and `ct` is NULL. -/
theorem singleRunner_lost :
    ¬ ∀ ops, SingleRunner (execAll platformHz1000 (startOp zeroSlab) ops).state := by
  intro hall
  have hlast := hall [.register 1 100 10 (some 1), .register 2 200 10 (some 2), .yeild 1 5,
    .timer 1, .dispatch, .yeild 2 106]
  have hct := hlast.2 0 (by decide) (by decide)
  exact absurd hct (by decide)

end KernelModules.RateMonotonic
