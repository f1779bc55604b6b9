import KernelModules.RateMonotonic.TimedExecution

/-!
# A dispatching thread that runs at once

What holds of the scheduler when only the current task yields and every registered task has a
process (`Orderly`). Only the current task is `RUNNING`, and the current task does not sleep.
Whenever the dispatching thread sleeps, the current task has the shortest period of the tasks that
do not sleep, and there is a current task unless all sleep.

A demotion without a successor leaves `ct` at a task that is `READY`, so that the state of the
current task is not fixed; that it does not sleep is.
-/

set_option autoImplicit false
set_option relaxedAutoImplicit false

namespace KernelModules.RateMonotonic

open Foundation Scheduler

/-- The scheduler between prompt operations. -/
structure Orderly (s : Scheduler) : Prop where
  ledger : ∃ ledger, Refines s ledger
  alive : ∀ a ∈ s.tl, (s.slab a).linuxTask ≠ none
  data : ∀ a ∈ s.tl, (s.slab a).timer.data = (s.slab a).pid
  runner : ∀ a ∈ s.tl, (s.slab a).state = .running → s.ct = some a
  current : ∀ cur, s.ct = some cur → cur ∈ s.tl ∧ (s.slab cur).state ≠ .sleeping
  idle : s.dispaching = .interruptible → s.ct = none → ∀ a ∈ s.tl, (s.slab a).state = .sleeping
  foremost : s.dispaching = .interruptible → ∀ cur, s.ct = some cur →
    ∀ a ∈ s.tl, (s.slab a).state ≠ .sleeping → (s.slab cur).period ≤ (s.slab a).period

/-- A task that does not sleep is `READY` or `RUNNING`. -/
theorem TaskState.ready_or_running {state : TaskState} (hawake : state ≠ .sleeping) :
    state = .ready ∨ state = .running := by
  cases state with
  | sleeping => exact absurd rfl hawake
  | ready => exact .inl rfl
  | running => exact .inr rfl

namespace Orderly

variable {s t : Scheduler}

/-- The pid of a listed task finds that task. -/
theorem yeildLookup_eq (hs : Orderly s) {a : Addr} (ha : a ∈ s.tl) :
    s.yeildLookup (s.slab a).pid = some a := by
  obtain ⟨ledger, hledger⟩ := hs.ledger
  cases hfound : s.yeildLookup (s.slab a).pid with
  | none =>
    rw [Scheduler.yeildLookup_eq, List.find?_eq_none] at hfound
    exact absurd (decide_eq_true rfl) (hfound a (List.mem_reverse.mpr ha))
  | some b =>
    obtain ⟨hb, hpid⟩ := mem_of_yeildLookup hfound
    rw [hledger.eq_of_pid_eq hb ha hpid]

/-- A lock call keeps the scheduler orderly. -/
theorem lock (hs : Orderly s) (lock : Bool) : Orderly { s with tlLock := lock } where
  ledger := by
    obtain ⟨ledger, hledger⟩ := hs.ledger
    exact ⟨ledger, hledger.of_sameTasks (.of_slab_eq rfl rfl rfl rfl)⟩
  alive := hs.alive
  data := hs.data
  runner := hs.runner
  current := hs.current
  idle := hs.idle
  foremost := hs.foremost

/-- A registration keeps the scheduler orderly. -/
theorem registered (hs : Orderly s) {pid : UInt32} {period procTime : UInt64}
    {found : Option LinuxTask} (hpid : s.listed pid = false) (hperiod : period ≠ 0)
    (hroom : s.admits period procTime = true) (hfound : found ≠ none) :
    Orderly (s.registered pid period procTime found) := by
  obtain ⟨ledger, hledger⟩ := hs.ledger
  have hold : ∀ a ∈ s.tl,
      (s.registered pid period procTime found).slab a = s.slab a := fun a ha ↦ by
    rw [registered_slab, Function.update_of_ne (hledger.tl_fresh a ha).ne]
  have hcases := @forall_registered_iff s hledger.tl_fresh pid period procTime found
  refine ⟨⟨_, hledger.registered found hpid hperiod hroom⟩, ?_, ?_, ?_, ?_, ?_, ?_⟩
  · exact (hcases fun _ task ↦ task.linuxTask ≠ none).mpr ⟨hs.alive, hfound⟩
  · exact (hcases fun _ task ↦ task.timer.data = task.pid).mpr ⟨hs.data, rfl⟩
  · exact (hcases fun a task ↦ task.state = .running → s.ct = some a).mpr
      ⟨hs.runner, by simp [newTask]⟩
  · intro cur hcur
    obtain ⟨hmem, hawake⟩ := hs.current cur hcur
    rw [hold cur hmem]
    exact ⟨List.mem_append_left _ hmem, hawake⟩
  · intro hasleep hct
    exact (hcases fun _ task ↦ task.state = .sleeping).mpr ⟨hs.idle hasleep hct, rfl⟩
  · intro hasleep cur hcur
    rw [hold cur (hs.current cur hcur).1]
    exact (hcases fun _ task ↦ task.state ≠ .sleeping → (s.slab cur).period ≤ task.period).mpr
      ⟨hs.foremost hasleep cur hcur, fun hawake ↦ absurd rfl hawake⟩

/-- A yield that is carried through keeps the scheduler orderly. Assumes: no other task is
current. -/
theorem yeilded (hs : Orderly s) (platform : Platform) (now : UInt64) {t : Addr}
    (hct : s.ct = some t ∨ s.ct = none) :
    Orderly ((((s.putToSleep platform now t).setCt none).unlockCt).unlockTl).wakeDispaching := by
  obtain ⟨ledger, hledger⟩ := hs.ledger
  have hkeep : ∀ {β : Type} (field : Mp2TaskStruct → β),
      (∀ task ddl timer state,
        field { task with nextDdl := ddl, timer := timer, state := state } = field task) →
        ∀ a, field ((s.putToSleep platform now t).slab a) = field (s.slab a) :=
    fun field hfield a ↦ slab_putToSleep_of_keep field hfield s platform now t a
  have hsame := sameTasks_putToSleep s platform now t
  refine ⟨⟨ledger, hledger.of_sameTasks (hsame.trans (.of_slab_eq rfl rfl rfl rfl))⟩, ?_, ?_, ?_,
    ?_, ?_, ?_⟩
  · intro a ha
    exact (hkeep (fun task ↦ task.linuxTask) (fun _ _ _ _ ↦ rfl) a).symm ▸ hs.alive a ha
  · intro a ha
    exact ((hsame.timerData a).trans (hs.data a ha)).trans (hsame.pid a).symm
  · intro a ha hrunning
    change ((s.putToSleep platform now t).slab a).state = .running at hrunning
    by_cases hat : a = t
    · rw [hat, state_putToSleep_self] at hrunning
      cases hrunning
    · rw [slab_putToSleep_of_ne s platform now hat] at hrunning
      have hcurrent := hs.runner a ha hrunning
      rcases hct with hct | hct
      · exact absurd (Option.some.inj (hcurrent.symm.trans hct)) hat
      · rw [hct] at hcurrent
        cases hcurrent
  · intro cur hcur
    cases hcur
  · intro hasleep
    cases hasleep
  · intro hasleep
    cases hasleep

/-- What holds of every listed record but one holds of every listed record after the removal of
that one. Assumes: records that are listed once. -/
theorem forall_removed (hnodup : s.tl.Nodup) {t : Addr} (property : Addr → Mp2TaskStruct → Prop)
    (hlisted : ∀ a ∈ s.tl, a ≠ t → property a (s.slab a)) :
    ∀ a ∈ ((s.lockTl.releaseCt t).removeTask t).tl,
      property a (((s.lockTl.releaseCt t).removeTask t).slab a) := by
  intro a ha
  rw [removeTask_tl, releaseCt_tl] at ha
  obtain ⟨hne, hmem⟩ := hnodup.mem_erase_iff.mp ha
  rw [slab_removeTask_of_ne _ hne, releaseCt_slab, lockTl_slab]
  exact hlisted a hmem hne

/-- A removal keeps the scheduler orderly. -/
theorem removed (hs : Orderly s) {t : Addr} (ht : t ∈ s.tl) :
    Orderly ((s.lockTl.releaseCt t).removeTask t).unlockTl := by
  obtain ⟨ledger, hledger⟩ := hs.ledger
  have hledger' : Refines (s.lockTl.releaseCt t) ledger :=
    hledger.of_sameTasks ((sameTasks_lockTl s).trans (sameTasks_releaseCt s.lockTl t))
  have hremoved := hledger'.removeTask (t := t) (by rw [releaseCt_tl]; exact ht)
  have hcases := @forall_removed s hledger.tl_nodup t
  have hold : ∀ a, a ≠ t → ((s.lockTl.releaseCt t).removeTask t).slab a = s.slab a := by
    intro a ha
    rw [slab_removeTask_of_ne _ ha, releaseCt_slab, lockTl_slab]
  have hct : ((s.lockTl.releaseCt t).removeTask t).ct =
      if s.ct = some t then none else s.ct := by
    rw [removeTask_ct, releaseCt_ct, lockTl_ct]
  -- the dispatching thread still sleeps only when another task or none was the current one
  have hasleep : ((s.lockTl.releaseCt t).removeTask t).dispaching = .interruptible →
      s.ct ≠ some t ∧ s.dispaching = .interruptible := by
    intro hsleeps
    change (s.lockTl.releaseCt t).dispaching = .interruptible at hsleeps
    unfold releaseCt at hsleeps
    split_ifs at hsleeps with hcurrent
    · cases hsleeps
    · exact ⟨hcurrent, hsleeps⟩
  refine ⟨⟨_, hremoved.of_sameTasks (sameTasks_unlockTl _)⟩, ?_, ?_, ?_, ?_, ?_, ?_⟩
  · exact hcases (fun _ task ↦ task.linuxTask ≠ none) fun a ha _ ↦ hs.alive a ha
  · exact hcases (fun _ task ↦ task.timer.data = task.pid) fun a ha _ ↦ hs.data a ha
  · refine hcases (fun a task ↦ task.state = .running →
      ((s.lockTl.releaseCt t).removeTask t).ct = some a) fun a ha hne hrunning ↦ ?_
    rw [hct, hs.runner a ha hrunning, if_neg fun heq ↦ hne (Option.some.inj heq)]
  · intro cur hcur
    rw [unlockTl_ct, hct] at hcur
    split_ifs at hcur with hcurrent
    obtain ⟨hlisted, hawake⟩ := hs.current cur hcur
    have hne : cur ≠ t := fun heq ↦ hcurrent (heq ▸ hcur)
    rw [unlockTl_slab, hold cur hne]
    refine ⟨?_, hawake⟩
    rw [unlockTl_tl, removeTask_tl, releaseCt_tl]
    exact (List.mem_erase_of_ne hne).mpr hlisted
  · intro hsleeps hnone
    obtain ⟨hother, hsleeps'⟩ := hasleep hsleeps
    rw [unlockTl_ct, hct, if_neg hother] at hnone
    exact hcases (fun _ task ↦ task.state = .sleeping) fun a ha _ ↦ hs.idle hsleeps' hnone a ha
  · intro hsleeps cur hcur
    obtain ⟨hother, hsleeps'⟩ := hasleep hsleeps
    rw [unlockTl_ct, hct, if_neg hother] at hcur
    have hcurne : cur ≠ t := fun heq ↦ hother (heq ▸ hcur)
    rw [unlockTl_slab, hold cur hcurne]
    exact hcases (fun _ task ↦ task.state ≠ .sleeping → (s.slab cur).period ≤ task.period)
      fun a ha _ ↦ hs.foremost hsleeps' cur hcur a ha

/-! ### Timers -/

/-- The record of a task after its timer has expired. Assumes: a listed task. -/
theorem slab_fire_self (hs : Orderly s) {a : Addr} (ha : a ∈ s.tl) :
    (s.fire a).slab a =
      { s.slab a with timer := { (s.slab a).timer with expires := none }, state := .ready } := by
  have hself : (s.delTimer a).slab a =
      { s.slab a with timer := { (s.slab a).timer with expires := none } } :=
    slab_modify_self s a _
  rw [Scheduler.fire, slab_markReady, hself]
  exact if_pos ⟨ha, (hs.data a ha).symm⟩

/-- The expiry of the timer of a listed task changes no other listed record. -/
theorem slab_fire_of_ne (hs : Orderly s) {a b : Addr} (ha : a ∈ s.tl) (hb : b ∈ s.tl)
    (hne : b ≠ a) : (s.fire a).slab b = s.slab b := by
  obtain ⟨ledger, hledger⟩ := hs.ledger
  have hother : (s.delTimer a).slab b = s.slab b := slab_modify_of_ne s hne _
  rw [Scheduler.fire, slab_markReady, hother, hs.data a ha]
  exact if_neg fun hboth ↦ hne (hledger.eq_of_pid_eq hb ha hboth.2)

/-- The expiry of the timer of a sleeping task keeps the scheduler orderly. -/
theorem fired (hs : Orderly s) {a : Addr} (ha : a ∈ s.tl)
    (hsleeping : (s.slab a).state = .sleeping) : Orderly (s.fire a).wakeDispaching := by
  obtain ⟨ledger, hledger⟩ := hs.ledger
  have hsame : SameTasks s (s.fire a).wakeDispaching :=
    ((sameTasks_delTimer s a).trans (sameTasks_markReady _ _)).trans (sameTasks_wakeDispaching _)
  have htl : (s.fire a).tl = s.tl := hsame.tl
  have hct : (s.fire a).ct = s.ct := markReady_ct _ _
  refine ⟨⟨ledger, hledger.of_sameTasks hsame⟩, ?_, ?_, ?_, ?_, ?_, ?_⟩
  · intro b hb
    rw [hsame.linuxTask]
    exact hs.alive b (htl ▸ hb)
  · intro b hb
    exact ((hsame.timerData b).trans (hs.data b (htl ▸ hb))).trans (hsame.pid b).symm
  · intro b hb hrunning
    change ((s.fire a).slab b).state = .running at hrunning
    have hb' : b ∈ s.tl := htl ▸ hb
    by_cases hba : b = a
    · rw [hba, hs.slab_fire_self ha] at hrunning
      cases hrunning
    · rw [hs.slab_fire_of_ne ha hb' hba] at hrunning
      exact hct.trans (hs.runner b hb' hrunning)
  · intro cur hcur
    have hcur' : s.ct = some cur := hct ▸ hcur
    obtain ⟨hlisted, hawake⟩ := hs.current cur hcur'
    have hne : cur ≠ a := fun heq ↦ hawake (heq ▸ hsleeping)
    refine ⟨htl.symm ▸ hlisted, ?_⟩
    change ((s.fire a).slab cur).state ≠ .sleeping
    rw [hs.slab_fire_of_ne ha hlisted hne]
    exact hawake
  · intro hasleep
    cases hasleep
  · intro hasleep
    cases hasleep

/-! ### The dispatching thread -/

/-- The second record is the first but for the state, and neither sleeps if the states differ. -/
def Restated (before after : Mp2TaskStruct) : Prop :=
  after = before ∨ before.state ≠ .sleeping ∧
    ∃ state, state ≠ .sleeping ∧ after = { before with state := state }

/-- Two changes of state are one. -/
theorem Restated.trans {first second third : Mp2TaskStruct} (hfirst : Restated first second)
    (hsecond : Restated second third) : Restated first third := by
  rcases hfirst with rfl | ⟨hawake, state, hstate, rfl⟩
  · exact hsecond
  · rcases hsecond with rfl | ⟨-, other, hother, rfl⟩
    · exact .inr ⟨hawake, state, hstate, rfl⟩
    · exact .inr ⟨hawake, other, hother, rfl⟩

/-- What an iteration leaves: the same tasks, and records that are the same but for the state of
tasks that do not sleep. -/
structure Dispatched (s t : Scheduler) : Prop where
  sameTasks : SameTasks s t
  orderly : Orderly t
  records : ∀ a, Restated (s.slab a) (t.slab a)

/-- A change of the state of a task that does not sleep. -/
theorem restated_setState {cur : Addr} (hawake : (s.slab cur).state ≠ .sleeping)
    {state : TaskState} (hstate : state ≠ .sleeping) (a : Addr) :
    Restated (s.slab a) ((s.setState cur state).slab a) := by
  unfold setState
  by_cases hacur : a = cur
  · rw [hacur, slab_modify_self]
    exact .inr ⟨hawake, state, hstate, rfl⟩
  · exact .inl (slab_modify_of_ne s hacur _)

/-- A change of state keeps the period of every record. -/
theorem period_setState (s : Scheduler) (cur : Addr) (state : TaskState) (a : Addr) :
    ((s.setState cur state).slab a).period = (s.slab a).period :=
  slab_setState_of_keep (fun task ↦ task.period) (fun _ _ ↦ rfl) s cur state a

/-- A task that does not sleep is the current one when none is `READY`. -/
theorem eq_current_of_awake (hs : Orderly s) (hselected : s.highestReady = none) {a : Addr}
    (ha : a ∈ s.tl) (hawake : (s.slab a).state ≠ .sleeping) : s.ct = some a := by
  rcases TaskState.ready_or_running hawake with hready | hrunning
  · have hnot := highestReady_eq_none_iff.mp hselected a ha
    rw [isReady, hready] at hnot
    simp at hnot
  · exact hs.runner a ha hrunning

/-- A task that does not sleep has a period no shorter than the selected one, unless it is the
current one. -/
theorem selected_le_of_awake (hs : Orderly s) {h a : Addr} (hselected : s.highestReady = some h)
    (ha : a ∈ s.tl) (hawake : (s.slab a).state ≠ .sleeping) :
    (s.slab h).period ≤ (s.slab a).period ∨ s.ct = some a := by
  rcases TaskState.ready_or_running hawake with hready | hrunning
  · exact .inl ((highestReady_spec hselected).2.2 a ha (by simp [isReady, hready]))
  · exact .inr (hs.runner a ha hrunning)

/-- A scheduler that is orderly but for the tasks that run, when its dispatching thread goes to
sleep. -/
theorem asleep (hs : Orderly s) (hsame : SameTasks s t)
    (hrunner : ∀ a ∈ s.tl, (t.slab a).state = .running → t.ct = some a)
    (hcurrent : ∀ cur, t.ct = some cur → cur ∈ s.tl ∧ (t.slab cur).state ≠ .sleeping)
    (hidle : t.ct = none → ∀ a ∈ s.tl, (t.slab a).state = .sleeping)
    (hforemost : ∀ cur, t.ct = some cur → ∀ a ∈ s.tl, (t.slab a).state ≠ .sleeping →
      (t.slab cur).period ≤ (t.slab a).period) :
    Orderly { t with dispaching := .interruptible } := by
  obtain ⟨ledger, hledger⟩ := hs.ledger
  have htl : t.tl = s.tl := hsame.tl
  refine ⟨⟨ledger, hledger.of_sameTasks (hsame.trans (.of_slab_eq rfl rfl rfl rfl))⟩, ?_, ?_, ?_,
    ?_, ?_, ?_⟩
  · intro a ha
    change (t.slab a).linuxTask ≠ none
    rw [hsame.linuxTask]
    exact hs.alive a (htl ▸ ha)
  · intro a ha
    exact ((hsame.timerData a).trans (hs.data a (htl ▸ ha))).trans (hsame.pid a).symm
  · exact fun a ha ↦ hrunner a (htl ▸ ha)
  · intro cur hcur
    obtain ⟨hlisted, hawake⟩ := hcurrent cur hcur
    exact ⟨htl.symm ▸ hlisted, hawake⟩
  · exact fun _ hct a ha ↦ hidle hct a (htl ▸ ha)
  · exact fun _ cur hcur a ha ↦ hforemost cur hcur a (htl ▸ ha)

/-- No task is `READY` or current. -/
theorem dispatched_idle (hs : Orderly s) (hselected : s.highestReady = none) (hct : s.ct = none) :
    Dispatched s { s.unlockCt with dispaching := .interruptible } := by
  have hsleep : ∀ a ∈ s.tl, (s.slab a).state = .sleeping := by
    intro a ha
    by_contra hawake
    rw [hs.eq_current_of_awake hselected ha hawake] at hct
    cases hct
  have hnone : ∀ cur, s.unlockCt.ct ≠ some cur := fun cur hcur ↦ by
    rw [unlockCt_ct, hct] at hcur
    cases hcur
  refine ⟨.of_slab_eq rfl rfl rfl rfl, ?_, fun a ↦ .inl rfl⟩
  exact hs.asleep (sameTasks_unlockCt s) hs.runner (fun cur hcur ↦ absurd hcur (hnone cur))
    (fun _ ↦ hsleep) fun cur hcur ↦ absurd hcur (hnone cur)

/-- No task is `READY`, and the current one becomes so. -/
theorem dispatched_demote (hs : Orderly s) (hselected : s.highestReady = none) {cur : Addr}
    (hct : s.ct = some cur) :
    Dispatched s { (s.setState cur .ready).unlockCt with dispaching := .interruptible } := by
  obtain ⟨hlisted, hawake⟩ := hs.current cur hct
  have hsame := (sameTasks_setState s cur .ready).trans (sameTasks_unlockCt _)
  have hstates : ∀ a, ((s.setState cur .ready).unlockCt.slab a).state =
      if a = cur then .ready else (s.slab a).state := fun a ↦ state_setState s cur .ready a
  refine ⟨hsame.trans (.of_slab_eq rfl rfl rfl rfl), hs.asleep hsame ?_ ?_ ?_ ?_,
    restated_setState hawake (by simp)⟩
  · intro a ha hrunning
    rw [hstates] at hrunning
    split_ifs at hrunning
    exact hs.runner a ha hrunning
  · intro other hother
    cases hct.symm.trans hother
    refine ⟨hlisted, ?_⟩
    rw [hstates, if_pos rfl]
    simp
  · intro hnone
    cases hct.symm.trans hnone
  · intro other hother a ha hawake'
    cases hct.symm.trans hother
    rw [hstates] at hawake'
    split_ifs at hawake' with hacur
    · exact hacur ▸ UInt64.le_refl _
    · exact absurd (Option.some.inj (hct.symm.trans
        (hs.eq_current_of_awake hselected ha hawake'))) (Ne.symm hacur)

/-- The selected task does not come before the current one. -/
theorem dispatched_keep (hs : Orderly s) {h cur : Addr} (hselected : s.highestReady = some h)
    (hct : s.ct = some cur) (hrank : s.outranked cur h = false) :
    Dispatched s { s.unlockCt with dispaching := .interruptible } := by
  refine ⟨.of_slab_eq rfl rfl rfl rfl, ?_, fun a ↦ .inl rfl⟩
  refine hs.asleep (sameTasks_unlockCt s) hs.runner hs.current ?_ ?_
  · intro hnone
    cases hct.symm.trans hnone
  · intro other hother a ha hawake
    cases hct.symm.trans hother
    rcases hs.selected_le_of_awake hselected ha hawake with hle | hcurrent
    · exact UInt64.le_trans (Scheduler.le_of_not_outranked hrank) hle
    · cases hct.symm.trans hcurrent
      exact UInt64.le_refl _

/-- The selected task does not sleep. -/
theorem awake_of_selected {h : Addr} (hselected : s.highestReady = some h) :
    (s.slab h).state ≠ .sleeping := by
  rw [of_decide_eq_true (highestReady_spec hselected).2.1]
  simp

/-- The selected task becomes the current one where there is none. -/
theorem dispatched_start (hs : Orderly s) {h : Addr} (hselected : s.highestReady = some h)
    (hct : s.ct = none) :
    Dispatched s { ((s.setState h .running).setCt (some h)).unlockCt with
      dispaching := .interruptible } := by
  have hsame : SameTasks s ((s.setState h .running).setCt (some h)).unlockCt :=
    (sameTasks_setState s h .running).trans (.of_slab_eq rfl rfl rfl rfl)
  have hstates : ∀ a, (((s.setState h .running).setCt (some h)).unlockCt.slab a).state =
      if a = h then .running else (s.slab a).state := fun a ↦ state_setState s h .running a
  have hperiods : ∀ a, (((s.setState h .running).setCt (some h)).unlockCt.slab a).period =
      (s.slab a).period := period_setState s h .running
  refine ⟨hsame.trans (.of_slab_eq rfl rfl rfl rfl), hs.asleep hsame ?_ ?_ ?_ ?_,
    restated_setState (awake_of_selected hselected) (by simp)⟩
  · intro a ha hrunning
    rw [hstates] at hrunning
    split_ifs at hrunning with hah
    · rw [hah]
      rfl
    · cases hct.symm.trans (hs.runner a ha hrunning)
  · rintro other ⟨⟩
    refine ⟨(highestReady_spec hselected).1, ?_⟩
    rw [hstates, if_pos rfl]
    simp
  · rintro ⟨⟩
  · rintro other ⟨⟩ a ha hawake'
    rw [hperiods, hperiods]
    rw [hstates] at hawake'
    split_ifs at hawake' with hah
    · exact hah ▸ UInt64.le_refl _
    · rcases hs.selected_le_of_awake hselected ha hawake' with hle | hcurrent
      · exact hle
      · cases hct.symm.trans hcurrent

/-- The selected task becomes the current one in the place of one with a longer period. -/
theorem dispatched_preempt (hs : Orderly s) {h cur : Addr} (hselected : s.highestReady = some h)
    (hct : s.ct = some cur) (hrank : s.outranked cur h = true) :
    Dispatched s { (((s.setState cur .ready).setState h .running).setCt (some h)).unlockCt with
      dispaching := .interruptible } := by
  obtain ⟨-, hcurAwake⟩ := hs.current cur hct
  have hsame : SameTasks s
      (((s.setState cur .ready).setState h .running).setCt (some h)).unlockCt :=
    ((sameTasks_setState s cur .ready).trans (sameTasks_setState _ h .running)).trans
      (.of_slab_eq rfl rfl rfl rfl)
  have hstates : ∀ a, ((((s.setState cur .ready).setState h .running).setCt
      (some h)).unlockCt.slab a).state =
      if a = h then .running else if a = cur then .ready else (s.slab a).state := fun a ↦ by
    change (((s.setState cur .ready).setState h .running).slab a).state = _
    rw [state_setState, state_setState]
  have hperiods : ∀ a, ((((s.setState cur .ready).setState h .running).setCt
      (some h)).unlockCt.slab a).period = (s.slab a).period := fun a ↦
    (period_setState _ h .running a).trans (period_setState s cur .ready a)
  refine ⟨hsame.trans (.of_slab_eq rfl rfl rfl rfl), hs.asleep hsame ?_ ?_ ?_ ?_, fun a ↦ ?_⟩
  · intro a ha hrunning
    rw [hstates] at hrunning
    split_ifs at hrunning with hah hacur
    · rw [hah]
      rfl
    · exact absurd (Option.some.inj (hct.symm.trans (hs.runner a ha hrunning))) (Ne.symm hacur)
  · rintro other ⟨⟩
    refine ⟨(highestReady_spec hselected).1, ?_⟩
    rw [hstates, if_pos rfl]
    simp
  · rintro ⟨⟩
  · rintro other ⟨⟩ a ha hawake'
    rw [hperiods, hperiods]
    rw [hstates] at hawake'
    split_ifs at hawake' with hah hacur
    · exact hah ▸ UInt64.le_refl _
    · rw [hacur]
      exact UInt64.le_of_lt (Scheduler.lt_of_outranked hrank)
    · rcases hs.selected_le_of_awake hselected ha hawake' with hle | hcurrent
      · exact hle
      · exact absurd (Option.some.inj (hct.symm.trans hcurrent)) (Ne.symm hacur)
  · have hawake' : ((s.setState cur .ready).slab h).state ≠ .sleeping := by
      rw [state_setState]
      split_ifs
      · simp
      · exact awake_of_selected hselected
    exact (restated_setState hcurAwake (by simp) a).trans
      (restated_setState hawake' (by simp) a)

/-- What the section under `ct_lock` does to an orderly scheduler: it does not fault, and leaves the
scheduler orderly once the dispatching thread sleeps. -/
theorem ctSection (hs : Orderly s) :
    ∃ t, RateMonotonic.ctSection s.highestReady s = ⟨.returned 0, t⟩ ∧
      Dispatched s { t with dispaching := .interruptible } := by
  have hstep := ctSection_step s s.highestReady
  generalize hselected : s.highestReady = selected at hstep
  generalize RateMonotonic.ctSection selected s = result at hstep
  have halive : ∀ {h}, selected = some h → (s.slab h).linuxTask ≠ none := fun heq ↦
    hs.alive _ (highestReady_spec (hselected.trans heq)).1
  cases hstep with
  | idle hct => exact ⟨_, rfl, hs.dispatched_idle hselected hct⟩
  | demoteFault hct hnull => exact absurd hnull (hs.alive _ (hs.current _ hct).1)
  | demote hct => exact ⟨_, rfl, hs.dispatched_demote hselected hct⟩
  | keep hct hrank => exact ⟨_, rfl, hs.dispatched_keep hselected hct hrank⟩
  | startFault hct hnull => exact absurd hnull (halive rfl)
  | preemptFault hct hrank hnull =>
    rcases hnull with hnull | hnull
    · exact absurd hnull (hs.alive _ (hs.current _ hct).1)
    · exact absurd hnull (halive rfl)
  | start hct => exact ⟨_, rfl, hs.dispatched_start hselected hct⟩
  | preempt hct hrank => exact ⟨_, rfl, hs.dispatched_preempt hselected hct hrank⟩

/-- An iteration of the dispatching thread does not fault, and leaves the scheduler orderly. -/
theorem dispatched (hs : Orderly s) :
    ∃ t, dispachingIteration s = ⟨.returned 0, t⟩ ∧ Dispatched s t := by
  obtain ⟨t, hresult, hdispatched⟩ := (hs.lock false).ctSection
  refine ⟨{ t with dispaching := .interruptible }, ?_, ?_⟩
  · rw [dispachingIteration_eq]
    have hselected : s.unlockTl.highestReady = s.highestReady := rfl
    rw [← hselected]
    exact (congrArg (fun r ↦ Result.andThen r fun s ↦
      ⟨.returned 0, { s with dispaching := .interruptible }⟩) hresult)
  · exact ⟨(sameTasks_unlockTl s).trans hdispatched.sameTasks, hdispatched.orderly,
      hdispatched.records⟩

end Orderly

end KernelModules.RateMonotonic
