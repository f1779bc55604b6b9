import KernelModules.RateMonotonic.PromptDispatch

/-!
# Guaranteed deadlines

The module on a processor in time simulates a processor with fixed priorities (`Represents`): a
registered task is a task that has joined, an expired timer releases a job, a yield finishes it, and
a tick serves a foremost task. The admission test of `Task_register` bounds the utilisation of the
tasks that have joined, so that every level passes the time-demand test and no job is late.

For the code this says that in every run that keeps to `RealTime` no deadline is missed
(`deadlinesKept_of_reachable`): every yield of the running process returns 0, and a job that has not
yielded is within its period.
-/

set_option autoImplicit false
set_option relaxedAutoImplicit false

namespace KernelModules.RateMonotonic

open Foundation Scheduler Board

/-! ### The stages of a task -/

/-- Where a task is at a time in ticks, with what its job may still run and the end of its last
period. Before the first yield it has no deadline; then it waits for its timer; then its job is
released, with a period to run. -/
inductive Stage (base : Timebase) (time : ℕ) (task : Mp2TaskStruct) (left due : ℕ) : Prop
  | unreleased (hddl : task.nextDdl = 0) (hstate : task.state = .sleeping)
    (htimer : task.timer.expires = none) (hleft : left = 0) (hdue : due ≤ time)
  | waiting (hddl : 0 < task.nextDdl.toNat) (hstate : task.state = .sleeping)
    (htimer : task.timer.expires = some task.nextDdl) (hleft : left = 0)
    (hdue : due ≤ task.nextDdl.toNat * base.resolution)
    (htime : time ≤ task.nextDdl.toNat * base.resolution)
    (hsoon : task.nextDdl.toNat ≤ time / base.resolution + base.jiffiesOf task)
  | released (hddl : 0 < task.nextDdl.toNat) (hstate : task.state ≠ .sleeping)
    (htimer : task.timer.expires = none) (hleft : 0 < left)
    (hdue : due = (task.nextDdl.toNat + base.jiffiesOf task) * base.resolution)
    (htime : task.nextDdl.toNat * base.resolution ≤ time)

namespace Stage

variable {base : Timebase} {time : ℕ} {task other : Mp2TaskStruct} {left due : ℕ}

/-- A task sleeps exactly when it has no job. -/
theorem sleeping_iff (hstage : Stage base time task left due) :
    task.state = .sleeping ↔ left = 0 := by
  cases hstage with
  | unreleased _ hstate _ hleft => exact iff_of_true hstate hleft
  | waiting _ hstate _ hleft => exact iff_of_true hstate hleft
  | released _ hstate _ hleft => exact iff_of_false hstate hleft.ne'

/-- A change of the state of a task that does not sleep keeps the stage. -/
theorem restated (hstage : Stage base time task left due)
    (hrestated : Orderly.Restated task other) : Stage base time other left due := by
  rcases hrestated with rfl | ⟨hawake, state, hstate, rfl⟩
  · exact hstage
  · cases hstage with
    | unreleased _ hsleeping => exact absurd hsleeping hawake
    | waiting _ hsleeping => exact absurd hsleeping hawake
    | released hddl _ htimer hleft hdue htime =>
      exact .released hddl hstate htimer hleft hdue htime

/-- A tick keeps the stage, of a task whose timer has not expired. -/
theorem tick (hbase : base.Sound) (hstage : Stage base time task left due)
    (htimer : task.timer.expires = some task.nextDdl →
      time / base.resolution < task.nextDdl.toNat) :
    Stage base (time + 1) task left due := by
  cases hstage with
  | unreleased hddl hstate hnone hleft hdue =>
    exact .unreleased hddl hstate hnone hleft (hdue.trans (Nat.le_succ _))
  | waiting hddl hstate hpending hleft hdue htime hsoon =>
    refine .waiting hddl hstate hpending hleft hdue ?_ ?_
    · exact (Nat.div_lt_iff_lt_mul hbase.resolution_pos).mp (htimer hpending)
    · exact hsoon.trans (Nat.add_le_add_right (Nat.div_le_div_right (Nat.le_succ _)) _)
  | released hddl hstate hnone hleft hdue htime =>
    exact .released hddl hstate hnone hleft hdue (htime.trans (Nat.le_succ _))

/-- A task that does not sleep has a released job. -/
theorem of_awake (hstage : Stage base time task left due) (hawake : task.state ≠ .sleeping) :
    0 < task.nextDdl.toNat ∧ task.timer.expires = none ∧ 0 < left ∧
      due = (task.nextDdl.toNat + base.jiffiesOf task) * base.resolution ∧
        task.nextDdl.toNat * base.resolution ≤ time := by
  cases hstage with
  | unreleased _ hsleeping => exact absurd hsleeping hawake
  | waiting _ hsleeping => exact absurd hsleeping hawake
  | released hddl _ htimer hleft hdue htime => exact ⟨hddl, htimer, hleft, hdue, htime⟩

end Stage

/-! ### The simulation -/

/-- What holds of a board in a run that keeps to `RealTime`. -/
structure Kept (base : Timebase) (b : Board) : Prop where
  orderly : Orderly b.sched
  measurable : ∀ a ∈ b.sched.tl,
    Measurable base (b.sched.slab a).period (b.sched.slab a).procTime
  bounded : b.sched.exactUtil + b.retired ≤ utilBound
  early : base.Early b.time
  idle : ∀ a, a ∉ b.sched.tl → b.left a = 0

/-- A board is represented by a processor with fixed priorities: its listed tasks have joined with
their period and their budget in ticks, and the tasks that have joined use at most what the listed
and the removed tasks use. -/
structure Represents (base : Timebase) (b : Board) (p : Processor Addr) : Prop where
  now : p.now = b.time
  left : p.left = b.left
  members : ∀ a ∈ b.sched.tl, a ∈ p.tasks.members
  fresh : ∀ a ∈ p.tasks.members, a < b.sched.fresh
  period : ∀ a ∈ b.sched.tl,
    p.tasks.period a = base.jiffiesOf (b.sched.slab a) * base.resolution
  cost : ∀ a ∈ b.sched.tl, p.tasks.cost a = base.budget (b.sched.slab a)
  utilisation : p.tasks.utilisation ≤ b.sched.exactUtil + b.retired
  stage : ∀ a ∈ b.sched.tl, Stage base b.time (b.sched.slab a) (b.left a) (p.due a)

/-- A board in a run that keeps to `RealTime`, with a processor that represents it and is reached in
a run of its own. -/
structure Simulated (base : Timebase) (time : ℕ) (b : Board) (p : Processor Addr) : Prop where
  kept : Kept base b
  represents : Represents base b p
  reachable : Reachable Processor.next (Processor.start time) p

namespace Simulated

variable {base : Timebase} {time : ℕ} {b : Board} {p : Processor Addr}

/-- No job is late on the processor. -/
theorem not_late (hsim : Simulated base time b p) : ¬ p.Late :=
  Processor.not_late_of_reachable hsim.reachable fun _ hlevel ↦
    TaskSet.feasible_of_utilisation_le
      (hsim.represents.utilisation.trans hsim.kept.bounded) hlevel

/-- A job that is released is within its period. -/
theorem time_lt (hsim : Simulated base time b p) {a : Addr} (ha : a ∈ b.sched.tl)
    (hawake : (b.sched.slab a).state ≠ .sleeping) :
    b.time < ((b.sched.slab a).nextDdl.toNat + base.jiffiesOf (b.sched.slab a)) *
      base.resolution := by
  obtain ⟨-, -, hleft, hdue, -⟩ := (hsim.represents.stage a ha).of_awake hawake
  by_contra hlate
  refine hsim.not_late ⟨a, hsim.represents.members a ha, ?_, ?_⟩
  · rw [hsim.represents.left]
    exact hleft
  · rw [hdue, hsim.represents.now]
    exact not_lt.mp hlate

/-! ### Operations that keep the tasks -/

/-- A step that keeps the tasks and the time. Assumes: the processor has gone to a state with the
same tasks and time, in which the listed tasks are in their stages. -/
theorem of_sameTasks (hsim : Simulated base time b p) {s : Scheduler} {left : Addr → ℕ}
    {q : Processor Addr} (outcome : Outcome) (hsame : SameTasks b.sched s) (horderly : Orderly s)
    (hreach : Reachable Processor.next (Processor.start time) q) (htasks : q.tasks = p.tasks)
    (hnow : q.now = p.now) (hleft : q.left = left) (hidle : ∀ a, a ∉ b.sched.tl → left a = 0)
    (hstage : ∀ a ∈ b.sched.tl, Stage base b.time (s.slab a) (left a) (q.due a)) :
    Simulated base time { b with result := ⟨outcome, s⟩, left := left } q where
  kept :=
    { orderly := horderly
      measurable := fun a ha ↦ by
        change Measurable base (s.slab a).period (s.slab a).procTime
        rw [hsame.period, hsame.procTime]
        exact hsim.kept.measurable a (hsame.tl ▸ ha)
      bounded := by
        change s.exactUtil + b.retired ≤ utilBound
        rw [hsame.exactUtil]
        exact hsim.kept.bounded
      early := hsim.kept.early
      idle := fun a ha ↦ hidle a fun hmem ↦ ha (hsame.tl.symm ▸ hmem) }
  represents :=
    { now := hnow.trans hsim.represents.now
      left := hleft
      members := fun a ha ↦ by
        rw [htasks]
        exact hsim.represents.members a (hsame.tl ▸ ha)
      fresh := fun a ha ↦ by
        rw [htasks] at ha
        exact (hsim.represents.fresh a ha).trans_eq hsame.fresh.symm
      period := fun a ha ↦ by
        rw [htasks, hsim.represents.period a (hsame.tl ▸ ha)]
        simp only [Timebase.jiffiesOf, Mp2TaskStruct.periodJiffies, Board.sched, hsame.period]
      cost := fun a ha ↦ by
        rw [htasks, hsim.represents.cost a (hsame.tl ▸ ha)]
        simp only [Timebase.budget, Board.sched, hsame.procTime]
      utilisation := by
        change q.tasks.utilisation ≤ s.exactUtil + b.retired
        rw [htasks, hsame.exactUtil]
        exact hsim.represents.utilisation
      stage := fun a ha ↦ hstage a (hsame.tl ▸ ha) }
  reachable := hreach

/-- A step that keeps the tasks and the time, and leaves every record in its stage, is simulated
where the processor is. -/
theorem of_restated (hsim : Simulated base time b p) {s : Scheduler} (outcome : Outcome)
    (hsame : SameTasks b.sched s) (horderly : Orderly s)
    (hrecords : ∀ a ∈ b.sched.tl, Orderly.Restated (b.sched.slab a) (s.slab a)) :
    Simulated base time { b with result := ⟨outcome, s⟩ } p :=
  hsim.of_sameTasks outcome hsame horderly hsim.reachable rfl rfl hsim.represents.left
    hsim.kept.idle fun a ha ↦ (hsim.represents.stage a ha).restated (hrecords a ha)

/-- What a job may still run is changed for a listed task only. -/
theorem idle_update (hsim : Simulated base time b p) {t : Addr} (ht : t ∈ b.sched.tl)
    (value : ℕ) {a : Addr} (ha : a ∉ b.sched.tl) : Function.update b.left t value a = 0 := by
  have hne : a ≠ t := fun heq ↦ ha (heq ▸ ht)
  rw [Function.update_of_ne hne]
  exact hsim.kept.idle a ha

/-- A step that does no more than take or give back `tl_lock`. -/
theorem lock (hsim : Simulated base time b p) (outcome : Outcome) (lock : Bool) :
    Simulated base time { b with result := ⟨outcome, { b.sched with tlLock := lock }⟩ } p :=
  hsim.of_restated outcome (.of_slab_eq rfl rfl rfl rfl) (hsim.kept.orderly.lock lock)
    fun _ _ ↦ .inl rfl

/-- An iteration of the dispatching thread. -/
theorem dispatch (hsim : Simulated base time b p) :
    ∃ s, dispachingIteration b.sched = ⟨.returned 0, s⟩ ∧
      Simulated base time { b with result := ⟨.returned 0, s⟩ } p := by
  obtain ⟨s, hresult, hdispatched⟩ := hsim.kept.orderly.dispatched
  exact ⟨s, hresult, hsim.of_restated _ hdispatched.sameTasks hdispatched.orderly
    fun a _ ↦ hdispatched.records a⟩

/-! ### Ticks -/

/-- The tasks whose budget is left are the listed ones that do not sleep. -/
theorem awake_of_left (hsim : Simulated base time b p) {a : Addr} (hleft : 0 < p.left a) :
    a ∈ b.sched.tl ∧ (b.sched.slab a).state ≠ .sleeping := by
  rw [hsim.represents.left] at hleft
  have ha : a ∈ b.sched.tl := by
    by_contra hunlisted
    exact hleft.ne' (hsim.kept.idle a hunlisted)
  exact ⟨ha, fun hsleeping ↦
    hleft.ne' ((hsim.represents.stage a ha).sleeping_iff.mp hsleeping)⟩

/-- On a settled board the current task is foremost. -/
theorem foremost (hbase : base.Sound) (hsim : Simulated base time b p)
    (hsettled : b.Settled base) {cur : Addr} (hct : b.sched.ct = some cur) : p.Foremost cur := by
  obtain ⟨hlisted, hawake⟩ := hsim.kept.orderly.current cur hct
  obtain ⟨-, -, hleft, -⟩ := (hsim.represents.stage cur hlisted).of_awake hawake
  refine ⟨hsim.represents.members cur hlisted, ?_, fun j hj hpositive ↦ ?_⟩
  · rw [hsim.represents.left]
    exact hleft
  · obtain ⟨hj', hjAwake⟩ := hsim.awake_of_left hpositive
    have hle := hsim.kept.orderly.foremost hsettled.2 cur hct j hj' hjAwake
    rw [hsim.represents.period cur hlisted, hsim.represents.period j hj']
    exact Nat.mul_le_mul_right _ (Timebase.jiffiesOf_mono hbase
      (hsim.kept.measurable cur hlisted) (hsim.kept.measurable j hj') hle)

/-- The timer of a listed task has expired when the time has come to it. -/
theorem expired_iff (hbase : base.Sound) (hsim : Simulated base time b p) {a : Addr}
    (ha : a ∈ b.sched.tl)
    (hpending : (b.sched.slab a).timer.expires = some (b.sched.slab a).nextDdl)
    (hsoon : (b.sched.slab a).nextDdl.toNat ≤
      b.time / base.resolution + base.jiffiesOf (b.sched.slab a)) :
    b.Expired base a ↔ (b.sched.slab a).nextDdl.toNat ≤ b.time / base.resolution := by
  obtain ⟨hquarter, hhalf⟩ :=
    Timebase.four_mul_jiffiesOf_le hbase (hsim.kept.measurable a ha)
  have hearly : b.time / base.resolution < 2 ^ (base.platform.longBits - 1) := hsim.kept.early
  have hnow := Timebase.toNat_now hbase hsim.kept.early
  have hafter : base.platform.timeAfterEq (base.now b.time) (b.sched.slab a).nextDdl = true ↔
      (b.sched.slab a).nextDdl.toNat ≤ (base.now b.time).toNat :=
    Platform.timeAfterEq_iff hbase.bits_le (by omega) (by omega)
  rw [hnow] at hafter
  rw [← hafter]
  unfold Board.Expired
  rw [hpending]
  exact ⟨fun ⟨_, _, hmem, hexpired⟩ ↦ Option.some.inj hmem ▸ hexpired,
    fun hexpired ↦ ⟨ha, _, rfl, hexpired⟩⟩

/-- On a settled board without a current task no task has a job. -/
theorem idle_of_settled (hsim : Simulated base time b p) (hsettled : b.Settled base)
    (hct : b.sched.ct = none) : ∀ j ∈ p.tasks.members, p.left j = 0 := by
  intro j _
  by_contra hjob
  obtain ⟨hj, hawake⟩ := hsim.awake_of_left (Nat.pos_of_ne_zero hjob)
  exact hawake (hsim.kept.orderly.idle hsettled.2 hct j hj)

/-- A tick of a settled board serves the current task, or passes idle. -/
theorem tick (hbase : base.Sound) (hsim : Simulated base time b p) (hsettled : b.Settled base)
    (hbudget : b.WithinBudget) (hearly : base.Early (b.time + 1)) :
    ∃ q, Simulated base time
      { b with time := b.time + 1, left := ticked b.left b.sched.ct } q := by
  have hstage : ∀ a ∈ b.sched.tl,
      Stage base (b.time + 1) (b.sched.slab a) (b.left a) (p.due a) := by
    intro a ha
    refine (hsim.represents.stage a ha).tick hbase fun hpending ↦ ?_
    cases hsim.represents.stage a ha with
    | unreleased _ _ hnone =>
      rw [hnone] at hpending
      cases hpending
    | waiting _ _ _ _ _ _ hsoon =>
      by_contra hreached
      exact hsettled.1 a ha ((hsim.expired_iff hbase ha hpending hsoon).mpr (not_lt.mp hreached))
    | released _ _ hnone =>
      rw [hnone] at hpending
      cases hpending
  cases hct : b.sched.ct with
  | none =>
    have hnext : p.next .idle = some p.idled := if_pos (hsim.idle_of_settled hsettled hct)
    refine ⟨p.idled, ?_, ?_, hsim.reachable.step trivial hnext⟩
    · exact ⟨hsim.kept.orderly, hsim.kept.measurable, hsim.kept.bounded, hearly, hsim.kept.idle⟩
    · exact
        { hsim.represents with
          now := congrArg (· + 1) hsim.represents.now
          stage := hstage }
  | some cur =>
    have hleft := hbudget cur hct
    have hnext : p.next (.serve cur) = some (p.served cur) :=
      if_pos (hsim.foremost hbase hsettled hct)
    obtain ⟨hlisted, hawake⟩ := hsim.kept.orderly.current cur hct
    refine ⟨p.served cur, ?_, ?_, hsim.reachable.step trivial hnext⟩
    · exact ⟨hsim.kept.orderly, hsim.kept.measurable, hsim.kept.bounded, hearly,
        fun _ ha ↦ hsim.idle_update hlisted _ ha⟩
    · exact
        { hsim.represents with
          now := congrArg (· + 1) hsim.represents.now
          left := by
            change Function.update p.left cur (p.left cur - 1) =
              Function.update b.left cur (b.left cur - 1)
            rw [hsim.represents.left]
          stage := fun a ha ↦ by
            change Stage base (b.time + 1) (b.sched.slab a)
              (Function.update b.left cur (b.left cur - 1) a) (p.due a)
            by_cases hacur : a = cur
            · subst hacur
              rw [Function.update_self]
              cases hstage a ha with
              | unreleased _ hsleeping => exact absurd hsleeping hawake
              | waiting _ hsleeping => exact absurd hsleeping hawake
              | released hddl hstate htimer _ hdue htime =>
                exact .released hddl hstate htimer (by omega) hdue htime
            · rw [Function.update_of_ne hacur]
              exact hstage a ha }

/-! ### Timers -/

/-- A timer that has expired releases a job. -/
theorem expire (hbase : base.Sound) (hsim : Simulated base time b p) {a : Addr}
    (hexpired : b.Expired base a) :
    ∃ q, Simulated base time
      { b with
        result := ⟨.returned 0, (b.sched.fire a).wakeDispaching⟩
        left := Function.update b.left a (base.budget (b.sched.slab a)) } q := by
  have ha : a ∈ b.sched.tl := hexpired.1
  have hsame : SameTasks b.sched (b.sched.fire a).wakeDispaching :=
    ((sameTasks_delTimer _ a).trans (sameTasks_markReady _ _)).trans (sameTasks_wakeDispaching _)
  cases hsim.represents.stage a ha with
  | unreleased _ _ hnone =>
    obtain ⟨-, expires, hmem, -⟩ := hexpired
    rw [hnone] at hmem
    cases hmem
  | released _ _ hnone =>
    obtain ⟨-, expires, hmem, -⟩ := hexpired
    rw [hnone] at hmem
    cases hmem
  | waiting hddl hsleeping hpending hleft hdue htime hsoon =>
    have hreached := (hsim.expired_iff hbase ha hpending hsoon).mp hexpired
    have hnow : b.time = (b.sched.slab a).nextDdl.toNat * base.resolution :=
      le_antisymm htime ((Nat.le_div_iff_mul_le hbase.resolution_pos).mp hreached)
    have hmay : p.MayRelease a := by
      refine ⟨hsim.represents.members a ha, ?_, ?_⟩
      · rw [hsim.represents.left]
        exact hleft
      · rw [hsim.represents.now, hnow]
        exact hdue
    have hnext : p.next (.release a) = some (p.released a) := if_pos hmay
    refine ⟨p.released a, hsim.of_sameTasks _ hsame (hsim.kept.orderly.fired ha hsleeping)
      (hsim.reachable.step trivial hnext) rfl rfl ?_ (fun _ hc ↦ hsim.idle_update ha _ hc)
      fun c hc ↦ ?_⟩
    · change Function.update p.left a (p.tasks.cost a) = Function.update b.left a _
      rw [hsim.represents.left, hsim.represents.cost a ha]
    · change Stage base b.time ((b.sched.fire a).slab c)
        (Function.update b.left a (base.budget (b.sched.slab a)) c)
        (Function.update p.due a (p.now + p.tasks.period a) c)
      by_cases hca : c = a
      · subst hca
        rw [hsim.kept.orderly.slab_fire_self ha, Function.update_self, Function.update_self]
        refine .released hddl (by simp) rfl
          (Timebase.budget_pos (hsim.kept.measurable c ha)) ?_ hnow.ge
        rw [hsim.represents.now, hsim.represents.period c ha, hnow, Nat.add_mul]
        rfl
      · rw [hsim.kept.orderly.slab_fire_of_ne ha hc hca, Function.update_of_ne hca,
          Function.update_of_ne hca]
        exact hsim.represents.stage c hc

/-! ### Yields -/

/-- What a yield of a listed task sets: a deadline that has not passed, that fits into the counter
and comes at the end of the last period or later, and no later than a period from now. -/
structure SetsDeadline (base : Timebase) (b : Board) (p : Processor Addr) (t : Addr) : Prop where
  listed : t ∈ b.sched.tl
  made : (b.sched.slab t).missesDdl base.platform (base.now b.time) = false
  ulong : base.platform.ulong ((b.sched.slab t).nextDeadline base.platform (base.now b.time)) =
    (b.sched.slab t).nextDeadline base.platform (base.now b.time)
  after : b.time < ((b.sched.slab t).nextDeadline base.platform (base.now b.time)).toNat *
    base.resolution
  due : p.due t ≤ ((b.sched.slab t).nextDeadline base.platform (base.now b.time)).toNat *
    base.resolution
  soon : ((b.sched.slab t).nextDeadline base.platform (base.now b.time)).toNat ≤
    b.time / base.resolution + base.jiffiesOf (b.sched.slab t)

/-- A number that fits into an `unsigned long` is kept by the conversion. -/
theorem ulong_of_lt {platform : Platform} {value : UInt64}
    (hlt : value.toNat < 2 ^ platform.longBits) : platform.ulong value = value := by
  rw [Platform.ulong, Nat.mod_eq_of_lt hlt, UInt64.ofNat_toNat]

/-- The current task moves its deadline by a period. -/
theorem setsDeadline_of_current (hbase : base.Sound) (hsim : Simulated base time b p) {t : Addr}
    (hct : b.sched.ct = some t) : SetsDeadline base b p t := by
  have hturn : 2 ^ base.platform.longBits ≤ 2 ^ 64 :=
    Nat.pow_le_pow_right (by norm_num) hbase.bits_le
  have hearly : b.time / base.resolution < 2 ^ (base.platform.longBits - 1) := hsim.kept.early
  obtain ⟨hlisted, hawake⟩ := hsim.kept.orderly.current t hct
  obtain ⟨hddl, -, -, hdue, hreleased⟩ := (hsim.represents.stage t hlisted).of_awake hawake
  have hwithin := hsim.time_lt hlisted hawake
  obtain ⟨hquarter, hhalf⟩ :=
    Timebase.four_mul_jiffiesOf_le hbase (hsim.kept.measurable t hlisted)
  have hreleased' : (b.sched.slab t).nextDdl.toNat ≤ b.time / base.resolution :=
    (Nat.le_div_iff_mul_le hbase.resolution_pos).mpr hreleased
  have hne : (b.sched.slab t).nextDdl ≠ 0 := fun hzero ↦ by
    rw [hzero] at hddl
    exact absurd hddl (lt_irrefl 0)
  have hdeadline : ((b.sched.slab t).nextDeadline base.platform (base.now b.time)).toNat =
      (b.sched.slab t).nextDdl.toNat + base.jiffiesOf (b.sched.slab t) := by
    have hjiffies : base.jiffiesOf (b.sched.slab t) =
        (base.platform.msecsToJiffies (b.sched.slab t).period.toUInt32).toNat := rfl
    rw [Mp2TaskStruct.nextDeadline, if_neg hne, UInt64.toNat_add, ← hjiffies]
    exact Nat.mod_eq_of_lt (by omega)
  refine ⟨hlisted, ?_, ulong_of_lt (by omega), ?_, ?_, ?_⟩
  · have hcmp : b.time / base.resolution <
        (b.sched.slab t).nextDdl.toNat + base.jiffiesOf (b.sched.slab t) :=
      (Nat.div_lt_iff_lt_mul hbase.resolution_pos).mpr hwithin
    rw [Mp2TaskStruct.missesDdl, Bool.and_eq_false_iff]
    refine .inr (decide_eq_false ?_)
    rw [UInt64.lt_iff_toNat_lt, hdeadline, Timebase.toNat_now hbase hsim.kept.early]
    omega
  · rw [hdeadline]
    exact hwithin
  · rw [hdeadline, hdue]
  · rw [hdeadline]
    omega

/-- A task that yields for the first time sets a deadline a period from now. -/
theorem setsDeadline_of_first (hbase : base.Sound) (hsim : Simulated base time b p) {t : Addr}
    (hlisted : t ∈ b.sched.tl) (hfirst : (b.sched.slab t).nextDdl = 0) :
    SetsDeadline base b p t := by
  have hturn : 2 ^ base.platform.longBits ≤ 2 ^ 64 :=
    Nat.pow_le_pow_right (by norm_num) hbase.bits_le
  have hearly : b.time / base.resolution < 2 ^ (base.platform.longBits - 1) := hsim.kept.early
  obtain ⟨hquarter, hhalf⟩ :=
    Timebase.four_mul_jiffiesOf_le hbase (hsim.kept.measurable t hlisted)
  have hpos := Timebase.jiffiesOf_pos hbase (hsim.kept.measurable t hlisted)
  have hjiffies : base.jiffiesOf (b.sched.slab t) =
      (base.platform.msecsToJiffies (b.sched.slab t).period.toUInt32).toNat := rfl
  have hsum : (base.now b.time +
      base.platform.msecsToJiffies (b.sched.slab t).period.toUInt32).toNat =
        b.time / base.resolution + base.jiffiesOf (b.sched.slab t) := by
    rw [UInt64.toNat_add, Timebase.toNat_now hbase hsim.kept.early, ← hjiffies]
    exact Nat.mod_eq_of_lt (by omega)
  have hnext : (b.sched.slab t).nextDeadline base.platform (base.now b.time) =
      base.now b.time + base.platform.msecsToJiffies (b.sched.slab t).period.toUInt32 := by
    rw [Mp2TaskStruct.nextDeadline, if_pos hfirst]
    exact ulong_of_lt (by omega)
  have hafter : b.time < (b.time / base.resolution + base.jiffiesOf (b.sched.slab t)) *
      base.resolution := by
    rw [← Nat.div_lt_iff_lt_mul hbase.resolution_pos]
    omega
  refine ⟨hlisted, ?_, ?_, ?_, ?_, ?_⟩
  · rw [Mp2TaskStruct.missesDdl, hfirst]
    simp
  · rw [hnext]
    exact ulong_of_lt (by omega)
  · rw [hnext, hsum]
    exact hafter
  · rw [hnext, hsum]
    cases hsim.represents.stage t hlisted with
    | unreleased _ _ _ _ hdue => exact hdue.trans hafter.le
    | waiting hddl =>
      rw [hfirst] at hddl
      exact absurd hddl (lt_irrefl 0)
    | released hddl =>
      rw [hfirst] at hddl
      exact absurd hddl (lt_irrefl 0)
  · rw [hnext, hsum]

/-- The deadline that a task sets when it may yield. -/
theorem setsDeadline_of_mayYeild (hbase : base.Sound) (hsim : Simulated base time b p) {t : Addr}
    (hmay : b.MayYeild t) : SetsDeadline base b p t := by
  rcases hmay with hct | ⟨-, hlisted, hfirst⟩
  · exact hsim.setsDeadline_of_current hbase hct
  · exact hsim.setsDeadline_of_first hbase hlisted hfirst

/-- A yield of a task that may yield returns 0, and leaves the task waiting for its timer. -/
theorem taskYeild_of_mayYeild (hbase : base.Sound) (hsim : Simulated base time b p) {t : Addr}
    (hmay : b.MayYeild t) :
    taskYeild base.platform (b.sched.slab t).pid (base.now b.time) b.sched =
      ⟨.returned 0, ((((b.sched.putToSleep base.platform (base.now b.time) t).setCt
        none).unlockCt).unlockTl).wakeDispaching⟩ := by
  obtain ⟨hlisted, hmade, -⟩ := hsim.setsDeadline_of_mayYeild hbase hmay
  have hfound := hsim.kept.orderly.yeildLookup_eq hlisted
  rcases taskYeild_cases base.platform (b.sched.slab t).pid (base.now b.time) b.sched with
    ⟨hnone, -⟩ | ⟨other, hother, ⟨hmissed, -⟩ | ⟨-, hnull, -⟩ | ⟨-, -, hresult⟩⟩
  · rw [hfound] at hnone
    cases hnone
  · cases hfound.symm.trans hother
    rw [hmade] at hmissed
    cases hmissed
  · cases hfound.symm.trans hother
    exact absurd hnull (hsim.kept.orderly.alive t hlisted)
  · cases hfound.symm.trans hother
    exact hresult

/-- A yield of a task that may yield finishes its job. -/
theorem yeild (hbase : base.Sound) (hsim : Simulated base time b p) {t : Addr}
    (hmay : b.MayYeild t) :
    ∃ q, Simulated base time
      { b with
        result := taskYeild base.platform (b.sched.slab t).pid (base.now b.time) b.sched
        left := Function.update b.left t 0 } q := by
  obtain ⟨hlisted, -, hulong, hafter, hdue, hsoon⟩ := hsim.setsDeadline_of_mayYeild hbase hmay
  have hct : b.sched.ct = some t ∨ b.sched.ct = none := by
    rcases hmay with hct | ⟨hct, -⟩
    · exact .inl hct
    · exact .inr hct
  have hsame := sameTasks_putToSleep b.sched base.platform (base.now b.time) t
  rw [hsim.taskYeild_of_mayYeild hbase hmay]
  have hnext : p.next (.finish t) = some (p.finished t) := rfl
  refine ⟨p.finished t, hsim.of_sameTasks _
    ((hsame.trans (.of_slab_eq rfl rfl rfl rfl)))
    (hsim.kept.orderly.yeilded base.platform _ hct) (hsim.reachable.step trivial hnext) rfl rfl ?_
    (fun _ ha ↦ hsim.idle_update hlisted _ ha) fun a ha ↦ ?_⟩
  · change Function.update p.left t 0 = Function.update b.left t 0
    rw [hsim.represents.left]
  · change Stage base b.time ((b.sched.putToSleep base.platform (base.now b.time) t).slab a)
      (Function.update b.left t 0 a) (p.due a)
    by_cases hat : a = t
    · subst hat
      have hddl := nextDdl_putToSleep_self b.sched base.platform (base.now b.time) a
      rw [Function.update_self]
      refine .waiting ?_ (state_putToSleep_self _ _ _ _) ?_ rfl ?_ ?_ ?_
      · rw [hddl]
        refine Nat.pos_of_ne_zero fun hzero ↦ ?_
        rw [hzero, zero_mul] at hafter
        exact absurd hafter (Nat.not_lt_zero _)
      · rw [expires_putToSleep_self, hulong, hddl]
      · rw [hddl]
        exact hdue
      · rw [hddl]
        exact hafter.le
      · rw [hddl]
        refine hsoon.trans_eq ?_
        simp only [Timebase.jiffiesOf, Mp2TaskStruct.periodJiffies, hsame.period]
    · rw [slab_putToSleep_of_ne _ _ _ hat, Function.update_of_ne hat]
      exact hsim.represents.stage a ha

/-! ### Registrations and removals -/

section Registered

variable {pid : UInt32} {period procTime : UInt64} {found : Option LinuxTask}

/-- An admitted registration keeps what holds of a board. -/
theorem kept_registered (hkept : Kept base b) (hpid : b.sched.listed pid = false)
    (hperiod : period ≠ 0) (hroom : b.sched.admits period procTime = true) (hfound : found ≠ none)
    (hmeasurable : Measurable base period procTime) (hfits : b.Fits period procTime) :
    Kept base { b with result := ⟨.returned 0, b.sched.registered pid period procTime found⟩ } := by
  obtain ⟨ledger, hledger⟩ := hkept.orderly.ledger
  refine ⟨hkept.orderly.registered hpid hperiod hroom hfound, ?_, ?_, hkept.early,
    fun a ha ↦ hkept.idle a fun hmem ↦ ha (List.mem_append_left _ hmem)⟩
  · exact (forall_registered_iff hledger.tl_fresh fun _ task ↦
      Measurable base task.period task.procTime).mpr ⟨hkept.measurable, hmeasurable⟩
  · change (b.sched.registered pid period procTime found).exactUtil + b.retired ≤ utilBound
    have hroom' := hfits hroom
    have hcounted := exactUtil_eq hledger
    have hown : utilOf procTime period = droppedUtil procTime period +
        ((share procTime period).toNat : ℚ) / 2 ^ 20 := by
      unfold droppedUtil
      ring
    rw [exactUtil_registered hledger.tl_fresh]
    push_cast at hroom'
    rw [add_div] at hroom'
    linarith

/-- A processor that the new task has joined represents the board after its registration. -/
theorem represents_registered (hbase : base.Sound) (hsim : Simulated base time b p)
    (hmeasurable : Measurable base period procTime)
    (hunjoined : b.sched.fresh ∉ p.tasks.members)
    (hpos : 0 < base.jiffiesOf (newTask pid period procTime found) * base.resolution) :
    Represents base
      { b with result := ⟨.returned 0, b.sched.registered pid period procTime found⟩ }
      (p.joined b.sched.fresh _ (base.budget (newTask pid period procTime found)) hpos) := by
  obtain ⟨ledger, hledger⟩ := hsim.kept.orderly.ledger
  have hcases := @forall_registered_iff b.sched hledger.tl_fresh pid period procTime found
  have hleft : b.left b.sched.fresh = 0 :=
    hsim.kept.idle _ fun hmem ↦ lt_irrefl _ (hledger.tl_fresh _ hmem)
  refine ⟨hsim.represents.now, ?_, ?_, ?_, ?_, ?_, ?_, ?_⟩
  · change Function.update p.left b.sched.fresh 0 = b.left
    rw [hsim.represents.left, ← hleft]
    exact Function.update_eq_self _ _
  · exact (hcases fun a _ ↦ a ∈ insert b.sched.fresh p.tasks.members).mpr
      ⟨fun a ha ↦ Finset.mem_insert_of_mem (hsim.represents.members a ha),
        Finset.mem_insert_self _ _⟩
  · intro a ha
    rcases Finset.mem_insert.mp ha with rfl | ha
    · exact Nat.lt_succ_self _
    · exact (hsim.represents.fresh a ha).trans (Nat.lt_succ_self _)
  · refine (hcases fun a task ↦ Function.update p.tasks.period b.sched.fresh _ a =
      base.jiffiesOf task * base.resolution).mpr ⟨fun a ha ↦ ?_, Function.update_self _ _ _⟩
    rw [Function.update_of_ne (hledger.tl_fresh a ha).ne]
    exact hsim.represents.period a ha
  · refine (hcases fun a task ↦ Function.update p.tasks.cost b.sched.fresh _ a =
      base.budget task).mpr ⟨fun a ha ↦ ?_, Function.update_self _ _ _⟩
    rw [Function.update_of_ne (hledger.tl_fresh a ha).ne]
    exact hsim.represents.cost a ha
  · change (p.tasks.join b.sched.fresh _ _ hpos).utilisation ≤
      (b.sched.registered pid period procTime found).exactUtil + b.retired
    rw [TaskSet.utilisation_join hunjoined, exactUtil_registered hledger.tl_fresh]
    have hnew : Measurable base (newTask pid period procTime found).period
        (newTask pid period procTime found).procTime := hmeasurable
    have hshare := Timebase.share_le hbase hnew
    have hold := hsim.represents.utilisation
    change _ ≤ utilOf procTime period at hshare
    linarith
  · refine (hcases fun a task ↦ Stage base b.time task (b.left a)
      (Function.update p.due b.sched.fresh p.now a)).mpr ⟨fun a ha ↦ ?_, ?_⟩
    · rw [Function.update_of_ne (hledger.tl_fresh a ha).ne]
      exact hsim.represents.stage a ha
    · rw [Function.update_self]
      exact .unreleased rfl rfl rfl hleft hsim.represents.now.le

/-- A registration of a task joins it, or is turned down. -/
theorem register (hbase : base.Sound) (hsim : Simulated base time b p)
    (hfits : b.sched.listed pid = true ∨
      (found ≠ none ∧ Measurable base period procTime ∧ b.Fits period procTime)) :
    ∃ code s, taskRegister pid period procTime found b.sched = ⟨.returned code, s⟩ ∧
      ∃ q, Simulated base time { b with result := ⟨.returned code, s⟩ } q := by
  rcases taskRegister_cases pid period procTime found b.sched with
    ⟨-, hresult⟩ | ⟨hpid, hzero, -⟩ | ⟨-, -, -, hresult⟩ | ⟨hpid, hperiod, hroom, hresult⟩
  · exact ⟨_, _, hresult, p, hsim.lock _ true⟩
  · rcases hfits with hlisted | ⟨-, hmeasurable, -⟩
    · rw [hpid] at hlisted
      cases hlisted
    · exact absurd hzero hmeasurable.1
  · exact ⟨_, _, hresult, p, hsim.lock _ false⟩
  · obtain ⟨hfound, hmeasurable, hbound⟩ := hfits.resolve_left (by rw [hpid]; simp)
    have hunjoined : b.sched.fresh ∉ p.tasks.members := fun hmem ↦
      lt_irrefl _ (hsim.represents.fresh _ hmem)
    have hnew : Measurable base (newTask pid period procTime found).period
        (newTask pid period procTime found).procTime := hmeasurable
    have hpos : 0 < base.jiffiesOf (newTask pid period procTime found) * base.resolution :=
      Nat.mul_pos (Timebase.jiffiesOf_pos hbase hnew) hbase.resolution_pos
    have hnext : p.next (.join b.sched.fresh
        (base.jiffiesOf (newTask pid period procTime found) * base.resolution)
        (base.budget (newTask pid period procTime found))) =
          some (p.joined b.sched.fresh _ (base.budget (newTask pid period procTime found)) hpos) :=
      dif_pos ⟨hunjoined, hpos⟩
    exact ⟨_, _, hresult, _,
      kept_registered hsim.kept hpid hperiod hroom hfound hmeasurable hbound,
      represents_registered hbase hsim hmeasurable hunjoined hpos,
      hsim.reachable.step trivial hnext⟩

end Registered

/-- The board after the removal of a listed task. -/
def removedBoard (b : Board) (t : Addr) : Board :=
  { b with
    result := ⟨.returned 0, ((b.sched.lockTl.releaseCt t).removeTask t).unlockTl⟩
    left := Function.update b.left t 0
    retired := b.retired + utilOf (b.sched.slab t).procTime (b.sched.slab t).period }

/-- A removal moves the utilisation of the task to the removed ones. -/
theorem exactUtil_removed {t : Addr} (ht : t ∈ b.sched.tl) :
    (removedBoard b t).sched.exactUtil + (removedBoard b t).retired =
      b.sched.exactUtil + b.retired := by
  have hsame : SameTasks b.sched (b.sched.lockTl.releaseCt t) :=
    (sameTasks_lockTl _).trans (sameTasks_releaseCt _ t)
  have hsum := exactUtil_removeTask (hsame.tl.symm ▸ ht)
  rw [hsame.exactUtil, hsame.procTime, hsame.period] at hsum
  change ((b.sched.lockTl.releaseCt t).removeTask t).exactUtil + (b.retired +
    utilOf (b.sched.slab t).procTime (b.sched.slab t).period) = b.sched.exactUtil + b.retired
  linarith

/-- A removal keeps what holds of a board. -/
theorem kept_removed (hkept : Kept base b) {t : Addr} (ht : t ∈ b.sched.tl) :
    Kept base (removedBoard b t) := by
  obtain ⟨ledger, hledger⟩ := hkept.orderly.ledger
  refine ⟨hkept.orderly.removed ht, ?_, ?_, hkept.early, ?_⟩
  · exact Orderly.forall_removed hledger.tl_nodup
      (fun _ task ↦ Measurable base task.period task.procTime) fun a ha _ ↦ hkept.measurable a ha
  · exact (exactUtil_removed ht).trans_le hkept.bounded
  · intro a ha
    change Function.update b.left t 0 a = 0
    by_cases hat : a = t
    · rw [hat, Function.update_self]
    · rw [Function.update_of_ne hat]
      refine hkept.idle a fun hlisted ↦ ha ?_
      change a ∈ ((b.sched.lockTl.releaseCt t).removeTask t).tl
      rw [removeTask_tl, releaseCt_tl]
      exact (List.mem_erase_of_ne hat).mpr hlisted

/-- A processor on which the job of the task is finished represents the board after its removal. -/
theorem represents_removed (hsim : Simulated base time b p) {t : Addr} (ht : t ∈ b.sched.tl) :
    Represents base (removedBoard b t) (p.finished t) := by
  obtain ⟨ledger, hledger⟩ := hsim.kept.orderly.ledger
  have hcases := @Orderly.forall_removed b.sched hledger.tl_nodup t
  refine ⟨hsim.represents.now, ?_, ?_, ?_, ?_, ?_, ?_, ?_⟩
  · change Function.update p.left t 0 = Function.update b.left t 0
    rw [hsim.represents.left]
  · exact hcases (fun a _ ↦ a ∈ p.tasks.members) fun a ha _ ↦ hsim.represents.members a ha
  · intro a ha
    refine (hsim.represents.fresh a ha).trans_eq ?_
    change _ = ((b.sched.lockTl.releaseCt t).removeTask t).fresh
    rw [removeTask_fresh, releaseCt_fresh, lockTl_fresh]
  · exact hcases (fun a task ↦ p.tasks.period a = base.jiffiesOf task * base.resolution)
      fun a ha _ ↦ hsim.represents.period a ha
  · exact hcases (fun a task ↦ p.tasks.cost a = base.budget task)
      fun a ha _ ↦ hsim.represents.cost a ha
  · exact hsim.represents.utilisation.trans_eq (exactUtil_removed ht).symm
  · refine hcases (fun a task ↦ Stage base b.time task (Function.update b.left t 0 a) (p.due a))
      fun a ha hne ↦ ?_
    rw [Function.update_of_ne hne]
    exact hsim.represents.stage a ha

/-- A removal finishes the job of the task, or finds none. -/
theorem deregister (hsim : Simulated base time b p) (pid : UInt32) :
    ∃ code s, taskDeregister pid b.sched = ⟨.returned code, s⟩ ∧
      ∃ q, Simulated base time
        { b with
          result := ⟨.returned code, s⟩
          left := jobOver b.left (b.sched.deregLookup pid)
          retired := b.retired + utilOfRemoved b.sched (b.sched.deregLookup pid) } q := by
  rcases taskDeregister_cases pid b.sched with
    ⟨hnone, hresult⟩ | ⟨t, hfound, ⟨hzero, -⟩ | ⟨-, hresult⟩⟩
  · refine ⟨_, _, hresult, p, ?_⟩
    rw [hnone]
    simp only [jobOver, utilOfRemoved, add_zero]
    exact hsim.lock _ false
  · obtain ⟨ledger, hledger⟩ := hsim.kept.orderly.ledger
    exact absurd hzero (hledger.period_ne_zero t (mem_of_deregLookup hfound).1)
  · have ht := (mem_of_deregLookup hfound).1
    have hnext : p.next (.finish t) = some (p.finished t) := rfl
    refine ⟨_, _, hresult, p.finished t, ?_⟩
    rw [hfound]
    exact ⟨kept_removed hsim.kept ht, represents_removed hsim ht,
      hsim.reachable.step trivial hnext⟩

/-! ### Runs -/

/-- A step that keeps to `RealTime` is simulated, and does not fault. -/
theorem step (hbase : base.Sound) (hsim : Simulated base time b p) {event : Board.Event}
    {later : Board} (hcondition : RealTime base b event) (hnext : b.next base event = some later)
    (hreturned : ∃ code, b.result.outcome = .returned code) :
    (∃ q, Simulated base time later q) ∧ ∃ code, later.result.outcome = .returned code := by
  cases event with
  | register pid period procTime found =>
    obtain ⟨code, s, hresult, hq⟩ := hsim.register hbase hcondition
    simp only [Board.next, Option.some.injEq] at hnext
    rw [← hnext, hresult]
    exact ⟨hq, code, rfl⟩
  | yeild pid =>
    obtain ⟨t, hfound, hmay⟩ := hcondition
    have hpid := (mem_of_yeildLookup hfound).2
    have hlookup : b.sched.yeildLookup pid = some t := hfound
    simp only [Board.next, Option.some.injEq, hlookup, jobOver] at hnext
    rw [← hnext, ← hpid]
    refine ⟨hsim.yeild hbase hmay, 0, ?_⟩
    rw [hsim.taskYeild_of_mayYeild hbase hmay]
  | deregister pid =>
    obtain ⟨code, s, hresult, hq⟩ := hsim.deregister pid
    simp only [Board.next, Option.some.injEq] at hnext
    rw [← hnext, hresult]
    exact ⟨hq, code, rfl⟩
  | expire a =>
    simp only [Board.next, Option.ite_none_right_eq_some, Option.some.injEq] at hnext
    obtain ⟨hexpired, hlater⟩ := hnext
    rw [← hlater]
    exact ⟨hsim.expire hbase hexpired, 0, rfl⟩
  | dispatch =>
    simp only [Board.next, Option.ite_none_right_eq_some, Option.some.injEq] at hnext
    obtain ⟨s, hresult, hq⟩ := hsim.dispatch
    rw [← hnext.2, hresult]
    exact ⟨⟨p, hq⟩, 0, rfl⟩
  | tick =>
    simp only [Board.next, Option.ite_none_right_eq_some, Option.some.injEq] at hnext
    rw [← hnext.2]
    exact ⟨hsim.tick hbase hnext.1 hcondition.1 hcondition.2, hreturned⟩

/-- The start is simulated by the processor before any task has joined. -/
theorem start (slab : Addr → Mp2TaskStruct) (hearly : base.Early time) :
    Simulated base time (Board.start slab time) (Processor.start time) where
  kept :=
    { orderly :=
        { ledger := ⟨_, refines_mp2Init slab⟩
          alive := fun _ ha ↦ absurd ha List.not_mem_nil
          data := fun _ ha ↦ absurd ha List.not_mem_nil
          runner := fun _ ha ↦ absurd ha List.not_mem_nil
          current := by rintro cur ⟨⟩
          idle := fun _ _ _ ha ↦ absurd ha List.not_mem_nil
          foremost := fun _ _ _ _ ha ↦ absurd ha List.not_mem_nil }
      measurable := fun _ ha ↦ absurd ha List.not_mem_nil
      bounded := by norm_num [Board.start, Board.sched, startOp, mp2Init, exactUtil, utilBound]
      early := hearly
      idle := fun _ _ ↦ rfl }
  represents :=
    { now := rfl
      left := rfl
      members := fun _ ha ↦ absurd ha List.not_mem_nil
      fresh := fun _ ha ↦ absurd ha (Finset.notMem_empty _)
      period := fun _ ha ↦ absurd ha List.not_mem_nil
      cost := fun _ ha ↦ absurd ha List.not_mem_nil
      utilisation := by
        simp [Board.start, Board.sched, startOp, mp2Init, exactUtil, Processor.start,
          TaskSet.utilisation]
      stage := fun _ ha ↦ absurd ha List.not_mem_nil }
  reachable := .refl

/-- Every board that a run reaches is simulated, and no operation has faulted. -/
theorem of_reachable (hbase : base.Sound) {slab : Addr → Mp2TaskStruct} (hearly : base.Early time)
    (hreach : ReachableUnder (Board.next base) (RealTime base) (Board.start slab time) b) :
    (∃ p, Simulated base time b p) ∧ ∃ code, b.result.outcome = .returned code := by
  refine hreach.invariant (fun b ↦ (∃ p, Simulated base time b p) ∧
    ∃ code, b.result.outcome = .returned code) ⟨⟨_, start slab hearly⟩, 0, rfl⟩ ?_
  rintro before event later ⟨⟨p, hsim⟩, hreturned⟩ hcondition hnext
  exact hsim.step hbase hcondition hnext hreturned

end Simulated

/-- The processor goes where the board goes with the next tick: to the current task, which may be
served, or to no task, when no task has a job. -/
def TicksWith (base : Timebase) (b : Board) (p : Processor Addr) : Prop :=
  b.Settled base →
    (∀ cur, b.sched.ct = some cur → p.Foremost cur) ∧
      (b.sched.ct = none → ∀ j ∈ p.tasks.members, p.left j = 0)

/-- No deadline is missed: a yield of a task that may yield returns 0, a job that has not yielded is
within its period, and no operation has faulted. -/
structure DeadlinesKept (base : Timebase) (b : Board) : Prop where
  yields : ∀ t, b.MayYeild t →
    (taskYeild base.platform (b.sched.slab t).pid (base.now b.time) b.sched).outcome = .returned 0
  within : ∀ t ∈ b.sched.tl, (b.sched.slab t).state ≠ .sleeping →
    b.time < ((b.sched.slab t).nextDdl.toNat + base.jiffiesOf (b.sched.slab t)) * base.resolution
  returned : ∃ code, b.result.outcome = .returned code

section Example

instance (b : Board) (period procTime : UInt64) : Decidable (b.Fits period procTime) :=
  inferInstanceAs (Decidable (_ → _))

instance (base : Timebase) (period procTime : UInt64) :
    Decidable (Measurable base period procTime) :=
  inferInstanceAs (Decidable (_ ∧ _ ∧ _ ∧ _))

instance (b : Board) (t : Addr) : Decidable (b.MayYeild t) :=
  inferInstanceAs (Decidable (_ ∨ _ ∧ _ ∧ _))

instance (b : Board) : Decidable b.WithinBudget :=
  inferInstanceAs (Decidable (∀ cur ∈ b.sched.ct, 2 ≤ b.left cur))

instance (base : Timebase) (time : ℕ) : Decidable (base.Early time) :=
  inferInstanceAs (Decidable (_ < _))

instance (base : Timebase) (b : Board) : ∀ event, Decidable (RealTime base b event)
  | .register pid period procTime found => inferInstanceAs (Decidable (b.sched.listed pid = true ∨
      (found ≠ none ∧ Measurable base period procTime ∧ b.Fits period procTime)))
  | .yeild pid => inferInstanceAs (Decidable (∃ t ∈ b.sched.yeildLookup pid, b.MayYeild t))
  | .deregister _ => isTrue trivial
  | .expire _ => isTrue trivial
  | .dispatch => isTrue trivial
  | .tick => inferInstanceAs (Decidable (b.WithinBudget ∧ base.Early (b.time + 1)))

/-- A kernel with `HZ` 1000, and two ticks to a jiffy. -/
def halfJiffies : Timebase := ⟨platformHz1000, 1000, 2⟩

/-- The conditions on the kernel hold of it. -/
theorem halfJiffies_sound : halfJiffies.Sound :=
  ⟨platformHz1000_converts, by decide, by decide, by decide⟩

/-- Two tasks that are released together at 20 ms. The shorter period runs first. -/
def twoTasks : List Board.Event := List.flatten
  [[.register 1 20 3 (some 1), .register 2 10 2 (some 2)],
    [.yeild 1, .dispatch, .yeild 2, .dispatch], List.replicate 20 .tick,
    [.expire 1, .dispatch, .tick, .tick, .yeild 2, .dispatch], List.replicate 18 .tick,
    [.expire 0, .dispatch, .expire 1, .dispatch, .tick, .tick]]

/-- The run keeps to `RealTime`, and ends with the task of the shorter period. -/
theorem reachable_twoTasks :
    ∃ b, ReachableUnder (Board.next halfJiffies) (RealTime halfJiffies) (Board.start zeroSlab 0) b ∧
      b.time = 42 ∧ b.sched.ct = some 1 :=
  exists_reachableUnder_of_run twoTasks (by decide +kernel) (by decide +kernel)

end Example

/-! ### The admission test alone -/

/-- The tasks of a processor are the registered ones: each has its period, and at most its
`proc_time`, in a unit of time of which a millisecond has `scale`. -/
structure RunsRegistered (s : Scheduler) (scale : ℕ) (p : Processor Addr) : Prop where
  members : p.tasks.members = s.tl.toFinset
  period : ∀ a ∈ s.tl, p.tasks.period a = scale * (s.slab a).period.toNat
  cost : ∀ a ∈ s.tl, p.tasks.cost a ≤ scale * (s.slab a).procTime.toNat

/-- The registered tasks use at most the exact utilisation. -/
theorem RunsRegistered.utilisation_le {s : Scheduler} {scale : ℕ} {p : Processor Addr}
    (hscale : 0 < scale) (hnodup : s.tl.Nodup) (hp : RunsRegistered s scale p) :
    p.tasks.utilisation ≤ s.exactUtil := by
  have hscale' : (scale : ℚ) ≠ 0 := by exact_mod_cast hscale.ne'
  unfold TaskSet.utilisation Scheduler.exactUtil
  rw [hp.members, List.sum_toFinset _ hnodup]
  refine List.sum_le_sum fun a ha ↦ ?_
  have hcost : (p.tasks.cost a : ℚ) ≤ scale * (s.slab a).procTime.toNat := by
    exact_mod_cast hp.cost a ha
  unfold TaskSet.share utilOf
  rw [hp.period a ha]
  push_cast
  calc (p.tasks.cost a : ℚ) / (scale * (s.slab a).period.toNat)
      ≤ scale * (s.slab a).procTime.toNat / (scale * (s.slab a).period.toNat) := by gcongr
    _ = (s.slab a).procTime.toNat / (s.slab a).period.toNat := mul_div_mul_left _ _ hscale'

/-- What the admission test is for: after any operations in which every registration of a pid that
is not listed has a nonzero period and a `proc_time` below `2^44`, and comes while fewer than 106
tasks are listed, the registered tasks can be scheduled. On a processor that always serves the
shortest period, in no run with them a job is late, whenever the jobs are released. -/
theorem registered_not_late {platform : Platform} {slab : Addr → Mp2TaskStruct} {r : Result}
    (hreach : ReachableUnder (nextOp platform) (fun r op ↦ RequestFits r.state op) (startOp slab)
      r) {scale time : ℕ} (hscale : 0 < scale) {p : Processor Addr}
    (hp : RunsRegistered r.state scale p)
    (hrun : Reachable Processor.next (Processor.start time) p) : ¬ p.Late := by
  have hr := Admitted.of_reachable hreach
  obtain ⟨ledger, hledger⟩ := hr.ledger
  exact Processor.not_late_of_reachable hrun fun _ hlevel ↦ TaskSet.feasible_of_utilisation_le
    ((hp.utilisation_le hscale hledger.tl_nodup).trans hr.sound.2) hlevel

instance (s : Scheduler) (scale : ℕ) (p : Processor Addr) : Decidable (RunsRegistered s scale p) :=
  decidable_of_iff
    (p.tasks.members = s.tl.toFinset ∧
      (∀ a ∈ s.tl, p.tasks.period a = scale * (s.slab a).period.toNat) ∧
        ∀ a ∈ s.tl, p.tasks.cost a ≤ scale * (s.slab a).procTime.toNat)
    ⟨fun ⟨hmembers, hperiod, hcost⟩ ↦ ⟨hmembers, hperiod, hcost⟩,
      fun hp ↦ ⟨hp.members, hp.period, hp.cost⟩⟩

/-- Two registered tasks that are released together: when the task with the shorter period has
finished and the other has run for a millisecond, none is late. -/
theorem registered_not_late_twoTasks :
    ∃ p : Processor Addr, p.now = 3 ∧ p.left 0 = 2 ∧ ¬ p.Late := by
  have hreach : ReachableUnder (nextOp platformHz1000) (fun r op ↦ RequestFits r.state op)
      (startOp zeroSlab) (execAll platformHz1000 (startOp zeroSlab)
        [.register 1 20 3 (some 1), .register 2 10 2 (some 2)]) :=
    Meets.reachableUnder .refl (by decide +kernel) (run_nextOp platformHz1000 (startOp zeroSlab) _)
  have hrun : ∃ p : Processor Addr, Reachable Processor.next (Processor.start 0) p ∧
      RunsRegistered (execAll platformHz1000 (startOp zeroSlab)
        [.register 1 20 3 (some 1), .register 2 10 2 (some 2)]).state 1 p ∧
      p.now = 3 ∧ p.left 0 = 2 :=
    exists_reachableUnder_of_run [.join 0 20 3, .join 1 10 2, .release 0, .release 1, .serve 1,
      .serve 1, .serve 0] (by decide +kernel) (by decide +kernel)
  obtain ⟨p, hp, hregistered, hnow, hleft⟩ := hrun
  exact ⟨p, hnow, hleft, registered_not_late hreach Nat.one_pos hregistered hp⟩

end KernelModules.RateMonotonic
