import KernelModules.Foundation.FixedPriority
import KernelModules.RateMonotonic.AdmissionBound
import KernelModules.RateMonotonic.EnforcedPeriods
import KernelModules.RateMonotonic.Interleaving
import KernelModules.RateMonotonic.RateMonotonicChoice
import KernelModules.RateMonotonic.SingleRunner

/-!
# Whole operations on a processor in time

Runs of whole operations beside a clock that counts ticks, any number of them to a jiffy. The
operations are those of the module; between them a tick passes, with the process of `ct` or with no
process of the module when `ct` is NULL. A tick waits for a timer that has expired and for a
dispatching thread that has been woken (`Board.Settled`).

Beside the scheduler the board keeps what the current job of each task may still run: from its
release on it is the `proc_time` of the task in ticks (`budget`), and each tick takes one from that
of the running process.

`RealTime` is what a run has to keep to for its deadlines: registrations that fit and have a
process, yields of the running process or first yields while no process runs, and jobs that yield
within their budget, before the counter has made half a turn.
-/

set_option autoImplicit false
set_option relaxedAutoImplicit false

namespace KernelModules.RateMonotonic

open Foundation Scheduler

/-! ### The board -/

/-- What the last operation ended with and the state it left, the time in ticks, what the current
job of each task may still run, and the utilisation of the tasks that have been removed. -/
structure Board where
  result : Result
  time : ℕ
  left : Addr → ℕ
  retired : ℚ

/-- The kernel the module runs on, its jiffies in a second, and the ticks in a jiffy. -/
structure Timebase where
  platform : Platform
  hz : ℕ
  resolution : ℕ

/-- `jiffies` at a time in ticks. -/
def Timebase.now (base : Timebase) (time : ℕ) : UInt64 :=
  base.platform.jiffies (time / base.resolution)

/-- The `proc_time` of a task in ticks, the last of which may be cut short. -/
def Timebase.budget (base : Timebase) (task : Mp2TaskStruct) : ℕ :=
  task.procTime.toNat * (base.hz * base.resolution) / 1000

/-- The period of a task in jiffies. -/
def Timebase.jiffiesOf (base : Timebase) (task : Mp2TaskStruct) : ℕ :=
  (task.periodJiffies base.platform).toNat

/-- The counter has not made half a turn. -/
def Timebase.Early (base : Timebase) (time : ℕ) : Prop :=
  time / base.resolution < 2 ^ (base.platform.longBits - 1)

namespace Board

/-- What can happen on the board. -/
inductive Event
  | register (pid : UInt32) (period procTime : UInt64) (found : Option LinuxTask)
  | yeild (pid : UInt32)
  | deregister (pid : UInt32)
  | expire (task : Addr)
  | dispatch
  | tick

/-- The scheduler of the board. -/
abbrev sched (b : Board) : Scheduler := b.result.state

/-- The timer of a listed task has expired. -/
def Expired (base : Timebase) (b : Board) (a : Addr) : Prop :=
  a ∈ b.sched.tl ∧ ∃ expires ∈ (b.sched.slab a).timer.expires,
    base.platform.timeAfterEq (base.now b.time) expires = true

instance (base : Timebase) (b : Board) (a : Addr) : Decidable (b.Expired base a) :=
  inferInstanceAs (Decidable (_ ∧ _))

/-- No timer has expired, and the dispatching thread sleeps. -/
def Settled (base : Timebase) (b : Board) : Prop :=
  (∀ a ∈ b.sched.tl, ¬ b.Expired base a) ∧ b.sched.dispaching = .interruptible

instance (base : Timebase) (b : Board) : Decidable (b.Settled base) :=
  inferInstanceAs (Decidable (_ ∧ _))

/-- What the jobs may still run after one is over, or none. -/
def jobOver (left : Addr → ℕ) (task : Option Addr) : Addr → ℕ :=
  match task with
  | some t => Function.update left t 0
  | none => left

/-- The utilisation of a task that is removed, or none. -/
def utilOfRemoved (s : Scheduler) (task : Option Addr) : ℚ :=
  match task with
  | some t => utilOf (s.slab t).procTime (s.slab t).period
  | none => 0

/-- What the jobs may still run after a tick of the current task. -/
def ticked (left : Addr → ℕ) (ct : Option Addr) : Addr → ℕ :=
  match ct with
  | some cur => Function.update left cur (left cur - 1)
  | none => left

/-- The step of the board. -/
def next (base : Timebase) (b : Board) : Event → Option Board
  | .register pid period procTime found =>
    some { b with result := taskRegister pid period procTime found b.sched }
  | .yeild pid =>
    some
      { b with
        result := taskYeild base.platform pid (base.now b.time) b.sched
        left := jobOver b.left (b.sched.yeildLookup pid) }
  | .deregister pid =>
    some
      { b with
        result := taskDeregister pid b.sched
        left := jobOver b.left (b.sched.deregLookup pid)
        retired := b.retired + utilOfRemoved b.sched (b.sched.deregLookup pid) }
  | .expire a =>
    if b.Expired base a then
      some
        { b with
          result := ⟨.returned 0, (b.sched.fire a).wakeDispaching⟩
          left := Function.update b.left a (base.budget (b.sched.slab a)) }
    else none
  | .dispatch =>
    if b.sched.dispaching = .running then
      some { b with result := dispachingIteration b.sched }
    else none
  | .tick =>
    if b.Settled base then
      some { b with time := b.time + 1, left := ticked b.left b.sched.ct }
    else none

/-- The board after `mp2_init`, at any time. -/
def start (slab : Addr → Mp2TaskStruct) (time : ℕ) : Board where
  result := startOp slab
  time := time
  left := fun _ ↦ 0
  retired := 0

/-! ### What a run has to keep to -/

/-- A registration that passes leaves the exact utilisation bounded, with that of the removed
tasks: what the shares leave out and what the removed tasks used fits in what the new total leaves
below the bound. -/
def Fits (b : Board) (period procTime : UInt64) : Prop :=
  b.sched.admits period procTime = true →
    b.sched.dropped + droppedUtil procTime period + b.retired ≤
      utilBound - (b.sched.totalUtil.toNat + (share procTime period).toNat : ℕ) / 2 ^ 20

/-- A period that `msecs_to_jiffies` converts exactly, and a `proc_time` of at least a tick. -/
def Measurable (base : Timebase) (period procTime : UInt64) : Prop :=
  period ≠ 0 ∧ period.toNat < 2 ^ 31 ∧
    ceilJiffies base.hz period.toNat ≤ base.platform.maxJiffyOffset ∧
      1000 ≤ procTime.toNat * (base.hz * base.resolution)

/-- A task may yield: it is the current one, or there is none and it yields for the first time. -/
def MayYeild (b : Board) (t : Addr) : Prop :=
  b.sched.ct = some t ∨ b.sched.ct = none ∧ t ∈ b.sched.tl ∧ (b.sched.slab t).nextDdl = 0

/-- The job of the current task has more than a tick left. -/
def WithinBudget (b : Board) : Prop := ∀ cur ∈ b.sched.ct, 2 ≤ b.left cur

/-- What a step of a run has to keep to. -/
def RealTime (base : Timebase) (b : Board) : Event → Prop
  | .register pid period procTime found => b.sched.listed pid = true ∨
      (found ≠ none ∧ Measurable base period procTime ∧ b.Fits period procTime)
  | .yeild pid => ∃ t ∈ b.sched.yeildLookup pid, b.MayYeild t
  | .tick => b.WithinBudget ∧ base.Early (b.time + 1)
  | _ => True

end Board

/-! ### Ticks and jiffies -/

/-- What the kernel keeps to: `msecs_to_jiffies` converts, a jiffy has a tick, and an
`unsigned long` has at most 64 bits. -/
structure Timebase.Sound (base : Timebase) : Prop where
  converts : base.platform.Converts base.hz
  hz_pos : 0 < base.hz
  resolution_pos : 0 < base.resolution
  bits_le : base.platform.longBits ≤ 64

section Ticks

variable {base : Timebase} (hbase : base.Sound) {task other : Mp2TaskStruct}
  (htask : Board.Measurable base task.period task.procTime)
  (hother : Board.Measurable base other.period other.procTime)

include hbase htask

/-- The period of a task in jiffies, rounded up. -/
theorem Timebase.jiffiesOf_eq :
    base.jiffiesOf task = ceilJiffies base.hz task.period.toNat := by
  obtain ⟨-, hsmall, -⟩ := htask
  have hlow : task.period.toUInt32.toNat = task.period.toNat := by
    rw [UInt64.toNat_toUInt32]
    exact Nat.mod_eq_of_lt (by omega)
  unfold Timebase.jiffiesOf Mp2TaskStruct.periodJiffies
  rw [hbase.converts.rounds _ (by omega), hlow]

/-- A period has at least a jiffy. -/
theorem Timebase.jiffiesOf_pos : 0 < base.jiffiesOf task := by
  rw [Timebase.jiffiesOf_eq hbase htask]
  have hperiod : 0 < task.period.toNat := by
    refine Nat.pos_of_ne_zero fun hzero ↦ htask.1 ?_
    rw [← UInt64.toNat_inj, hzero]
    rfl
  have hproduct := Nat.mul_pos hperiod hbase.hz_pos
  unfold ceilJiffies
  omega

/-- A period is at most a quarter turn of the counter. -/
theorem Timebase.four_mul_jiffiesOf_le :
    4 * base.jiffiesOf task ≤ 2 ^ base.platform.longBits ∧
      2 * 2 ^ (base.platform.longBits - 1) = 2 ^ base.platform.longBits := by
  have hpos := Timebase.jiffiesOf_pos hbase htask
  have hoffset := htask.2.2.1
  rw [← Timebase.jiffiesOf_eq hbase htask, Platform.maxJiffyOffset] at hoffset
  have hwide : 2 ≤ base.platform.longBits := by
    by_contra hnarrow
    have hzero : base.platform.longBits - 2 = 0 := by omega
    rw [hzero] at hoffset
    omega
  have hquarter : 2 ^ base.platform.longBits = 4 * 2 ^ (base.platform.longBits - 2) := by
    rw [show (4 : ℕ) = 2 ^ 2 from rfl, ← pow_add, Nat.add_sub_cancel' hwide]
  have hhalf : 2 ^ base.platform.longBits = 2 * 2 ^ (base.platform.longBits - 1) := by
    rw [← pow_succ', Nat.sub_add_cancel (by omega)]
  omega

omit hbase in
/-- A job may run for at least a tick. -/
theorem Timebase.budget_pos : 0 < base.budget task :=
  Nat.div_pos htask.2.2.2 (by norm_num)

include hother in
/-- A shorter period has fewer jiffies. -/
theorem Timebase.jiffiesOf_mono (hle : task.period ≤ other.period) :
    base.jiffiesOf task ≤ base.jiffiesOf other := by
  rw [Timebase.jiffiesOf_eq hbase htask, Timebase.jiffiesOf_eq hbase hother]
  exact Nat.div_le_div_right (Nat.add_le_add_right
    (Nat.mul_le_mul_right _ (UInt64.le_iff_toNat_le.mp hle)) _)

/-- The share of the budget in the period in ticks is at most the utilisation. -/
theorem Timebase.share_le :
    (base.budget task : ℚ) / (base.jiffiesOf task * base.resolution : ℕ) ≤
      utilOf task.procTime task.period := by
  have hbudget : base.budget task * 1000 ≤ task.procTime.toNat * (base.hz * base.resolution) :=
    Nat.div_mul_le_self _ _
  have hjiffies : task.period.toNat * base.hz ≤ base.jiffiesOf task * 1000 := by
    rw [Timebase.jiffiesOf_eq hbase htask]
    unfold ceilJiffies
    omega
  have hticks : 0 < base.jiffiesOf task * base.resolution :=
    Nat.mul_pos (Timebase.jiffiesOf_pos hbase htask) hbase.resolution_pos
  have hperiod : 0 < task.period.toNat := by
    refine Nat.pos_of_ne_zero fun hzero ↦ htask.1 ?_
    rw [← UInt64.toNat_inj, hzero]
    rfl
  have hcross : base.budget task * task.period.toNat ≤
      task.procTime.toNat * (base.jiffiesOf task * base.resolution) := by
    have hscale : 0 < 1000 * base.hz := Nat.mul_pos (by norm_num) hbase.hz_pos
    refine Nat.le_of_mul_le_mul_left ?_ hscale
    calc 1000 * base.hz * (base.budget task * task.period.toNat)
        = base.budget task * 1000 * (task.period.toNat * base.hz) := by ring
      _ ≤ task.procTime.toNat * (base.hz * base.resolution) * (base.jiffiesOf task * 1000) :=
        Nat.mul_le_mul hbudget hjiffies
      _ = 1000 * base.hz * (task.procTime.toNat * (base.jiffiesOf task * base.resolution)) := by
        ring
  unfold utilOf
  rw [div_le_div_iff₀ (by exact_mod_cast hticks) (by exact_mod_cast hperiod)]
  exact_mod_cast hcross

end Ticks

/-- Before half a turn, `jiffies` is the time in whole jiffies. -/
theorem Timebase.toNat_now {base : Timebase} (hbase : base.Sound) {time : ℕ}
    (hearly : base.Early time) : (base.now time).toNat = time / base.resolution := by
  have hhalf : 2 ^ (base.platform.longBits - 1) ≤ 2 ^ base.platform.longBits :=
    Nat.pow_le_pow_right (by norm_num) (Nat.sub_le _ _)
  rw [Timebase.now, base.platform.toNat_jiffies hbase.bits_le]
  exact Nat.mod_eq_of_lt (hearly.trans_le hhalf)

/-- `time_after_eq` compares times that are less than half a turn apart. -/
theorem Platform.timeAfterEq_iff {platform : Platform} (hbits : platform.longBits ≤ 64)
    {now expires : UInt64}
    (hnow : now.toNat < expires.toNat + 2 ^ (platform.longBits - 1))
    (hexpires : expires.toNat + 2 ^ (platform.longBits - 1) ≤
      now.toNat + 2 ^ platform.longBits) :
    platform.timeAfterEq now expires = true ↔ expires.toNat ≤ now.toNat := by
  have hturn : 2 ^ platform.longBits ∣ 2 ^ 64 := pow_dvd_pow 2 hbits
  have hpos : 0 < 2 ^ platform.longBits := Nat.two_pow_pos _
  have hhalf : 0 < 2 ^ (platform.longBits - 1) := Nat.two_pow_pos _
  have hlt := now.toNat_lt
  have hlt' := expires.toNat_lt
  have hulong : (platform.ulong (now - expires)).toNat =
      (2 ^ 64 - expires.toNat + now.toNat) % 2 ^ platform.longBits := by
    have hsmall : (now - expires).toNat % 2 ^ platform.longBits < 2 ^ 64 :=
      (Nat.mod_lt _ hpos).trans_le (Nat.pow_le_pow_right (by norm_num) hbits)
    rw [Platform.ulong, UInt64.toNat_ofNat_of_lt' hsmall, UInt64.toNat_sub,
      Nat.mod_mod_of_dvd _ hturn]
  rw [Platform.timeAfterEq, decide_eq_true_iff, hulong]
  obtain ⟨turns, hturns⟩ := hturn
  rcases Nat.lt_or_ge now.toNat expires.toNat with hbefore | hafter
  · refine iff_of_false ?_ (not_le.mpr hbefore)
    have hone : 0 < turns := by
      refine Nat.pos_of_ne_zero fun hzero ↦ ?_
      rw [hzero, mul_zero] at hturns
      norm_num at hturns
    have hsplit : 2 ^ 64 - expires.toNat + now.toNat =
        2 ^ platform.longBits - (expires.toNat - now.toNat) +
          2 ^ platform.longBits * (turns - 1) := by
      have hfront : 2 ^ platform.longBits * turns =
          2 ^ platform.longBits * (turns - 1) + 2 ^ platform.longBits := by
        rw [← Nat.mul_succ, Nat.succ_eq_add_one, Nat.sub_add_cancel hone]
      omega
    rw [hsplit, Nat.add_mul_mod_self_left, Nat.mod_eq_of_lt (by omega)]
    omega
  · refine iff_of_true ?_ hafter
    have hsplit : 2 ^ 64 - expires.toNat + now.toNat =
        now.toNat - expires.toNat + 2 ^ platform.longBits * turns := by omega
    have hsmall : now.toNat - expires.toNat < 2 ^ platform.longBits := by
      have hhalf : 2 ^ (platform.longBits - 1) ≤ 2 ^ platform.longBits :=
        Nat.pow_le_pow_right (by norm_num) (Nat.sub_le _ _)
      omega
    rw [hsplit, Nat.add_mul_mod_self_left, Nat.mod_eq_of_lt hsmall]
    omega

end KernelModules.RateMonotonic
