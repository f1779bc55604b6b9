import KernelModules.FaultProfiler.TaskSampling
import KernelModules.Foundation.TransitionSystem
import Mathlib

/-!
# The conservation of faults and processor time

What a sample takes from the counters of a process it reports in one row of the buffer, read back
after each push (`Kernel.rows`). Here the whole functions
of `MP3/profiler.c` run one at a time, in any order, while the processes count on between them,
start and end; pids are not reused. Beside the state of the module stands what each process has
gained: the counters it started with and every increment since.

A `Counter` is one of the quantities: how to read it from a process and from the columns of a row,
with the weight it has there. Its laws say that the two readings of a sample agree while the numbers
are small. A traversal of `wq_handler` moves the count of a process to a row in one step, so that
every step, and with it every loop and every run, keeps the balance of all counters at once
(`Balanced`, `Kernel.AllBalanced`).
-/

set_option autoImplicit false
set_option relaxedAutoImplicit false

namespace KernelModules.FaultProfiler

open Foundation

/-! ### Words and numbers -/

/-- The cast to `long` keeps a number that is small enough. -/
theorem toInt_toInt64_of_lt {word : UInt64} (hword : word.toNat < 2 ^ 63) :
    word.toInt64.toInt = word.toNat := by
  have hofNat : word.toInt64 = Int64.ofNat word.toNat := by
    rw [← UInt64.toInt64_ofNat', UInt64.ofNat_toNat]
  rw [hofNat, Int64.toInt_ofNat_of_lt hword]

/-- The word in the column `UTIL` is 5 times the argument, when the product does not wrap. -/
theorem toInt_util_of_lt {word : UInt64} (hword : word.toNat * 100 < 2 ^ 63) :
    (word.toInt64 * 100 / 20).toInt = 5 * word.toNat := by
  have hmul : (word.toInt64 * 100).toInt = (word.toNat : ℤ) * 100 := by
    rw [Int64.toInt_mul, toInt_toInt64_of_lt (by omega)]
    have hhundred : (100 : Int64).toInt = 100 := by decide
    rw [hhundred]
    refine Int.bmod_eq_of_le_mul_two ?_ ?_
    · norm_num
      omega
    · norm_num
      omega
  have htwenty : (20 : Int64).toInt = 20 := by decide
  rw [Int64.toInt_div_of_ne_right _ _ (by decide), hmul, htwenty,
    Int.tdiv_eq_ediv_of_nonneg (by omega)]
  omega

/-! ### Counters -/

/-- The counters of a process after an increment of each. -/
def Process.gain (process increment : Process) : Process where
  minFlt := process.minFlt + increment.minFlt
  majFlt := process.majFlt + increment.majFlt
  utime := process.utime + increment.utime
  stime := process.stime + increment.stime

/-- A quantity that a process counts and a column reports, `weight` for every unit. Both are exact
below `limit`. -/
structure Counter where
  count : Process → ℕ
  column : Row → Int64
  weight : ℕ
  limit : ℕ
  count_zero : count ⟨0, 0, 0, 0⟩ = 0
  count_gain : ∀ {process increment : Process}, count process + count increment < limit →
    count (process.gain increment) = count process + count increment
  column_row : ∀ {process : Process} (pid : Int32), count process < limit →
    (column (process.sample pid).row).toInt = weight * count process

namespace Counter

/-- The minor faults. -/
def minor : Counter where
  count process := process.minFlt.toNat
  column := Row.minor
  weight := 1
  limit := 2 ^ 63
  count_zero := rfl
  count_gain {process increment} hlimit := by
    change (process.minFlt + increment.minFlt).toNat = _
    rw [UInt64.toNat_add, Nat.mod_eq_of_lt (by omega)]
  column_row pid hlimit := by
    rw [Nat.cast_one, one_mul]
    exact toInt_toInt64_of_lt hlimit

/-- The major faults. -/
def major : Counter where
  count process := process.majFlt.toNat
  column := Row.major
  weight := 1
  limit := 2 ^ 63
  count_zero := rfl
  count_gain {process increment} hlimit := by
    change (process.majFlt + increment.majFlt).toNat = _
    rw [UInt64.toNat_add, Nat.mod_eq_of_lt (by omega)]
  column_row pid hlimit := by
    rw [Nat.cast_one, one_mul]
    exact toInt_toInt64_of_lt hlimit

/-- The processor time in ticks, 5 in the column `UTIL` for every tick. -/
def time : Counter where
  count process := process.utime.toNat + process.stime.toNat
  column := Row.util
  weight := 5
  -- the least count whose product with 100 wraps
  limit := 2 ^ 63 / 100 + 1
  count_zero := rfl
  count_gain {process increment} hlimit := by
    change (process.utime + increment.utime).toNat + (process.stime + increment.stime).toNat = _
    rw [UInt64.toNat_add, UInt64.toNat_add, Nat.mod_eq_of_lt (by omega),
      Nat.mod_eq_of_lt (by omega)]
    omega
  column_row {process} pid hlimit := by
    have hsum : (process.utime + process.stime).toNat
        = process.utime.toNat + process.stime.toNat := by
      rw [UInt64.toNat_add, Nat.mod_eq_of_lt (by omega)]
    change ((process.utime + process.stime).toInt64 * 100 / 20).toInt = _
    rw [toInt_util_of_lt]
    · rw [hsum]
      rfl
    · rw [hsum]
      omega

/-- The sum over what a process has gained. -/
def total (counter : Counter) (gained : List Process) : ℕ := (gained.map counter.count).sum

/-- The sum of the column over rows. -/
def reported (counter : Counter) (rows : List Row) : ℤ :=
  (rows.map fun row ↦ (counter.column row).toInt).sum

@[simp] theorem total_append (counter : Counter) (gained more : List Process) :
    counter.total (gained ++ more) = counter.total gained + counter.total more := by
  simp [total]

@[simp] theorem total_singleton (counter : Counter) (process : Process) :
    counter.total [process] = counter.count process := by
  simp [total]

@[simp] theorem reported_append (counter : Counter) (rows more : List Row) :
    counter.reported (rows ++ more) = counter.reported rows + counter.reported more := by
  simp [reported]

end Counter
/-! ### The balance of one process -/

/-- Every counter is balanced for a process: what its rows report and what it still counts is what
it has gained. A pid without a gain has not been used. -/
structure Balanced (rows : List Row) (live : Option Process) (gained : List Process) : Prop where
  unused : gained = [] → live = none ∧ rows = []
  kept : ∀ process, live = some process → ∀ counter : Counter,
    counter.total gained < counter.limit →
      ∃ taken : ℕ, counter.reported rows = counter.weight * taken ∧
        taken + counter.count process = counter.total gained

namespace Balanced

variable {rows : List Row} {live : Option Process} {gained : List Process} {process : Process}

/-- A sample keeps the balance: its row reports what the process no longer counts. -/
theorem sampled (hpid : Balanced rows (some process) gained) (pid : Int32) :
    Balanced (rows ++ [(process.sample pid).row]) (some ⟨0, 0, 0, 0⟩) gained := by
  refine ⟨fun hnone ↦ ?_, fun later hlater counter hlimit ↦ ?_⟩
  · cases (hpid.unused hnone).1
  · obtain ⟨taken, hreported, htotal⟩ := hpid.kept process rfl counter hlimit
    refine ⟨taken + counter.count process, ?_, ?_⟩
    · rw [Counter.reported_append, hreported, Counter.reported, List.map_singleton,
        List.sum_singleton, counter.column_row pid (by omega)]
      push_cast
      ring
    · rw [← Option.some.inj hlater, counter.count_zero, add_zero, htotal]

/-- An increment keeps the balance. -/
theorem gain (hpid : Balanced rows (some process) gained) (increment : Process) :
    Balanced rows (some (process.gain increment)) (gained ++ [increment]) := by
  refine ⟨fun hnone ↦ ?_, fun later hlater counter hlimit ↦ ?_⟩
  · exact absurd hnone (List.append_ne_nil_of_right_ne_nil _ (List.cons_ne_nil _ _))
  · rw [Counter.total_append, Counter.total_singleton] at hlimit ⊢
    obtain ⟨taken, hreported, htotal⟩ := hpid.kept process rfl counter (by omega)
    refine ⟨taken, hreported, ?_⟩
    rw [← Option.some.inj hlater, counter.count_gain (by omega), ← htotal, add_assoc]

/-- A process that starts under an unused pid is balanced. -/
theorem fork (hpid : Balanced rows live []) (process : Process) :
    Balanced rows (some process) [process] := by
  refine ⟨fun hnone ↦ ?_, fun later hlater counter _ ↦ ⟨0, ?_, ?_⟩⟩
  · cases hnone
  · rw [(hpid.unused rfl).2, Nat.cast_zero, mul_zero]
    rfl
  · rw [← Option.some.inj hlater, Counter.total_singleton, zero_add]

/-- The end of a process keeps the balance. -/
theorem exit (hpid : Balanced rows live gained) : Balanced rows none gained := by
  refine ⟨fun hnone ↦ ⟨rfl, (hpid.unused hnone).2⟩, fun process hprocess ↦ ?_⟩
  cases hprocess

end Balanced

/-! ### The balance of a kernel -/

namespace Kernel

/-- The rows that were written to the buffer for a pid. -/
def rows (k : Kernel) (pid : Int32) : List Row :=
  k.written.filter fun row ↦ row.pid = pid.toInt64

/-- Every counter is balanced for every pid. -/
def AllBalanced (k : Kernel) (gained : Int32 → List Process) : Prop :=
  ∀ pid, Balanced (k.rows pid) (k.processes pid) (gained pid)

/-- The kernel after a change of one process. -/
@[simps] def setProcess (k : Kernel) (pid : Int32) (process : Option Process) : Kernel :=
  { k with processes := Function.update k.processes pid process }

variable {k : Kernel} {gained : Int32 → List Process}

/-- A change of one process keeps the balance. Assumes: the process and its gain are balanced after
the change. -/
theorem AllBalanced.setProcess (hk : k.AllBalanced gained) {pid : Int32} {live : Option Process}
    {gains : List Process} (hpid : Balanced (k.rows pid) live gains) :
    (k.setProcess pid live).AllBalanced (Function.update gained pid gains) := by
  intro other
  change Balanced (k.rows other) (Function.update k.processes pid live other) _
  by_cases hother : other = pid
  · rw [hother, Function.update_self, Function.update_self]
    exact hpid
  · rw [Function.update_of_ne hother, Function.update_of_ne hother]
    exact hk other

/-- A sample adds its row to the rows of its process, and to no others. -/
theorem rows_push_sample (k : Kernel) (pid other : Int32) (process : Process) :
    (k.push (process.sample pid)).rows other =
      k.rows other ++ if pid = other then [(process.sample pid).row] else [] := by
  have hrow : (process.sample pid).row.pid = other.toInt64 ↔ pid = other := by
    refine ⟨fun heq ↦ Int32.toInt_inj.mp ?_, fun heq ↦ congrArg Int32.toInt64 heq⟩
    rw [← Int32.toInt_toInt64 pid, ← Int32.toInt_toInt64 other]
    exact congrArg Int64.toInt heq
  rw [rows, rows, written_push, List.filter_append, List.filter_singleton]
  simp only [hrow]
  by_cases hpid : pid = other <;> simp [hpid]

/-- A sample of a live process keeps the balance. -/
theorem AllBalanced.sampled (hk : k.AllBalanced gained) {pid : Int32} {process : Process}
    (hprocess : k.processes pid = some process) :
    ((k.setProcess pid (some ⟨0, 0, 0, 0⟩)).push (process.sample pid)).AllBalanced gained := by
  intro other
  rw [rows_push_sample]
  change Balanced (k.rows other ++ _)
    (Function.update k.processes pid (some ⟨0, 0, 0, 0⟩) other) (gained other)
  by_cases hother : other = pid
  · have hpid := hk pid
    rw [hprocess] at hpid
    rw [hother, if_pos rfl, Function.update_self]
    exact hpid.sampled pid
  · rw [if_neg (Ne.symm hother), List.append_nil, Function.update_of_ne hother]
    exact hk other

/-- A traversal keeps the balance, wherever it ends. -/
theorem AllBalanced.traverse (hk : k.AllBalanced gained) (tl : List Mp3TaskStruct) :
    (traverse tl k).kernel.AllBalanced gained := by
  induction tl generalizing k with
  | nil => exact hk
  | cons task rest ih =>
    rw [FaultProfiler.traverse]
    cases hprocess : k.processes task.pid with
    | none =>
      simp only [getCpuUse, hprocess, Option.map_none]
      exact hk
    | some process =>
      simp only [getCpuUse, hprocess, Option.map_some]
      exact ih (hk.sampled hprocess)

end Kernel

/-! ### Runs -/

/-- The state of the module, and what each process has gained: the counters it started with, and
every increment since. -/
structure Account where
  mp3 : Mp3
  gained : Int32 → List Process

/-- A whole call of the module, or a step of the rest of the kernel. -/
inductive Event
  | register (pid : Int32)
  | deregister (pid : Int32)
  | tick
  | jiffies (now : UInt64)
  | fork (pid : Int32) (process : Process)
  | exit (pid : Int32)
  | count (pid : Int32) (increment : Process)

namespace Account

/-- The module when it is loaded, while some processes run already. -/
def start (processes : Int32 → Option Process) (jiffies : UInt64) : Account where
  mp3 := ⟨[], false, ⟨processes, jiffies, taskListInit, [], []⟩⟩
  gained := fun pid ↦ (processes pid).toList

/-- The state after a change of one process. -/
def setProcess (s : Account) (pid : Int32) (process : Option Process) : Account :=
  { s with mp3 := { s.mp3 with kernel := s.mp3.kernel.setProcess pid process } }

/-- A tick is the work that is taken from the queue, pending or not. A process starts under a pid
that has not been used, and counts as long as it lives. -/
def next (s : Account) : Event → Option Account
  | .register pid => some { s with mp3 := (s.mp3.taskRegister pid).2 }
  | .deregister pid => some { s with mp3 := (s.mp3.taskDeregister pid).2 }
  | .tick => some { s with mp3 := s.mp3.cancelDelayedWork.wqHandler }
  | .jiffies now =>
    some { s with mp3 := { s.mp3 with kernel := { s.mp3.kernel with jiffies := now } } }
  | .fork pid process =>
    if s.gained pid = [] then
      some { s.setProcess pid (some process) with
        gained := Function.update s.gained pid [process] }
    else none
  | .exit pid => some (s.setProcess pid none)
  | .count pid increment =>
    (s.mp3.kernel.processes pid).map fun process ↦
      { s.setProcess pid (some (process.gain increment)) with
        gained := Function.update s.gained pid (s.gained pid ++ [increment]) }

/-- The balance of the account. -/
def AllBalanced (s : Account) : Prop := s.mp3.kernel.AllBalanced s.gained

/-- The start is balanced. -/
theorem allBalanced_start (processes : Int32 → Option Process) (jiffies : UInt64) :
    (start processes jiffies).AllBalanced := by
  intro pid
  change Balanced [] (processes pid) (processes pid).toList
  have hunused : Balanced [] none [] := by
    refine ⟨fun _ ↦ ⟨rfl, rfl⟩, fun process hprocess ↦ ?_⟩
    cases hprocess
  cases processes pid with
  | none => exact hunused
  | some process => exact hunused.fork process

/-- Every step keeps the balance. -/
theorem AllBalanced.next {s later : Account} {event : Event} (hs : s.AllBalanced)
    (hnext : s.next event = some later) : later.AllBalanced := by
  cases event with
  | register pid =>
    cases hnext
    exact (congrArg (Kernel.AllBalanced · s.gained) (s.mp3.kernel_taskRegister pid)).mpr hs
  | deregister pid =>
    cases hnext
    exact (congrArg (Kernel.AllBalanced · s.gained) (s.mp3.kernel_taskDeregister pid)).mpr hs
  | tick =>
    cases hnext
    exact (congrArg (Kernel.AllBalanced · s.gained) (Mp3.kernel_wqHandler _)).mpr
      (Kernel.AllBalanced.traverse hs s.mp3.tl)
  | jiffies now =>
    cases hnext
    exact hs
  | fork pid process =>
    obtain ⟨hpid, hlater⟩ := Option.ite_none_right_eq_some.mp hnext
    cases hlater
    have hunused := hs pid
    rw [hpid] at hunused
    exact Kernel.AllBalanced.setProcess hs (hunused.fork process)
  | exit pid =>
    cases hnext
    have hexit := Kernel.AllBalanced.setProcess hs (hs pid).exit
    rw [Function.update_eq_self] at hexit
    exact hexit
  | count pid increment =>
    obtain ⟨process, hprocess, rfl⟩ := Option.map_eq_some_iff.mp hnext
    have hlive := hs pid
    rw [hprocess] at hlive
    exact Kernel.AllBalanced.setProcess hs (hlive.gain increment)

/-- In every reachable state, what the rows of a live process report of a counter and what it still
counts is what it has gained, as long as that is below the limit of the counter. -/
theorem reported_add_count {processes : Int32 → Option Process} {jiffies : UInt64} {s : Account}
    (hreach : Reachable next (start processes jiffies) s) {pid : Int32} {process : Process}
    (hlive : s.mp3.kernel.processes pid = some process) (counter : Counter)
    (hlimit : counter.total (s.gained pid) < counter.limit) :
    counter.reported (s.mp3.kernel.rows pid) + counter.weight * counter.count process =
      counter.weight * counter.total (s.gained pid) := by
  have hs : s.AllBalanced := hreach.invariant AllBalanced (allBalanced_start processes jiffies)
    fun _ _ _ hbefore _ hnext ↦ hbefore.next hnext
  obtain ⟨taken, hreported, htotal⟩ := (hs pid).kept process hlive counter hlimit
  rw [hreported, ← htotal]
  push_cast
  ring

/-- The faults and the processor time of a process are conserved: the rows pushed for its pid and
its own counters add up to what it started with and every increment since, with 5 for a tick in the
last column. Assumes of each sum that the arithmetic on it does not wrap. -/
structure Conserved (s : Account) (pid : Int32) (process : Process) : Prop where
  minFlt : ((s.gained pid).map fun gain ↦ gain.minFlt.toNat).sum < 2 ^ 63 →
    ((s.mp3.kernel.rows pid).map fun row ↦ row.minor.toInt).sum + process.minFlt.toNat =
      ((s.gained pid).map fun gain ↦ gain.minFlt.toNat).sum
  majFlt : ((s.gained pid).map fun gain ↦ gain.majFlt.toNat).sum < 2 ^ 63 →
    ((s.mp3.kernel.rows pid).map fun row ↦ row.major.toInt).sum + process.majFlt.toNat =
      ((s.gained pid).map fun gain ↦ gain.majFlt.toNat).sum
  time : ((s.gained pid).map fun gain ↦ gain.utime.toNat + gain.stime.toNat).sum * 100 < 2 ^ 63 →
    ((s.mp3.kernel.rows pid).map fun row ↦ row.util.toInt).sum +
        5 * (process.utime.toNat + process.stime.toNat) =
      5 * ((s.gained pid).map fun gain ↦ gain.utime.toNat + gain.stime.toNat).sum

/-- In every reachable state the faults and the processor time of every live process are
conserved. -/
theorem conserved_of_reachable {processes : Int32 → Option Process} {jiffies : UInt64} {s : Account}
    (hreach : Reachable next (start processes jiffies) s) {pid : Int32} {process : Process}
    (hlive : s.mp3.kernel.processes pid = some process) : s.Conserved pid process where
  minFlt hlimit := by
    have hsum := reported_add_count hreach hlive .minor hlimit
    simpa [Counter.minor, Counter.total, Counter.reported] using hsum
  majFlt hlimit := by
    have hsum := reported_add_count hreach hlive .major hlimit
    simpa [Counter.major, Counter.total, Counter.reported] using hsum
  time hlimit := by
    have htotal : Counter.time.total (s.gained pid) < 2 ^ 63 / 100 + 1 := by
      change ((s.gained pid).map fun gain ↦ gain.utime.toNat + gain.stime.toNat).sum < _
      omega
    have hsum := reported_add_count hreach hlive .time htotal
    simpa [Counter.time, Counter.total, Counter.reported] using hsum

/-- The processes 5 and 6, with counts already. -/
def twoProcesses (pid : Int32) : Option Process :=
  if pid = 5 ∨ pid = 6 then some ⟨1, 0, 2, 3⟩ else none

/-- Both processes are registered, and the second ends after a tick. The next tick stops there, with
the counts of the first in two rows and what it gained since in its counters. -/
theorem exists_conserved_after_abort :
    ∃ s, Reachable next (start twoProcesses 0) s ∧ (s.mp3.kernel.rows 5).length = 2 ∧
      s.mp3.kernel.processes 5 = some ⟨7, 1, 1, 0⟩ ∧ s.Conserved 5 ⟨7, 1, 1, 0⟩ := by
  have hrun : ∃ s, Reachable next (start twoProcesses 0) s ∧
      ((s.mp3.kernel.rows 5).length = 2 ∧ s.mp3.kernel.processes 5 = some ⟨7, 1, 1, 0⟩) :=
    exists_reachableUnder_of_run [.register 5, .register 6, .tick, .exit 6, .count 5 ⟨4, 0, 2, 0⟩,
      .tick, .count 5 ⟨7, 1, 1, 0⟩] (by decide +kernel) (by decide +kernel)
  obtain ⟨s, hreach, hrows, hlive⟩ := hrun
  exact ⟨s, hreach, hrows, hlive, conserved_of_reachable hreach hlive⟩

end Account

end KernelModules.FaultProfiler
