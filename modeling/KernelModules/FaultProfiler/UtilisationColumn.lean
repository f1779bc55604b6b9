import KernelModules.FaultProfiler.FaultConservation
import KernelModules.FaultProfiler.SamplingTick

/-!
# The processor time in the last column

The column `UTIL` should be a percentage: 100 times the ticks that a process has counted since its
previous sample, or since its registration, over the jiffies since then. `vmem_buf_push_next` is
given the time of the previous sample and does not use it. It divides by 20, and what it divides is
all that the process has counted since its counters were last set to 0, which a registration does
not do.

The functions of `MP3/profiler.c` run one at a time, in any order, and a sampling tick at any time.
Between them processes start and end, and while time passes each of them counts a tick for a jiffy
at most. Times are in jiffies, so that `HZ` does not occur. Beside the state of the module stand the
time and what each process has used (`Usage`), and the rows are kept with the jiffies and the ticks
that they are to report (`Measured`).

`always_percentages` says in which runs every row that is pushed is a percentage. For a task
registered while its counters are 0 these are the runs in which it counts nothing between two
samples, or has them 20 jiffies apart at most.
-/

set_option autoImplicit false
set_option relaxedAutoImplicit false

namespace KernelModules.FaultProfiler

open Foundation

/-! ### What processes use -/

/-- The ticks that a process has counted. -/
def Process.ticks (process : Process) : ℕ := process.utime.toNat + process.stime.toNat

/-- The processor time of a process: when its latest sample or its registration was, the ticks that
it had counted then and still counts, and the ticks since. -/
structure Usage where
  since : ℕ
  carried : ℕ
  gained : ℕ
  deriving DecidableEq

/-- A row that is pushed, with the jiffies and the ticks since the previous sample of its process or
its registration. -/
structure Measured where
  row : Row
  elapsed : ℕ
  gained : ℕ
  deriving DecidableEq

/-- The column `UTIL` is a percentage, of at most 100 times the ticks by the jiffies. -/
def Measured.Percentage (m : Measured) : Prop :=
  0 ≤ m.row.util.toInt ∧ m.row.util.toInt ≤ 100 ∧ m.row.util.toInt * m.elapsed ≤ 100 * m.gained

instance (m : Measured) : Decidable m.Percentage :=
  inferInstanceAs (Decidable (_ ∧ _ ∧ _))

/-- Jiffies that pass, and what the processes count in them: one tick for a jiffy at most. -/
structure Lapse where
  jiffies : ℕ
  gain : Int32 → Process
  gain_le : ∀ pid, (gain pid).ticks ≤ jiffies

/-! ### Runs -/

/-- The state of the module, the time, what each process has used, and the rows pushed so far. -/
structure Meter where
  mp3 : Mp3
  time : ℕ
  usage : Int32 → Usage
  measured : List Measured

/-- A whole call of the module, or a step of the rest of the kernel. -/
inductive MeterEvent
  | register (pid : Int32)
  | deregister (pid : Int32)
  | tick
  | elapse (lapse : Lapse)
  | fork (pid : Int32)
  | exit (pid : Int32)

namespace Meter

/-- The module when it is loaded, while some processes run already. -/
def start (processes : Int32 → Option Process) (jiffies : ℕ) : Meter where
  mp3 := ⟨[], false, ⟨processes, UInt64.ofNat jiffies, taskListInit, [], []⟩⟩
  time := jiffies
  usage := fun pid ↦ ⟨jiffies, ((processes pid).map Process.ticks).getD 0, 0⟩
  measured := []

/-- A registration that returns 0 starts a new interval for its process, whose counters go on. -/
def register (s : Meter) (pid : Int32) : Meter where
  mp3 := (s.mp3.taskRegister pid).2
  time := s.time
  usage :=
    if (s.mp3.taskRegister pid).1 = 0 then
      Function.update s.usage pid ⟨s.time, (s.usage pid).carried + (s.usage pid).gained, 0⟩
    else s.usage
  measured := s.measured

/-- The samples that the work pushes when it is taken from the queue. -/
def samples (s : Meter) : List Sample :=
  s.mp3.cancelDelayedWork.wqHandler.kernel.pushed.drop s.mp3.kernel.pushed.length

/-- A tick starts a new interval for every process that it samples, whose counters are 0. -/
def tick (s : Meter) : Meter where
  mp3 := s.mp3.cancelDelayedWork.wqHandler
  time := s.time
  usage pid := if pid ∈ s.samples.map Sample.pid then ⟨s.time, 0, 0⟩ else s.usage pid
  measured := s.measured ++ s.samples.map fun sample ↦
    ⟨sample.row, s.time - (s.usage sample.pid).since, (s.usage sample.pid).gained⟩

/-- Time passes, and the live processes count. -/
def elapse (s : Meter) (lapse : Lapse) : Meter where
  mp3 := { s.mp3 with
    kernel := { s.mp3.kernel with
      processes := fun pid ↦ (s.mp3.kernel.processes pid).map fun process ↦
        process.gain (lapse.gain pid)
      jiffies := s.mp3.kernel.jiffies + UInt64.ofNat lapse.jiffies } }
  time := s.time + lapse.jiffies
  usage pid :=
    if live s.mp3.kernel.processes pid then
      { s.usage pid with gained := (s.usage pid).gained + (lapse.gain pid).ticks }
    else s.usage pid
  measured := s.measured

/-- A change of one process. -/
def setProcess (s : Meter) (pid : Int32) (process : Option Process) : Meter :=
  { s with mp3 := { s.mp3 with kernel := s.mp3.kernel.setProcess pid process } }

/-- A process that starts has counted nothing. -/
def fork (s : Meter) (pid : Int32) : Meter :=
  { s.setProcess pid (some ⟨0, 0, 0, 0⟩) with
    usage := Function.update s.usage pid ⟨(s.usage pid).since, 0, 0⟩ }

/-- The step. A process starts under a pid that is not in use. -/
def next (s : Meter) : MeterEvent → Option Meter
  | .register pid => some (s.register pid)
  | .deregister pid => some { s with mp3 := (s.mp3.taskDeregister pid).2 }
  | .tick => some s.tick
  | .elapse lapse => some (s.elapse lapse)
  | .fork pid => if live s.mp3.kernel.processes pid then none else some (s.fork pid)
  | .exit pid => some (s.setProcess pid none)

/-- The law: the rows pushed are those measured, and each of them is a percentage. -/
structure Percentages (s : Meter) : Prop where
  rows : s.measured.map Measured.row = s.mp3.kernel.pushed.map Sample.row
  percentage : ∀ m ∈ s.measured, m.Percentage

instance : DecidablePred Percentages := fun s ↦
  decidable_of_iff (s.measured.map Measured.row = s.mp3.kernel.pushed.map Sample.row ∧
      ∀ m ∈ s.measured, m.Percentage)
    ⟨fun hboth ↦ ⟨hboth.1, hboth.2⟩, fun hs ↦ ⟨hs.rows, hs.percentage⟩⟩

/-- The pids of the tasks that the work comes to: those before the first one without a process. -/
def sampledPids (s : Meter) : List Int32 :=
  (s.mp3.tl.takeWhile fun task ↦ live s.mp3.kernel.processes task.pid).map Mp3TaskStruct.pid

end Meter

/-- A process has counted nothing, or its sample comes in time, `elapsed` jiffies after the previous
one. With no ticks carried that is 20 jiffies at most. Every tick carried takes one of them away,
and all that are carried have to be few against those gained. -/
def Usage.Fits (usage : Usage) (elapsed : ℕ) : Prop :=
  usage.carried + usage.gained = 0 ∨
    usage.carried + elapsed ≤ 20 ∧ usage.carried * elapsed ≤ (20 - elapsed) * usage.gained

instance (usage : Usage) (elapsed : ℕ) : Decidable (usage.Fits elapsed) :=
  inferInstanceAs (Decidable (_ ∨ _ ∧ _))

namespace Meter

/-- A tick meets the condition for every process that it samples. -/
def TickFits (s : Meter) : MeterEvent → Prop
  | .tick => ∀ pid ∈ s.sampledPids, (s.usage pid).Fits (s.time - (s.usage pid).since)
  | _ => True

instance (s : Meter) (event : MeterEvent) : Decidable (s.TickFits event) :=
  match event with
  -- the instance over the list, not the one over all pids
  | .tick => List.decidableBAll _ s.sampledPids
  | .register _ | .deregister _ | .elapse _ | .fork _ | .exit _ => isTrue trivial

/-- The products in the code do not wrap at a tick. -/
def TickSmall (s : Meter) : MeterEvent → Prop
  | .tick => ∀ pid ∈ s.sampledPids, ((s.usage pid).carried + (s.usage pid).gained) * 100 < 2 ^ 63
  | _ => True

end Meter

/-! ### One row -/

/-- When a sample fits, 5 for each tick that is counted is a percentage. Assumes: a tick for a jiffy
at most. -/
theorem Usage.Fits.rate_le {usage : Usage} {elapsed : ℕ} (hfits : usage.Fits elapsed)
    (hgained : usage.gained ≤ elapsed) : usage.carried + usage.gained ≤ 20 ∧
      (usage.carried + usage.gained) * elapsed ≤ 20 * usage.gained := by
  obtain ⟨since, c, g⟩ := usage
  dsimp only [Usage.Fits] at hfits hgained ⊢
  rcases hfits with hzero | ⟨hsum, hshare⟩
  · rw [hzero]
    omega
  · obtain ⟨k, hk⟩ := Nat.exists_eq_add_of_le' (show elapsed ≤ 20 by omega)
    have hleft : 20 - elapsed = k := by omega
    rw [hleft] at hshare
    refine ⟨by omega, ?_⟩
    calc (c + g) * elapsed = c * elapsed + g * elapsed := Nat.add_mul c g elapsed
      _ ≤ k * g + g * elapsed := Nat.add_le_add_right hshare _
      _ = 20 * g := by rw [hk, Nat.add_mul, Nat.mul_comm g]

/-- When 5 for each tick that is counted is a percentage, the sample fits. Assumes: a tick for a
jiffy at most. -/
theorem Usage.fits_of_rate_le {usage : Usage} {elapsed : ℕ} (hgained : usage.gained ≤ elapsed)
    (hsum : usage.carried + usage.gained ≤ 20)
    (hrate : (usage.carried + usage.gained) * elapsed ≤ 20 * usage.gained) :
    usage.Fits elapsed := by
  obtain ⟨since, c, g⟩ := usage
  dsimp only [Usage.Fits] at hgained hsum hrate ⊢
  rcases Nat.eq_zero_or_pos (c + g) with hzero | hpos
  · exact .inl hzero
  · -- with more than 20 jiffies the rate would be more than 20 for each tick
    have hle : elapsed ≤ 20 := by
      refine Nat.le_of_mul_le_mul_left ?_ hpos
      calc (c + g) * elapsed ≤ 20 * g := hrate
        _ ≤ (c + g) * 20 := by omega
    obtain ⟨k, hk⟩ := Nat.exists_eq_add_of_le' hle
    have hleft : 20 - elapsed = k := by omega
    have hshare : c * elapsed ≤ k * g := by
      rw [hk, Nat.add_mul, Nat.add_mul, Nat.mul_comm g] at hrate
      exact Nat.le_of_add_le_add_right hrate
    refine .inr ⟨?_, hleft ▸ hshare⟩
    rcases Nat.eq_zero_or_pos elapsed with hstart | hlater
    · omega
    · have hcarried : c ≤ k := by
        refine Nat.le_of_mul_le_mul_right ?_ hlater
        exact hshare.trans (Nat.mul_le_mul_left k hgained)
      omega

/-- A sample is a percentage exactly when it fits. Assumes: counters that hold what is used, a tick
for a jiffy at most, and a product with 100 that does not wrap. -/
theorem Usage.percentage_iff {usage : Usage} {elapsed : ℕ} {process : Process} (pid : Int32)
    (hcounted : process.utime + process.stime = UInt64.ofNat (usage.carried + usage.gained))
    (hgained : usage.gained ≤ elapsed) (hsmall : (usage.carried + usage.gained) * 100 < 2 ^ 63) :
    Measured.Percentage ⟨(process.sample pid).row, elapsed, usage.gained⟩ ↔
      usage.Fits elapsed := by
  have htoNat : (process.utime + process.stime).toNat = usage.carried + usage.gained := by
    rw [hcounted, UInt64.toNat_ofNat', Nat.mod_eq_of_lt (by omega)]
  have hutil : (process.sample pid).row.util.toInt = 5 * (usage.carried + usage.gained : ℕ) := by
    rw [← htoNat] at hsmall ⊢
    exact toInt_util_of_lt hsmall
  rw [Measured.Percentage, hutil]
  constructor
  · rintro ⟨-, hhundred, hrate⟩
    refine Usage.fits_of_rate_le hgained (by omega) ?_
    zify at hrate ⊢
    linarith
  · intro hfits
    obtain ⟨htwenty, hrate⟩ := hfits.rate_le hgained
    zify at hrate ⊢
    refine ⟨by omega, by omega, by linarith⟩

/-! ### The usage of one process -/

/-- What a process has used holds: its counters are the ticks that it has used, of which at most one
for a jiffy is gained. -/
structure Usage.Holds (usage : Usage) (time : ℕ) (process : Option Process) : Prop where
  counted : ∀ counters, process = some counters →
    counters.utime + counters.stime = UInt64.ofNat (usage.carried + usage.gained)
  gained_le : usage.since + usage.gained ≤ time

namespace Usage.Holds

variable {usage : Usage} {time : ℕ} {process : Option Process}

/-- A process that runs when the module is loaded. -/
theorem load (time : ℕ) (process : Option Process) :
    Usage.Holds ⟨time, (process.map Process.ticks).getD 0, 0⟩ time process where
  counted counters hprocess := by
    rw [hprocess, Option.map_some, Option.getD_some, Nat.add_zero, Process.ticks, UInt64.ofNat_add,
      UInt64.ofNat_toNat, UInt64.ofNat_toNat]
  gained_le := le_rfl

/-- A registration. -/
theorem register (husage : usage.Holds time process) :
    Usage.Holds ⟨time, usage.carried + usage.gained, 0⟩ time process :=
  ⟨husage.counted, le_rfl⟩

/-- A process that is sampled. -/
theorem sampled (time : ℕ) : Usage.Holds ⟨time, 0, 0⟩ time (some ⟨0, 0, 0, 0⟩) where
  counted counters hprocess := by
    rw [← Option.some.inj hprocess]
    rfl
  gained_le := le_rfl

/-- A process that goes on. -/
theorem gain {counters : Process} (husage : usage.Holds time (some counters))
    {increment : Process} {jiffies : ℕ} (hgain : increment.ticks ≤ jiffies) :
    Usage.Holds { usage with gained := usage.gained + increment.ticks } (time + jiffies)
      (some (counters.gain increment)) where
  counted later hlater := by
    rw [← Option.some.inj hlater, ← Nat.add_assoc, UInt64.ofNat_add, ← husage.counted _ rfl,
      Process.ticks, UInt64.ofNat_add, UInt64.ofNat_toNat, UInt64.ofNat_toNat, Process.gain]
    dsimp only
    ac_rfl
  gained_le := by
    have hle := husage.gained_le
    dsimp only
    omega

/-- A process that starts. -/
theorem fork (husage : usage.Holds time process) :
    Usage.Holds ⟨usage.since, 0, 0⟩ time (some ⟨0, 0, 0, 0⟩) where
  counted counters hprocess := by
    rw [← Option.some.inj hprocess]
    rfl
  gained_le := (Nat.le_add_right ..).trans husage.gained_le

/-- No process, while time passes. -/
theorem none (husage : usage.Holds time process) (jiffies : ℕ) :
    usage.Holds (time + jiffies) none where
  counted counters hprocess := by cases hprocess
  gained_le := Nat.le_add_right_of_le husage.gained_le

end Usage.Holds

/-! ### The steps -/

namespace Meter

/-- What holds in every state: pids are listed once, what each process has used, and the rows that
are pushed are measured. -/
structure Inv (s : Meter) : Prop where
  nodup : s.mp3.pids.Nodup
  usage : ∀ pid, (s.usage pid).Holds s.time (s.mp3.kernel.processes pid)
  rows : s.measured.map Measured.row = s.mp3.kernel.pushed.map Sample.row

/-- The start has the invariant. -/
theorem inv_start (processes : Int32 → Option Process) (jiffies : ℕ) :
    (start processes jiffies).Inv where
  nodup := List.nodup_nil
  usage pid := .load jiffies (processes pid)
  rows := rfl

/-- The samples of a tick are those of the processes that the work comes to. -/
theorem samples_eq (s : Meter) : s.samples = liveSamples
    (s.mp3.tl.takeWhile fun task ↦ live s.mp3.kernel.processes task.pid)
      s.mp3.kernel.processes := by
  rw [samples, Mp3.kernel_wqHandler]
  exact (congrArg (List.drop _) (kernel_traverse _ _).1).trans (List.drop_left ..)

/-- The work comes to processes that are live. -/
theorem live_of_mem_sampledPids {s : Meter} {pid : Int32} (hpid : pid ∈ s.sampledPids) :
    live s.mp3.kernel.processes pid = true := by
  obtain ⟨task, htask, rfl⟩ := List.mem_map.mp hpid
  have hall := List.all_takeWhile (p := fun task : Mp3TaskStruct ↦
    live s.mp3.kernel.processes task.pid) (l := s.mp3.tl)
  exact List.all_eq_true.mp hall task htask

/-- The pids of the samples. -/
theorem pids_samples (s : Meter) : s.samples.map Sample.pid = s.sampledPids := by
  rw [samples_eq, pids_liveSamples, sampledPids, List.filter_eq_self]
  intro pid hpid
  exact live_of_mem_sampledPids hpid

/-- A tick is over the same list. -/
theorem pids_tick (s : Meter) : s.tick.mp3.pids = s.mp3.pids := by
  change s.mp3.cancelDelayedWork.wqHandler.pids = s.mp3.pids
  unfold Mp3.wqHandler
  split_ifs
  · exact Mp3.pids_sample _
  · exact Mp3.pids_sample _

/-- A tick pushes its samples. -/
theorem pushed_tick (s : Meter) :
    s.tick.mp3.kernel.pushed = s.mp3.kernel.pushed ++ s.samples := by
  rw [samples_eq]
  exact (congrArg Kernel.pushed (Mp3.kernel_wqHandler _)).trans (kernel_traverse _ _).1

/-- A process that a tick samples starts again from 0. -/
theorem processes_tick (s : Meter) (pid : Int32) : s.tick.mp3.kernel.processes pid =
    if pid ∈ s.sampledPids then some ⟨0, 0, 0, 0⟩ else s.mp3.kernel.processes pid :=
  (congrArg (Kernel.processes · pid) (Mp3.kernel_wqHandler _)).trans (processes_traverse _ _ pid)

/-- Only a tick pushes rows. -/
theorem tick_or_measured_eq {s later : Meter} {event : MeterEvent}
    (hnext : s.next event = some later) :
    event = .tick ∧ later = s.tick ∨ later.measured = s.measured := by
  cases event with
  | register pid =>
    cases hnext
    exact .inr rfl
  | deregister pid =>
    cases hnext
    exact .inr rfl
  | tick => exact .inl ⟨rfl, (Option.some.inj hnext).symm⟩
  | elapse lapse =>
    cases hnext
    exact .inr rfl
  | fork pid =>
    rw [next] at hnext
    split_ifs at hnext
    cases hnext
    exact .inr rfl
  | exit pid =>
    cases hnext
    exact .inr rfl

namespace Inv

variable {s : Meter}

/-- A registration keeps the invariant. -/
theorem register (hs : s.Inv) (pid : Int32) : (s.register pid).Inv := by
  have hkernel : (s.register pid).mp3.kernel = s.mp3.kernel := s.mp3.kernel_taskRegister pid
  constructor
  · change (s.mp3.taskRegister pid).2.pids.Nodup
    unfold Mp3.taskRegister
    split_ifs with hlisted
    · exact hs.nodup
    · rw [Mp3.listed_iff] at hlisted
      rw [Mp3.pids_listAddTail, Mp3.pids, Mp3.tl_queueIfEmpty, ← List.concat_eq_append]
      exact hs.nodup.concat hlisted
  · rw [hkernel]
    unfold Meter.register
    dsimp only
    split_ifs
    · exact (Function.forall_update_iff s.usage fun other usage ↦
        usage.Holds s.time (s.mp3.kernel.processes other)).mpr
          ⟨(hs.usage pid).register, fun other _ ↦ hs.usage other⟩
    · exact hs.usage
  · rw [hkernel]
    exact hs.rows

/-- A deregistration keeps the invariant. -/
theorem deregister (hs : s.Inv) (pid : Int32) :
    ({ s with mp3 := (s.mp3.taskDeregister pid).2 } : Meter).Inv := by
  have hkernel := s.mp3.kernel_taskDeregister pid
  constructor
  · change (s.mp3.taskDeregister pid).2.pids.Nodup
    have herase : (s.mp3.listDel pid).pids.Nodup := by
      rw [Mp3.pids_listDel]
      exact hs.nodup.erase pid
    unfold Mp3.taskDeregister
    split_ifs
    · exact herase
    · exact herase
    · exact hs.nodup
  · dsimp only
    rw [hkernel]
    exact hs.usage
  · dsimp only
    rw [hkernel]
    exact hs.rows

/-- A tick keeps the invariant. -/
theorem tick (hs : s.Inv) : s.tick.Inv := by
  constructor
  · rw [s.pids_tick]
    exact hs.nodup
  · intro pid
    rw [s.processes_tick, Meter.tick, s.pids_samples]
    dsimp only
    split_ifs
    · exact .sampled s.time
    · exact hs.usage pid
  · rw [s.pushed_tick, List.map_append, ← hs.rows, Meter.tick]
    dsimp only
    rw [List.map_append, List.map_map]
    rfl

/-- Time that passes keeps the invariant. -/
theorem elapse (hs : s.Inv) (lapse : Lapse) : (s.elapse lapse).Inv where
  nodup := hs.nodup
  usage pid := by
    have husage := hs.usage pid
    unfold Meter.elapse
    dsimp only
    cases hprocess : s.mp3.kernel.processes pid with
    | none =>
      rw [if_neg (not_live_of_none hprocess)]
      exact husage.none lapse.jiffies
    | some counters =>
      rw [hprocess] at husage
      rw [if_pos (live_of_some hprocess)]
      exact husage.gain (lapse.gain_le pid)
  rows := hs.rows

/-- The start of a process keeps the invariant. -/
theorem fork (hs : s.Inv) (pid : Int32) : (s.fork pid).Inv where
  nodup := hs.nodup
  usage other := by
    change (Function.update s.usage pid _ other).Holds s.time
      (Function.update s.mp3.kernel.processes pid _ other)
    by_cases hother : other = pid
    · rw [hother, Function.update_self, Function.update_self]
      exact (hs.usage pid).fork
    · rw [Function.update_of_ne hother, Function.update_of_ne hother]
      exact hs.usage other
  rows := hs.rows

/-- The end of a process keeps the invariant. -/
theorem exit (hs : s.Inv) (pid : Int32) : (s.setProcess pid none).Inv where
  nodup := hs.nodup
  usage := (Function.forall_update_iff s.mp3.kernel.processes fun other process ↦
    (s.usage other).Holds s.time process).mpr
      ⟨(hs.usage pid).none 0, fun other _ ↦ hs.usage other⟩
  rows := hs.rows

/-- Every step keeps the invariant. -/
theorem next (hs : s.Inv) {event : MeterEvent} {later : Meter}
    (hnext : s.next event = some later) : later.Inv := by
  cases event with
  | register pid =>
    cases hnext
    exact hs.register pid
  | deregister pid =>
    cases hnext
    exact hs.deregister pid
  | tick =>
    cases hnext
    exact hs.tick
  | elapse lapse =>
    cases hnext
    exact hs.elapse lapse
  | fork pid =>
    rw [Meter.next] at hnext
    split_ifs at hnext
    cases hnext
    exact hs.fork pid
  | exit pid =>
    cases hnext
    exact hs.exit pid

/-- The rows of a tick are percentages exactly when those before it and those of the processes that
it samples are. -/
theorem forall_measured_tick (hs : s.Inv) : (∀ m ∈ s.tick.measured, m.Percentage) ↔
    (∀ m ∈ s.measured, m.Percentage) ∧
      ∀ pid ∈ s.sampledPids, ∀ process, s.mp3.kernel.processes pid = some process →
        Measured.Percentage ⟨(process.sample pid).row, s.time - (s.usage pid).since,
          (s.usage pid).gained⟩ := by
  have hnodup : ((s.mp3.tl.takeWhile fun task ↦ live s.mp3.kernel.processes task.pid).map
      Mp3TaskStruct.pid).Nodup := hs.nodup.sublist ((List.takeWhile_sublist _).map _)
  unfold Meter.tick
  dsimp only
  rw [List.forall_mem_append, List.forall_mem_map, s.samples_eq]
  refine and_congr_right fun _ ↦ ⟨fun hall pid hpid process hprocess ↦ ?_, ?_⟩
  · obtain ⟨task, htask, rfl⟩ := List.mem_map.mp hpid
    exact hall _ ((mem_liveSamples_iff hnodup).mpr ⟨task, htask, process, hprocess, rfl⟩)
  · intro hall sample hsample
    obtain ⟨task, htask, process, hprocess, rfl⟩ := (mem_liveSamples_iff hnodup).mp hsample
    exact hall task.pid (List.mem_map_of_mem htask) process hprocess

/-- The row of a sampled process is a percentage exactly when its sample fits. Assumes: a product
with 100 that does not wrap. -/
theorem percentage_iff (hs : s.Inv) {pid : Int32} {process : Process}
    (hprocess : s.mp3.kernel.processes pid = some process)
    (hsmall : ((s.usage pid).carried + (s.usage pid).gained) * 100 < 2 ^ 63) :
    Measured.Percentage ⟨(process.sample pid).row, s.time - (s.usage pid).since,
        (s.usage pid).gained⟩ ↔ (s.usage pid).Fits (s.time - (s.usage pid).since) := by
  have hgained := (hs.usage pid).gained_le
  exact Usage.percentage_iff pid ((hs.usage pid).counted process hprocess) (by omega) hsmall

/-- A step that meets the condition keeps the law. -/
theorem percentages_next (hs : s.Inv) (hrows : s.Percentages) {event : MeterEvent} {later : Meter}
    (hnext : s.next event = some later) (hfits : s.TickFits event) : later.Percentages := by
  refine ⟨(hs.next hnext).rows, ?_⟩
  rcases tick_or_measured_eq hnext with ⟨rfl, rfl⟩ | hmeasured
  · refine hs.forall_measured_tick.mpr ⟨hrows.percentage, fun pid hpid process hprocess ↦ ?_⟩
    have hgained := (hs.usage pid).gained_le
    have hsmall := ((hfits pid hpid).rate_le (by omega)).1
    exact (hs.percentage_iff hprocess (by omega)).mpr (hfits pid hpid)
  · rw [hmeasured]
    exact hrows.percentage

/-- A step that does not meet the condition breaks the law, unless a product wraps. -/
theorem not_percentages_next (hs : s.Inv) {event : MeterEvent} {later : Meter}
    (hnext : s.next event = some later) (hlate : ¬ (s.TickSmall event → s.TickFits event)) :
    ¬ later.Percentages := by
  obtain ⟨hsmall, hnot⟩ := Classical.not_imp.mp hlate
  cases event with
  | tick =>
    cases hnext
    intro hlater
    refine hnot fun pid hpid ↦ ?_
    obtain ⟨process, hprocess⟩ := Option.isSome_iff_exists.mp (live_of_mem_sampledPids hpid)
    have hrow := (hs.forall_measured_tick.mp hlater.percentage).2 _ hpid process hprocess
    exact (hs.percentage_iff hprocess (hsmall _ hpid)).mp hrow
  | register pid => exact absurd trivial hnot
  | deregister pid => exact absurd trivial hnot
  | elapse lapse => exact absurd trivial hnot
  | fork pid => exact absurd trivial hnot
  | exit pid => exact absurd trivial hnot

end Inv

/-- In every run whose ticks come in time for the processes that they sample, every row that is
pushed is a percentage, of at most 100 times the ticks by the jiffies since the previous sample or
the registration. In a run in which every row is, every tick comes in time at which the products in
the code do not wrap. -/
theorem always_percentages (processes : Int32 → Option Process) (jiffies : ℕ)
    (events : List MeterEvent) :
    (Meets next TickFits (start processes jiffies) events →
      Always next Percentages (start processes jiffies) events) ∧
    (Always next Percentages (start processes jiffies) events →
      Meets next (fun s event ↦ s.TickSmall event → s.TickFits event) (start processes jiffies)
        events) := by
  have hstart := inv_start processes jiffies
  have hrows : (start processes jiffies).Percentages := ⟨hstart.rows, List.forall_mem_nil _⟩
  constructor
  · refine Meets.always (fun s : Meter ↦ s.Inv ∧ s.Percentages) (fun _ hs ↦ hs.2) ?_ ⟨hstart, hrows⟩
    intro s event later hs hnext hfits
    exact ⟨hs.1.next hnext, hs.1.percentages_next hs.2 hnext hfits⟩
  · refine Always.meets Inv ?_ ?_ hstart
    · exact fun s event later hs hnext _ ↦ hs.next hnext
    · exact fun s event later hs hnext hlate ↦ hs.not_percentages_next hnext hlate

/-- The process 7, which has counted nothing. -/
def idleProcess (pid : Int32) : Option Process := if pid = 7 then some ⟨0, 0, 0, 0⟩ else none

/-- Jiffies in which one process counts all ticks. -/
def busy (pid : Int32) (jiffies : ℕ) : Lapse where
  jiffies := jiffies
  gain other := if other = pid then ⟨0, 0, UInt64.ofNat jiffies, 0⟩ else ⟨0, 0, 0, 0⟩
  gain_le other := by
    split_ifs
    · rw [Process.ticks, UInt64.toNat_ofNat']
      exact Nat.mod_le jiffies (2 ^ 64)
    · exact Nat.zero_le jiffies

/-- A process that is registered and runs all the time is sampled after 20 jiffies. -/
theorem always_percentages_full_load : Always next Percentages (start idleProcess 0)
    [.register 7, .elapse (busy 7 20), .tick, .elapse (busy 7 20), .tick] :=
  (always_percentages _ _ _).1 (by decide +kernel)

/-- A process that is registered and runs all the time is sampled after 50 jiffies, and the row says
250 percent. -/
theorem always_percentages_late :
    ¬ ∀ (processes : Int32 → Option Process) (jiffies : ℕ) (events : List MeterEvent),
      Always next Percentages (start processes jiffies) events := by
  intro hall
  have hlate : ¬ Always next Percentages (start idleProcess 0)
      [.register 7, .elapse (busy 7 50), .tick] :=
    not_always_of_run (by decide +kernel)
  exact hlate (hall idleProcess 0 _)

end Meter

end KernelModules.FaultProfiler
