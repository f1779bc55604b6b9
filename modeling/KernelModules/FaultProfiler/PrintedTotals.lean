import KernelModules.FaultProfiler.FaultConservation
import KernelModules.FaultProfiler.ProfilerAgreement
import KernelModules.FaultProfiler.SamplingTick

/-!
# From the counters to the printed rows

The whole way of a fault: a process counts it, `wq_handler` takes the count into a row,
`vmem_buf_push_next` stores the row in the buffer, and the monitor prints it. The operations of
`profiler.c` are whole and run in any order with processes that start, count and exit; then the
monitor runs for the first time.

As long as no more than 12000 rows were stored, the monitor prints them all in their order, and rows
of zeros behind them (`monitor_pushes`). So what it prints for a live process and what the process
still counts is everything that the process has counted (`printsTotals_of_reachable`). No process
has the pid -1, which is the mark of an empty row, and the rows of zeros are of no process but 0.
-/

set_option autoImplicit false
set_option relaxedAutoImplicit false

namespace KernelModules.FaultProfiler

open Foundation

/-! ### The first run of the monitor -/

/-- The session in which the samples were pushed and the monitor has not run. -/
def pushedSession (samples : List Sample) : Session :=
  ⟨samples.foldl vmemBufPushNext taskListInit, samples, samples, [], 0⟩

/-- Samples that fit leave an unread buffer. -/
theorem unread_pushedSession {samples : List Sample} (hpid : ∀ sample ∈ samples, sample.pid ≠ -1)
    (hroom : samples.length ≤ bufdRows) : Unread (pushedSession samples) := by
  induction samples using List.reverseRecOn with
  | nil => exact ⟨rfl, rfl, rfl, Nat.zero_le _, rfl, fun _ ↦ rfl, fun _ hmem ↦ hpid _ hmem⟩
  | append_singleton samples last ih =>
    rw [List.length_append, List.length_singleton] at hroom
    have hbefore : Unread (pushedSession samples) :=
      ih (fun sample hmem ↦ hpid sample (List.mem_append_left _ hmem)) (by omega)
    have hpush := hbefore.push (hpid last (by simp)) hroom
    have hsession : (pushedSession samples).push last = pushedSession (samples ++ [last]) := by
      rw [pushedSession, pushedSession, List.foldl_concat]
      rfl
    rwa [hsession] at hpush

/-- The first run of the monitor prints the stored rows, and rows of zeros behind them. -/
theorem monitor_pushes {samples : List Sample} (hpid : ∀ sample ∈ samples, sample.pid ≠ -1)
    (hroom : samples.length ≤ bufdRows) :
    (monitor (samples.foldl vmemBufPushNext taskListInit).vmemBuf).1 =
      samples.map Sample.row ++ List.replicate (bufdRows - samples.length) zeroRow := by
  have hunread := unread_pushedSession hpid hroom
  have hmonitor := congrArg Prod.fst hunread.monitor_eq
  refine hmonitor.trans (List.ext_getElem ?_ fun slot hslot hslot' ↦ ?_)
  · rw [List.length_map, List.length_range, List.length_append, List.length_map,
      List.length_replicate]
    omega
  · rw [List.getElem_map, List.getElem_range, hunread.rows]
    change ((samples[slot]?).map Sample.row).getD zeroRow = _
    by_cases hstored : slot < samples.length
    · rw [List.getElem_append_left (by rwa [List.length_map]), List.getElem_map,
        List.getElem?_eq_getElem hstored]
      rfl
    · rw [List.getElem_append_right (by rwa [List.length_map, ← not_lt]), List.getElem_replicate,
        List.getElem?_eq_none (not_lt.mp hstored)]
      rfl

/-! ### What the samples are -/

/-- No process starts with the pid -1. -/
def Event.PidInUse : Event → Prop
  | .fork pid _ => pid ≠ -1
  | _ => True

namespace Account

/-- The buffer holds the samples that were pushed, none of them of the pid -1. -/
structure Stored (s : Account) : Prop where
  profiler : s.mp3.kernel.profiler = s.mp3.kernel.pushed.foldl vmemBufPushNext taskListInit
  written : s.mp3.kernel.written = s.mp3.kernel.pushed.map Sample.row
  pid_ne : ∀ sample ∈ s.mp3.kernel.pushed, sample.pid ≠ -1
  unused : s.mp3.kernel.processes (-1) = none

/-- A sampling tick stores what it pushes. -/
theorem Stored.tick {s : Account} (hs : s.Stored) :
    Stored { s with mp3 := s.mp3.cancelDelayedWork.wqHandler } := by
  obtain ⟨hpushed, hprofiler⟩ := kernel_traverse s.mp3.tl s.mp3.kernel
  have hkernel : s.mp3.cancelDelayedWork.wqHandler.kernel =
      (traverse s.mp3.tl s.mp3.kernel).kernel := Mp3.kernel_wqHandler _
  have hdead : ¬ live s.mp3.kernel.processes (-1) = true := not_live_of_none hs.unused
  constructor
  · change s.mp3.cancelDelayedWork.wqHandler.kernel.profiler = _
    rw [hkernel, hprofiler, hpushed, List.foldl_append, hs.profiler]
  · change s.mp3.cancelDelayedWork.wqHandler.kernel.written = _
    rw [hkernel]
    exact written_traverse s.mp3.tl hs.written
  · intro sample hsample
    change sample ∈ s.mp3.cancelDelayedWork.wqHandler.kernel.pushed at hsample
    rw [hkernel, hpushed, List.mem_append] at hsample
    rcases hsample with hold | hnew
    · exact hs.pid_ne sample hold
    · intro heq
      have hpids := List.mem_map_of_mem (f := Sample.pid) hnew
      rw [pids_liveSamples, List.mem_filter, heq] at hpids
      exact hdead hpids.2
  · change s.mp3.cancelDelayedWork.wqHandler.kernel.processes (-1) = none
    rw [hkernel, processes_traverse, if_neg, hs.unused]
    intro hmem
    obtain ⟨task, htask, hpid⟩ := List.mem_map.mp hmem
    have hlive := List.mem_takeWhile_imp htask
    beta_reduce at hlive
    rw [hpid] at hlive
    exact hdead hlive

/-- A change of a process other than -1 stores nothing. -/
theorem Stored.setProcess {s : Account} (hs : s.Stored) {pid : Int32} {process : Option Process}
    (hpid : pid = -1 → process = none) (gained : Int32 → List Process) :
    Stored { s.setProcess pid process with gained := gained } where
  profiler := hs.profiler
  written := hs.written
  pid_ne := hs.pid_ne
  unused := by
    change Function.update s.mp3.kernel.processes pid process (-1) = none
    by_cases heq : pid = -1
    · rw [heq, Function.update_self, hpid heq]
    · rw [Function.update_of_ne (Ne.symm heq), hs.unused]

/-- Every step stores what it pushes. -/
theorem Stored.next {s later : Account} {event : Event} (hs : s.Stored) (hevent : event.PidInUse)
    (hnext : s.next event = some later) : later.Stored := by
  cases event with
  | register pid =>
    cases hnext
    have hkernel := s.mp3.kernel_taskRegister pid
    exact ⟨hkernel ▸ hs.profiler, hkernel ▸ hs.written, hkernel ▸ hs.pid_ne, hkernel ▸ hs.unused⟩
  | deregister pid =>
    cases hnext
    have hkernel := s.mp3.kernel_taskDeregister pid
    exact ⟨hkernel ▸ hs.profiler, hkernel ▸ hs.written, hkernel ▸ hs.pid_ne, hkernel ▸ hs.unused⟩
  | tick =>
    cases hnext
    exact hs.tick
  | jiffies now =>
    cases hnext
    exact ⟨hs.profiler, hs.written, hs.pid_ne, hs.unused⟩
  | fork pid process =>
    obtain ⟨-, hlater⟩ := Option.ite_none_right_eq_some.mp hnext
    cases hlater
    exact hs.setProcess (fun heq ↦ absurd heq hevent) _
  | exit pid =>
    cases hnext
    exact hs.setProcess (fun _ ↦ rfl) s.gained
  | count pid increment =>
    obtain ⟨process, hprocess, rfl⟩ := Option.map_eq_some_iff.mp hnext
    refine hs.setProcess (fun heq ↦ ?_) _
    rw [heq, hs.unused] at hprocess
    cases hprocess

/-! ### What is printed -/

/-- The rows that the first run of the monitor prints for a pid. -/
def printed (s : Account) (pid : Int32) : List Row :=
  (monitor s.mp3.kernel.profiler.vmemBuf).1.filter fun row ↦ row.pid = pid.toInt64

/-- What the first run of the monitor prints: the rows of all samples in their order, and rows of
zeros behind them. For every live process but 0, the rows printed for it and what it still counts
are all that it has counted, in every counter that does not wrap. -/
structure PrintsTotals (s : Account) : Prop where
  rows : (monitor s.mp3.kernel.profiler.vmemBuf).1 = s.mp3.kernel.pushed.map Sample.row ++
    List.replicate (bufdRows - s.mp3.kernel.pushed.length) zeroRow
  totals : ∀ pid process, pid ≠ 0 → s.mp3.kernel.processes pid = some process →
    ∀ counter : Counter, counter.total (s.gained pid) < counter.limit →
      counter.reported (s.printed pid) + counter.weight * counter.count process =
        counter.weight * counter.total (s.gained pid)

/-- The rows of zeros are not of another pid than 0. -/
theorem printed_eq {s : Account}
    (hwritten : s.mp3.kernel.written = s.mp3.kernel.pushed.map Sample.row)
    (hrows : (monitor s.mp3.kernel.profiler.vmemBuf).1 =
      s.mp3.kernel.pushed.map Sample.row ++
        List.replicate (bufdRows - s.mp3.kernel.pushed.length) zeroRow) {pid : Int32}
    (hpid : pid ≠ 0) : s.printed pid = s.mp3.kernel.rows pid := by
  have hzero : ¬ zeroRow.pid = pid.toInt64 := by
    intro heq
    refine hpid (Int32.toInt_inj.mp ?_)
    rw [← Int32.toInt_toInt64 pid, ← heq]
    rfl
  have hnone : (List.replicate (bufdRows - s.mp3.kernel.pushed.length) zeroRow).filter
      (fun row ↦ row.pid = pid.toInt64) = [] := by
    refine List.filter_eq_nil_iff.mpr fun row hrow ↦ ?_
    rw [List.eq_of_mem_replicate hrow]
    simpa using hzero
  rw [printed, hrows, List.filter_append, hnone, List.append_nil, Kernel.rows, hwritten]

/-- After every run of the profiler beside the processes with at most 12000 samples, the first run
of the monitor prints every sample, and what it prints for a live process and what the process still
counts is all that the process has counted. Assumes: no process has the pid -1. -/
theorem printsTotals_of_reachable {processes : Int32 → Option Process} {jiffies : UInt64}
    {s : Account} (hunused : processes (-1) = none)
    (hreach : ReachableUnder Account.next (fun _ event ↦ event.PidInUse)
      (start processes jiffies) s)
    (hroom : s.mp3.kernel.pushed.length ≤ bufdRows) : s.PrintsTotals := by
  have hstart : (start processes jiffies).Stored :=
    ⟨rfl, rfl, fun _ hmem ↦ absurd hmem List.not_mem_nil, hunused⟩
  have hstored : s.Stored := hreach.invariant Stored hstart fun _ _ _ hs hevent hnext ↦
    hs.next hevent hnext
  have hrows := monitor_pushes hstored.pid_ne hroom
  rw [← hstored.profiler] at hrows
  refine ⟨hrows, fun pid process hpid hlive counter hlimit ↦ ?_⟩
  rw [printed_eq hstored.written hrows hpid]
  exact reported_add_count (hreach.mono fun _ _ _ ↦ trivial) hlive counter hlimit

/-- Two processes are sampled between their faults. -/
theorem exists_printsTotals : ∃ s : Account, s.mp3.kernel.pushed.length = 2 ∧
    s.mp3.kernel.processes 5 = some ⟨3, 0, 0, 0⟩ ∧ s.PrintsTotals := by
  have hrun : ∃ s, ReachableUnder Account.next (fun _ event ↦ event.PidInUse)
      (start (fun _ ↦ none) 0) s ∧ s.mp3.kernel.pushed.length = 2 ∧
        s.mp3.kernel.processes 5 = some ⟨3, 0, 0, 0⟩ := by
    refine exists_reachableUnder_of_run [.fork 5 ⟨0, 0, 0, 0⟩, .fork 6 ⟨0, 0, 0, 0⟩, .register 5,
      .register 6, .count 5 ⟨7, 1, 2, 0⟩, .tick, .count 5 ⟨3, 0, 0, 0⟩] ?_ (by decide +kernel)
    refine meets_of_forall fun event hevent _ ↦ ?_
    simp only [List.mem_cons, List.not_mem_nil, or_false] at hevent
    rcases hevent with rfl | rfl | rfl | rfl | rfl | rfl | rfl
    · exact show (5 : Int32) ≠ -1 by decide
    · exact show (6 : Int32) ≠ -1 by decide
    all_goals exact trivial
  obtain ⟨s, hreach, hlength, hprocess⟩ := hrun
  exact ⟨s, hlength, hprocess, printsTotals_of_reachable rfl hreach (by rw [hlength]; decide)⟩

end Account

end KernelModules.FaultProfiler
