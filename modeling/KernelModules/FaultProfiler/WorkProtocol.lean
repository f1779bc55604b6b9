import KernelModules.FaultProfiler.FaultConservation
import KernelModules.FaultProfiler.SamplingTick
import KernelModules.FaultProfiler.StatusCommands
import KernelModules.FaultProfiler.WorkProcess

/-!
# Work processes under the profiler

Any number of processes of `work.c` beside the module, with whole operations in any order: a process
starts, hands its next command to the shell, which writes it to the status file, counts faults and
time, and exits behind its last command; the sampling work runs when it is queued and `lock` is
free. The commands of a process are those of a run of the program of `work.c`, and the module reads
them off the bytes that the shell writes. Pids are not reused.

`served_of_reachable` says what the module makes of them. It lists exactly the processes between
their two commands, and samples as long as there is one. A process that runs out of memory ends
without its second command and stays listed: that is what keeps a tick from being complete, and the
only way in which `lock` stays held.
-/

set_option autoImplicit false
set_option relaxedAutoImplicit false

namespace KernelModules.FaultProfiler

open Foundation

/-! ### The commands on their way -/

/-- The single quote. -/
def singleQuote : UInt8 := 39

/-- What the shell writes for `echo`: the quoted argument and a newline. -/
def shellWrites (command : Text) : Text :=
  (command.splitOn singleQuote).getD 1 [] ++ bytes "\n"

/-- The argument of a command that quotes it. -/
theorem shellWrites_quoted {argument : Text} (hquote : singleQuote ∉ argument) (rest : Text) :
    shellWrites (bytes "echo " ++ singleQuote :: (argument ++ singleQuote :: rest)) =
      argument ++ bytes "\n" := by
  rw [shellWrites, List.splitOn_append_cons_self_of_not_mem (by decide),
    List.splitOn_append_cons_self_of_not_mem hquote]
  rfl

/-- The line that comes to the status file. -/
def statusLine (letter : UInt8) (pid : UInt32) : Text :=
  letter :: blank :: (decimal pid.toNat ++ bytes "\n")

/-- A line is not empty. -/
theorem statusLine_ne_nil (letter : UInt8) (pid : UInt32) : statusLine letter pid ≠ [] :=
  List.cons_ne_nil _ _

/-- The shell writes the line of a command. -/
theorem shellWrites_statusCommand {letter : String} {c : UInt8} (hletter : bytes letter = [c])
    (hc : singleQuote ≠ c) (pid : UInt32) :
    shellWrites (statusCommand letter pid) = statusLine c pid := by
  have hquoted : statusCommand letter pid = bytes "echo " ++ singleQuote ::
      ((c :: blank :: decimal pid.toNat) ++ singleQuote :: bytes ">//proc/mp3/status") := by
    rw [statusCommand, hletter]
    simp only [List.append_assoc]
    rfl
  rw [hquoted, shellWrites_quoted]
  · rfl
  · simp only [List.mem_cons, not_or]
    exact ⟨hc, by decide, notMem_decimal (by decide) _⟩

/-- The pid is read off a line, with anything behind it. -/
theorem parsePid_statusLine {letter : UInt8} (hletter : letter ≠ blank) (hnul : letter ≠ 0)
    (pid : UInt32) (behind : Text) (initial : Int32) (op : UInt8) :
    parsePid initial op (some (cString (statusLine letter pid ++ behind))) =
      some pid.toInt32 := by
  have hstring : cString (statusLine letter pid ++ behind) =
      statusLine letter pid ++ cString behind := by
    refine cString_append ?_ behind
    simp only [statusLine, List.mem_cons, List.mem_append, not_or]
    exact ⟨hnul.symm, by decide, notMem_decimal (by decide) _, by decide⟩
  have hfirst : (statusLine letter pid ++ cString behind).splitOn blank =
      [letter] :: (decimal pid.toNat ++ bytes "\n" ++ cString behind).splitOn blank := by
    have hnot : blank ∉ [letter] := by simpa using hletter.symm
    exact List.splitOn_append_cons_self_of_not_mem hnot _
  have hline : ∀ c ∈ decimal pid.toNat ++ bytes "\n", decide (c ≠ blank) = true := by
    intro c hc
    rw [decide_eq_true_iff]
    rintro rfl
    rcases List.mem_append.mp hc with hc | hc
    · exact notMem_decimal (by decide) _ hc
    · exact absurd hc (by decide)
  have hread : scanI32 (decimal pid.toNat ++ bytes "\n" ++
      (cString behind).takeWhile (· ≠ blank)) = some pid.toInt32 := by
    have hnumber : scanNumber ([] ++ (decimal pid.toNat ++ (bytes "\n" ++
        (cString behind).takeWhile (· ≠ blank)))) = some pid.toNat := by
      refine scanNumber_decimal _ (fun _ hc ↦ absurd hc List.not_mem_nil) fun c hc ↦ ?_
      cases hc
      decide
    rw [List.nil_append, ← List.append_assoc] at hnumber
    rw [scanI32, scanU32, hnumber, Option.map_some, Option.map_some, UInt32.ofNat_toNat]
  rw [hstring, parsePid_eq, fieldsLeft, Option.elim_some, hfirst, splitOn_eq_cons,
    List.takeWhile_append_of_pos hline, List.getElem?_cons_succ, List.getElem?_cons_zero,
    Option.map_some, hread, Option.getD_some]

/-- The first command of a process registers it. -/
theorem mp3Write_register (pid : UInt32) (behind : Text) (initial : Int32) (s : Mp3) :
    (mp3Write (shellWrites (statusCommand "R" pid)) behind initial s).state =
      (s.taskRegister pid.toInt32).2 := by
  rw [shellWrites_statusCommand (c := byte 'R') rfl (by decide), mp3Write,
    if_neg (statusLine_ne_nil _ pid), mp3Parse, parsePid_statusLine (by decide) (by decide)]
  rfl

/-- The second command of a process deregisters it. -/
theorem mp3Write_deregister (pid : UInt32) (behind : Text) (initial : Int32) (s : Mp3) :
    (mp3Write (shellWrites (statusCommand "U" pid)) behind initial s).state =
      (s.taskDeregister pid.toInt32).2 := by
  rw [shellWrites_statusCommand (c := byte 'U') rfl (by decide), mp3Write,
    if_neg (statusLine_ne_nil _ pid), mp3Parse, parsePid_statusLine (by decide) (by decide)]
  rfl

/-! ### The machine -/

/-- A process of `work.c`: the commands that it hands to `system`, how many it has handed over, and
whether it lives. -/
structure WorkRecord where
  commands : List Text
  handed : ℕ
  live : Bool
  deriving DecidableEq

/-- The module, whether `lock` is held, and the processes that have started, by their pid. -/
structure Profiling where
  mp3 : Mp3
  locked : Bool
  records : UInt32 → Option WorkRecord

/-- What happens. A write goes along with the bytes behind the buffer of `mp3_write` and with what
its local variable holds. -/
inductive ProfilingEvent
  | start (pid : UInt32) (process : Process) (commands : List Text)
  | write (pid : UInt32) (behind : Text) (initial : Int32)
  | count (pid : UInt32) (increment : Process)
  | exit (pid : UInt32)
  | jiffies (now : UInt64)
  | tick

namespace Profiling

/-- The state after a change of a process and of its record. -/
def setRecord (s : Profiling) (pid : UInt32) (process : Option Process) (record : WorkRecord) :
    Profiling :=
  { s with
    mp3 := { s.mp3 with kernel := s.mp3.kernel.setProcess pid.toInt32 process }
    records := Function.update s.records pid (some record) }

/-- A command is written to the status file. -/
def handOver (s : Profiling) (pid : UInt32) (record : WorkRecord) (command behind : Text)
    (initial : Int32) : Profiling :=
  { s with
    mp3 := (mp3Write (shellWrites command) behind initial s.mp3).state
    records := Function.update s.records pid (some { record with handed := record.handed + 1 }) }

/-- The sampling work is taken from the queue and runs. -/
def tick (s : Profiling) : Profiling :=
  { s with
    mp3 := s.mp3.cancelDelayedWork.wqHandlerLocked.1
    locked := s.mp3.cancelDelayedWork.wqHandlerLocked.2 }

/-- The step. What takes `lock` waits while it is held. -/
def next (s : Profiling) : ProfilingEvent → Option Profiling
  | .start pid process commands =>
    if s.records pid = none then some (s.setRecord pid (some process) ⟨commands, 0, true⟩) else none
  | .write pid behind initial => do
    let record ← s.records pid
    let command ← record.commands[record.handed]?
    if record.live ∧ s.locked = false then
      return s.handOver pid record command behind initial
    else none
  | .count pid increment => do
    let record ← s.records pid
    let process ← s.mp3.kernel.processes pid.toInt32
    if record.live then return s.setRecord pid (some (process.gain increment)) record else none
  | .exit pid => do
    let record ← s.records pid
    if record.live ∧ record.handed = record.commands.length then
      return s.setRecord pid none { record with live := false }
    else none
  | .jiffies now =>
    some { s with mp3 := { s.mp3 with kernel := { s.mp3.kernel with jiffies := now } } }
  | .tick => if s.mp3.pending = true ∧ s.locked = false then some s.tick else none

/-- The module is loaded, and no process has started. -/
def start (processes : Int32 → Option Process) (now : UInt64) : Profiling :=
  ⟨⟨[], false, ⟨processes, now, taskListInit, [], []⟩⟩, false, fun _ ↦ none⟩

end Profiling

/-- A process that starts has the commands of the program of `work.c`, in which nothing is
undefined. -/
def ProfilingEvent.OfWork : ProfilingEvent → Prop
  | .start pid _ commands =>
    ∃ malloc args, EndsWithResult args ∧ commands = (workResult malloc pid args).commands
  | _ => True

/-! ### What one step keeps -/

/-- A pid of the module is that of one process. -/
theorem toInt32_inj {pid other : UInt32} (heq : pid.toInt32 = other.toInt32) : pid = other := by
  rw [← pid.toUInt32_toInt32, heq, other.toUInt32_toInt32]

/-- A listed task is listed under the pid of a process. -/
theorem Mp3.toInt32_mem_pids {s : Mp3} {task : Mp3TaskStruct} (htask : task ∈ s.tl) :
    task.pid.toUInt32.toInt32 ∈ s.pids := by
  rw [Int32.toInt32_toUInt32]
  exact List.mem_map_of_mem htask

/-- The loop of `wq_handler` ends no process and starts none. -/
theorem live_traverse (tl : List Mp3TaskStruct) (k : Kernel) :
    live (traverse tl k).kernel.processes = live k.processes := by
  ext pid
  rw [live, processes_traverse]
  split_ifs with hmem
  · obtain ⟨task, htask, rfl⟩ := List.mem_map.mp hmem
    exact (List.mem_takeWhile_imp htask).symm
  · rfl

/-- The work of a list that is not empty is queued, and only that. -/
def Mp3.Queued (s : Mp3) : Prop := s.pending = true ↔ s.tl ≠ []

/-- A registration of a new pid. -/
theorem Mp3.taskRegister_of_not_listed {s : Mp3} {pid : Int32} (hpid : pid ∉ s.pids)
    (hqueued : s.Queued) : (s.taskRegister pid).2.pids = s.pids ++ [pid] ∧
      (s.taskRegister pid).2.Queued := by
  have hlisted : ¬ s.listed pid = true := fun hlisted ↦ hpid ((s.listed_iff pid).mp hlisted)
  rw [taskRegister, if_neg hlisted]
  constructor
  · rw [pids_listAddTail, pids, tl_queueIfEmpty]
    rfl
  · refine iff_of_true ?_ (by simp)
    rw [listAddTail_pending, queueIfEmpty]
    split_ifs with hempty
    · rfl
    · exact hqueued.mpr fun heq ↦ hempty (by rw [heq]; rfl)

/-- A deregistration of a listed pid. -/
theorem Mp3.taskDeregister_of_listed {s : Mp3} {pid : Int32} (hpid : pid ∈ s.pids)
    (hqueued : s.Queued) : (s.taskDeregister pid).2.pids = s.pids.erase pid ∧
      (s.taskDeregister pid).2.Queued := by
  have htl : s.tl ≠ [] := by
    rintro heq
    rw [pids, heq] at hpid
    exact List.not_mem_nil hpid
  rw [taskDeregister, if_pos ((s.listed_iff pid).mpr hpid)]
  dsimp only
  split_ifs with hempty
  · refine ⟨s.pids_listDel pid, iff_of_false Bool.false_ne_true (not_not_intro ?_)⟩
    exact List.isEmpty_iff.mp hempty
  · refine ⟨s.pids_listDel pid, iff_of_true (hqueued.mpr htl) fun heq ↦ hempty ?_⟩
    rw [heq]
    rfl

/-- The commands of a process are those of `work.c`, and it has handed over no more. -/
def WorkRecord.Regular (record : WorkRecord) (pid : UInt32) : Prop :=
  (record.commands = [] ∨ record.commands = [statusCommand "R" pid] ∨
    record.commands = [statusCommand "R" pid, statusCommand "U" pid]) ∧
  record.handed ≤ record.commands.length ∧
  (record.live = false → record.handed = record.commands.length)

/-- The next command of a process is the one that registers it or the one that deregisters it. -/
theorem WorkRecord.Regular.command_cases {pid : UInt32} {record : WorkRecord}
    (hregular : record.Regular pid) {command : Text}
    (hcommand : record.commands[record.handed]? = some command) :
    (record.handed = 0 ∧ command = statusCommand "R" pid) ∨
      (record.handed = 1 ∧ command = statusCommand "U" pid) := by
  obtain ⟨handed, hhanded⟩ : ∃ handed, record.handed = handed := ⟨_, rfl⟩
  rw [hhanded] at hcommand ⊢
  rcases hregular.1 with hnone | hone | htwo
  · rw [hnone] at hcommand
    cases hcommand
  · rw [hone] at hcommand
    match handed, hcommand with
    | 0, hcommand => exact Or.inl ⟨rfl, (Option.some.inj hcommand).symm⟩
  · rw [htwo] at hcommand
    match handed, hcommand with
    | 0, hcommand => exact Or.inl ⟨rfl, (Option.some.inj hcommand).symm⟩
    | 1, hcommand => exact Or.inr ⟨rfl, (Option.some.inj hcommand).symm⟩

/-- The commands of a process. -/
theorem commands_workResult (malloc : ℕ → Option (ℕ → UInt8)) (pid : UInt32) (args : WorkArgs) :
    (workResult malloc pid args).commands = [] ∨
      (workResult malloc pid args).commands = [statusCommand "R" pid] ∨
        (workResult malloc pid args).commands = [statusCommand "R" pid, statusCommand "U" pid] := by
  unfold workResult
  split_ifs
  · exact Or.inr (Or.inr rfl)
  · exact Or.inr (Or.inl rfl)
  · exact Or.inl rfl

namespace Profiling

/-- What holds in every state: the list has the processes between their two commands, and the lock
is held only when one of them has exited. -/
structure Inv (s : Profiling) : Prop where
  regular : ∀ pid record, s.records pid = some record → record.Regular pid
  listed : ∀ pid, pid.toInt32 ∈ s.mp3.pids ↔ ∃ record, s.records pid = some record ∧
    record.handed = 1
  nodup : s.mp3.pids.Nodup
  live_eq : ∀ pid record, s.records pid = some record →
    live s.mp3.kernel.processes pid.toInt32 = record.live
  queued : s.locked = false → s.mp3.Queued
  held : s.locked = true → ∃ pid record, s.records pid = some record ∧ record.handed = 1 ∧
    record.live = false

namespace Inv

variable {s : Profiling}

/-- A process that changes no command keeps the invariant. -/
theorem setRecord (hs : s.Inv) {pid : UInt32} {process : Option Process} {record : WorkRecord}
    (hregular : record.Regular pid) (hlive : process.isSome = record.live)
    (hlisted : (∃ old, s.records pid = some old ∧ old.handed = 1) ↔ record.handed = 1)
    (hheld : ∀ old, s.records pid = some old → old.live = false → record.live = false) :
    (s.setRecord pid process record).Inv := by
  have hself : (s.setRecord pid process record).records pid = some record :=
    Function.update_self ..
  have hother : ∀ other, other ≠ pid → (s.setRecord pid process record).records other =
      s.records other := fun other hne ↦ Function.update_of_ne hne _ _
  constructor
  · intro other changed hchanged
    by_cases heq : other = pid
    · rw [heq, hself] at hchanged
      cases hchanged
      rw [heq]
      exact hregular
    · rw [hother other heq] at hchanged
      exact hs.regular other changed hchanged
  · intro other
    refine (hs.listed other).trans ?_
    by_cases heq : other = pid
    · rw [heq, hself, hlisted]
      simp
    · rw [hother other heq]
  · exact hs.nodup
  · intro other changed hchanged
    by_cases heq : other = pid
    · rw [heq, hself] at hchanged
      cases hchanged
      rw [heq, ← hlive, live]
      exact congrArg Option.isSome (Function.update_self ..)
    · rw [hother other heq] at hchanged
      rw [← hs.live_eq other changed hchanged, live, live]
      refine congrArg Option.isSome (Function.update_of_ne (fun hpids ↦ heq ?_) _ _)
      exact toInt32_inj hpids
  · exact hs.queued
  · intro hlocked
    obtain ⟨other, old, hold, hone, hdead⟩ := hs.held hlocked
    by_cases heq : other = pid
    · rw [heq] at hold
      exact ⟨pid, record, hself, hlisted.mp ⟨old, hold, hone⟩, hheld old hold hdead⟩
    · exact ⟨other, old, (hother other heq).trans hold, hone, hdead⟩

/-- What a command leaves of the list: the first one of a process registers it, and the second one
deregisters it. -/
theorem handOver_mp3 (hs : s.Inv) {pid : UInt32} {record : WorkRecord} {command behind : Text}
    {initial : Int32} (hrecord : s.records pid = some record)
    (hcommand : record.commands[record.handed]? = some command) (hfree : s.locked = false) :
    (∀ other : UInt32, other.toInt32 ∈ (s.handOver pid record command behind initial).mp3.pids ↔
        if other = pid then record.handed = 0 else other.toInt32 ∈ s.mp3.pids) ∧
      (s.handOver pid record command behind initial).mp3.kernel = s.mp3.kernel ∧
      (s.handOver pid record command behind initial).mp3.pids.Nodup ∧
      (s.handOver pid record command behind initial).mp3.Queued := by
  have hqueued := hs.queued hfree
  have hone : (∃ old, s.records pid = some old ∧ old.handed = 1) ↔ record.handed = 1 := by
    rw [hrecord]
    simp
  rcases (hs.regular pid record hrecord).command_cases hcommand with ⟨hzero, rfl⟩ | ⟨honce, rfl⟩
  · have hnew : pid.toInt32 ∉ s.mp3.pids := by
      rw [hs.listed pid, hone, hzero]
      exact zero_ne_one
    have hmp3 := mp3Write_register pid behind initial s.mp3
    obtain ⟨hpids, hqueue⟩ := Mp3.taskRegister_of_not_listed hnew hqueued
    unfold Profiling.handOver
    rw [hmp3, hpids]
    refine ⟨fun other ↦ ?_, s.mp3.kernel_taskRegister _, ?_, hqueue⟩
    · rw [List.mem_append, List.mem_singleton]
      split_ifs with heq
      · exact iff_of_true (Or.inr (congrArg UInt32.toInt32 heq)) hzero
      · exact or_iff_left fun hpid ↦ heq (toInt32_inj hpid)
    · exact List.nodup_append'.mpr ⟨hs.nodup, List.nodup_singleton _,
        List.disjoint_singleton.mpr hnew⟩
  · have hold : pid.toInt32 ∈ s.mp3.pids := (hs.listed pid).mpr (hone.mpr honce)
    have hmp3 := mp3Write_deregister pid behind initial s.mp3
    obtain ⟨hpids, hqueue⟩ := Mp3.taskDeregister_of_listed hold hqueued
    unfold Profiling.handOver
    rw [hmp3, hpids]
    refine ⟨fun other ↦ ?_, s.mp3.kernel_taskDeregister _, hs.nodup.erase _, hqueue⟩
    rw [hs.nodup.mem_erase_iff]
    split_ifs with heq
    · refine iff_of_false (fun hmem ↦ hmem.1 (congrArg UInt32.toInt32 heq)) ?_
      rw [honce]
      exact one_ne_zero
    · exact and_iff_right fun hpid ↦ heq (toInt32_inj hpid)

/-- A command that is handed over keeps the invariant. -/
theorem handOver (hs : s.Inv) {pid : UInt32} {record : WorkRecord} {command behind : Text}
    {initial : Int32} (hrecord : s.records pid = some record)
    (hcommand : record.commands[record.handed]? = some command) (hlive : record.live = true)
    (hfree : s.locked = false) : (s.handOver pid record command behind initial).Inv := by
  have hregular := hs.regular pid record hrecord
  have hself : (s.handOver pid record command behind initial).records pid =
      some { record with handed := record.handed + 1 } := Function.update_self ..
  have hother : ∀ other, other ≠ pid →
      (s.handOver pid record command behind initial).records other = s.records other :=
    fun other hne ↦ Function.update_of_ne hne _ _
  obtain ⟨hpids, hkernel, hnodup, hlater⟩ :=
    hs.handOver_mp3 hrecord hcommand hfree
  constructor
  · intro other changed hchanged
    by_cases heq : other = pid
    · rw [heq, hself] at hchanged
      cases hchanged
      obtain ⟨hbound, -⟩ := List.getElem?_eq_some_iff.mp hcommand
      rw [heq]
      refine ⟨hregular.1, hbound, fun hdead ↦ ?_⟩
      rw [hlive] at hdead
      cases hdead
    · rw [hother other heq] at hchanged
      exact hs.regular other changed hchanged
  · intro other
    refine (hpids other).trans ?_
    split_ifs with heq
    · rw [heq, hself]
      simp
    · rw [hother other heq, hs.listed other]
  · exact hnodup
  · intro other changed hchanged
    rw [hkernel]
    by_cases heq : other = pid
    · rw [heq, hself] at hchanged
      cases hchanged
      rw [heq]
      exact hs.live_eq pid record hrecord
    · rw [hother other heq] at hchanged
      exact hs.live_eq other changed hchanged
  · exact fun _ ↦ hlater
  · intro hlocked
    cases hfree.symm.trans hlocked

/-- A run of the sampling work keeps the invariant. -/
theorem tick (hs : s.Inv) (hpending : s.mp3.pending = true) (hfree : s.locked = false) :
    s.tick.Inv := by
  have hpids : s.tick.mp3.pids = s.mp3.pids := by
    change s.mp3.cancelDelayedWork.wqHandler.pids = s.mp3.pids
    unfold Mp3.wqHandler
    split_ifs
    · exact s.mp3.cancelDelayedWork.pids_sample
    · exact s.mp3.cancelDelayedWork.pids_sample
  have hlive : live s.tick.mp3.kernel.processes = live s.mp3.kernel.processes := by
    change live s.mp3.cancelDelayedWork.wqHandler.kernel.processes = live s.mp3.kernel.processes
    rw [Mp3.kernel_wqHandler]
    exact live_traverse s.mp3.tl s.mp3.kernel
  have hlocked : s.tick.locked = (traverse s.mp3.tl s.mp3.kernel).aborted := rfl
  constructor
  · exact hs.regular
  · intro pid
    rw [hpids]
    exact hs.listed pid
  · rw [hpids]
    exact hs.nodup
  · intro pid record hrecord
    rw [hlive]
    exact hs.live_eq pid record hrecord
  · intro hunlocked
    rw [hlocked] at hunlocked
    have htl : s.mp3.cancelDelayedWork.sample.tl ≠ [] := fun heq ↦
      ((hs.queued hfree).mp hpending) (s.mp3.cancelDelayedWork.tl_sample_eq_nil_iff.mp heq)
    have hnot : ¬ (traverse s.mp3.cancelDelayedWork.tl
        s.mp3.cancelDelayedWork.kernel).aborted = true := by
      rw [Mp3.cancelDelayedWork_tl, Mp3.cancelDelayedWork_kernel, hunlocked]
      exact Bool.false_ne_true
    change s.mp3.cancelDelayedWork.wqHandler.Queued
    rw [Mp3.wqHandler, if_neg hnot]
    exact iff_of_true rfl htl
  · intro hheld
    rw [hlocked] at hheld
    obtain ⟨task, htask, hnone⟩ := aborted_traverse hheld
    obtain ⟨record, hrecord, hone⟩ := (hs.listed _).mp (Mp3.toInt32_mem_pids htask)
    refine ⟨_, record, hrecord, hone, ?_⟩
    rw [← hs.live_eq _ record hrecord, Int32.toInt32_toUInt32, live, hnone]
    rfl

/-- Every step keeps the invariant. Assumes: a process that starts has the commands of `work.c`. -/
theorem next {later : Profiling} {event : ProfilingEvent} (hs : s.Inv) (hwork : event.OfWork)
    (hnext : s.next event = some later) : later.Inv := by
  cases event with
  | start pid process commands =>
    obtain ⟨hnone, hlater⟩ := Option.ite_none_right_eq_some.mp hnext
    obtain ⟨malloc, args, -, hcommands⟩ := hwork
    cases hlater
    refine hs.setRecord ⟨?_, Nat.zero_le _, fun hdead ↦ ?_⟩ rfl ?_ fun old hold ↦ ?_
    · rw [hcommands]
      exact commands_workResult malloc pid args
    · cases hdead
    · rw [hnone]
      simp
    · cases hnone.symm.trans hold
  | write pid behind initial =>
    obtain ⟨record, hrecord, hrest⟩ := Option.bind_eq_some_iff.mp hnext
    obtain ⟨command, hcommand, hrest⟩ := Option.bind_eq_some_iff.mp hrest
    obtain ⟨⟨hlive, hfree⟩, hlater⟩ := Option.ite_none_right_eq_some.mp hrest
    cases hlater
    exact hs.handOver hrecord hcommand hlive hfree
  | count pid increment =>
    obtain ⟨record, hrecord, hrest⟩ := Option.bind_eq_some_iff.mp hnext
    obtain ⟨process, -, hrest⟩ := Option.bind_eq_some_iff.mp hrest
    obtain ⟨hlive, hlater⟩ := Option.ite_none_right_eq_some.mp hrest
    cases hlater
    refine hs.setRecord (hs.regular pid record hrecord) hlive.symm ?_ fun old hold hdead ↦ ?_
    · rw [hrecord]
      simp
    · cases hrecord.symm.trans hold
      exact hdead
  | exit pid =>
    obtain ⟨record, hrecord, hrest⟩ := Option.bind_eq_some_iff.mp hnext
    obtain ⟨⟨-, hhanded⟩, hlater⟩ := Option.ite_none_right_eq_some.mp hrest
    cases hlater
    have hregular := hs.regular pid record hrecord
    refine hs.setRecord ⟨hregular.1, hregular.2.1, fun _ ↦ hhanded⟩ rfl ?_ fun _ _ _ ↦ rfl
    rw [hrecord]
    simp
  | jiffies now =>
    cases hnext
    exact ⟨hs.regular, hs.listed, hs.nodup, hs.live_eq, hs.queued, hs.held⟩
  | tick =>
    obtain ⟨⟨hpending, hfree⟩, hlater⟩ := Option.ite_none_right_eq_some.mp hnext
    cases hlater
    exact hs.tick hpending hfree

end Inv

/-! ### What the module makes of the processes -/

/-- A process is between its two commands. -/
def Between (s : Profiling) (pid : UInt32) (record : WorkRecord) : Prop :=
  s.records pid = some record ∧ record.handed = 1

/-- What holds of the module and its processes. The list has exactly the processes between their
two commands, each once, and while `lock` is free the work is queued as long as there is one. A tick
is complete unless one of them has exited, and `lock` stays held only for that. Such a process ran
out of memory: it has no second command. -/
structure Served (s : Profiling) : Prop where
  listed : ∀ pid : UInt32, pid.toInt32 ∈ s.mp3.pids ↔ ∃ record, s.Between pid record
  once : s.mp3.pids.Nodup
  sampled : s.locked = false →
    (s.mp3.pending = true ↔ ∃ pid record, s.Between pid record)
  complete : CompleteTick s.mp3.cancelDelayedWork ↔
    ∀ pid record, s.Between pid record → record.live = true
  held : s.locked = true → ∃ pid record, s.Between pid record ∧ record.live = false
  outOfMemory : ∀ pid record, s.Between pid record → record.live = false →
    record.commands = [statusCommand "R" pid]

/-- The start has no processes. -/
theorem inv_start (processes : Int32 → Option Process) (now : UInt64) :
    (start processes now).Inv where
  regular _ _ hrecord := by cases hrecord
  listed _ := iff_of_false List.not_mem_nil fun hsome ↦ (by cases hsome.choose_spec.1)
  nodup := List.nodup_nil
  live_eq _ _ hrecord := by cases hrecord
  queued _ := iff_of_false Bool.false_ne_true (not_not_intro rfl)
  held hlocked := by cases hlocked

/-- The invariant says what the module makes of the processes. -/
theorem Inv.served {s : Profiling} (hs : s.Inv) : s.Served where
  listed := hs.listed
  once := hs.nodup
  sampled hfree := by
    refine (hs.queued hfree).trans ⟨fun htl ↦ ?_, ?_⟩
    · obtain ⟨task, htask⟩ := List.exists_mem_of_ne_nil _ htl
      exact ⟨_, (hs.listed _).mp (Mp3.toInt32_mem_pids htask)⟩
    · rintro ⟨pid, hbetween⟩ htl
      have hmem := (hs.listed pid).mpr hbetween
      rw [Mp3.pids, htl] at hmem
      exact List.not_mem_nil hmem
  complete := by
    rw [completeTick_iff]
    constructor
    · intro hlive pid record hbetween
      obtain ⟨task, htask, hpid⟩ := List.mem_map.mp ((hs.listed pid).mpr ⟨record, hbetween⟩)
      rw [← hs.live_eq pid record hbetween.1, ← hpid]
      exact hlive task htask
    · intro hlive task htask
      obtain ⟨record, hbetween⟩ := (hs.listed _).mp (Mp3.toInt32_mem_pids htask)
      have heq := hs.live_eq _ record hbetween.1
      rw [Int32.toInt32_toUInt32, hlive _ record hbetween] at heq
      exact heq
  held hlocked := by
    obtain ⟨pid, record, hrecord, hone, hdead⟩ := hs.held hlocked
    exact ⟨pid, record, ⟨hrecord, hone⟩, hdead⟩
  outOfMemory pid record hbetween hdead := by
    obtain ⟨hcommands, -, hended⟩ := hs.regular pid record hbetween.1
    have hlength : record.commands.length = 1 := (hended hdead).symm.trans hbetween.2
    rcases hcommands with hnone | hone | htwo
    · rw [hnone] at hlength
      cases hlength
    · exact hone
    · rw [htwo] at hlength
      cases hlength

/-- In every run of work processes under the profiler, the module lists exactly the processes
between their two commands and samples as long as there is one, and only a process that ran out of
memory ever keeps a tick from being complete. -/
theorem served_of_reachable {processes : Int32 → Option Process} {now : UInt64} {s : Profiling}
    (hreach : ReachableUnder Profiling.next (fun _ event ↦ event.OfWork) (start processes now) s) :
    s.Served :=
  (hreach.invariant Inv (inv_start processes now) fun _ _ _ hs hwork hnext ↦
    hs.next hwork hnext).served

/-- The arguments for one block and one random access in an iteration. -/
def smallArgs : WorkArgs := ⟨4, 1, byte 'R', 1⟩

/-- A process out of memory has exited before the tick, and `lock` stays held. -/
theorem exists_served : ∃ s : Profiling, s.locked = true ∧
    s.mp3.pids = [(5 : UInt32).toInt32, (6 : UInt32).toInt32] ∧ s.Served := by
  have hends : EndsWithResult smallArgs := endsWithResult_of_fits fun _ ↦ Or.inl rfl
  have hstart : ∀ event ∈ [ProfilingEvent.start 5 ⟨0, 0, 0, 0⟩ [statusCommand "R" 5,
      statusCommand "U" 5], .start 6 ⟨0, 0, 0, 0⟩ [statusCommand "R" 6], .write 5 [] 0,
      .write 6 [] 0, .exit 6, .tick], event.OfWork := by
    intro event hevent
    simp only [List.mem_cons, List.not_mem_nil, or_false] at hevent
    rcases hevent with rfl | rfl | rfl | rfl | rfl | rfl
    · exact ⟨fun _ ↦ some fun _ ↦ 0, smallArgs, hends, by decide +kernel⟩
    · exact ⟨fun _ ↦ none, smallArgs, hends, by decide +kernel⟩
    all_goals exact trivial
  have hrun : ∃ s, ReachableUnder Profiling.next (fun _ event ↦ event.OfWork)
      (start (fun _ ↦ none) 0) s ∧ s.locked = true ∧
        s.mp3.pids = [(5 : UInt32).toInt32, (6 : UInt32).toInt32] :=
    exists_reachableUnder_of_run _ (meets_of_forall fun event hevent _ ↦ hstart event hevent)
      (by decide +kernel)
  obtain ⟨s, hreach, hlocked, hpids⟩ := hrun
  exact ⟨s, hlocked, hpids, served_of_reachable hreach⟩

end Profiling

end KernelModules.FaultProfiler
