import KernelModules.RateMonotonic.RateMonotonicChoice
import KernelModules.RateMonotonic.StatusCommands

/-!
# User processes of the scheduler

Any number of processes of `userapp.c` beside the module. A process registers, yields once and
after each of its periods, and deregisters; its commands come to the module as the bytes that the
shell writes to `/proc/mp2/status`. Between them timers expire and the dispatching thread runs, in
any order. Operations are whole, with lock calls that are always granted, and pids are not reused.

`tidy_of_reachable` says that no process leaves anything behind. Whatever was refused on the way,
`total_util` is the sum of the shares of processes between their registration and their
deregistration, and when all processes have come to their end the scheduler is as after
`mp2_init`: no task, no current task and no utilisation.
-/

set_option autoImplicit false
set_option relaxedAutoImplicit false

namespace KernelModules.RateMonotonic

open Foundation Scheduler

/-! ### The commands of a process -/

/-- The commands that the main function of `userapp.c` hands to the shell, in their order. -/
def userappCommands (pid period procTime : UInt32) (numOfPeriod : ℕ) : List Text :=
  registerProcess pid period procTime ::
    (List.replicate (numOfPeriod + 1) (yieldProcess pid) ++ [deregisterProcess pid])

/-- A process of `userapp.c`: its arguments, and how many commands it has handed over. -/
structure UserRecord where
  period : UInt32
  procTime : UInt32
  numOfPeriod : ℕ
  handed : ℕ

namespace UserRecord

/-- The commands of the process. -/
def commands (record : UserRecord) (pid : UInt32) : List Text :=
  userappCommands pid record.period record.procTime record.numOfPeriod

/-- The process has registered and not deregistered. -/
def Between (record : UserRecord) : Prop :=
  1 ≤ record.handed ∧ record.handed < record.numOfPeriod + 3

/-- The process has handed over all of its commands. -/
def Ended (record : UserRecord) : Prop := record.handed = record.numOfPeriod + 3

/-- The utilisation that the process asks for. -/
def share (record : UserRecord) : UInt64 :=
  RateMonotonic.share record.procTime.toUInt64 record.period.toUInt64

/-- The next command is the registration, a yield or the deregistration. -/
theorem command_cases {record : UserRecord} {pid : UInt32} {command : Text}
    (hcommand : (record.commands pid)[record.handed]? = some command) :
    (record.handed = 0 ∧ command = registerProcess pid record.period record.procTime) ∨
      (1 ≤ record.handed ∧ record.handed < record.numOfPeriod + 2 ∧ command = yieldProcess pid) ∨
      (record.handed = record.numOfPeriod + 2 ∧ command = deregisterProcess pid) := by
  unfold commands userappCommands at hcommand
  rcases Nat.eq_zero_or_eq_succ_pred record.handed with hzero | hsucc
  · rw [hzero] at hcommand
    exact Or.inl ⟨hzero, (Option.some.inj hcommand).symm⟩
  · right
    rw [hsucc, Nat.succ_eq_add_one, List.getElem?_cons_succ] at hcommand
    by_cases hyield : record.handed.pred < record.numOfPeriod + 1
    · rw [List.getElem?_append_left (by rwa [List.length_replicate]),
        List.getElem?_replicate_of_lt hyield] at hcommand
      exact Or.inl ⟨by omega, by omega, (Option.some.inj hcommand).symm⟩
    · have hlength : (List.replicate (record.numOfPeriod + 1) (yieldProcess pid)).length ≤
          record.handed.pred := by
        rw [List.length_replicate]
        omega
      rw [List.getElem?_append_right hlength, List.length_replicate,
        List.getElem?_singleton] at hcommand
      split_ifs at hcommand with hlast
      exact Or.inr ⟨by omega, (Option.some.inj hcommand).symm⟩

end UserRecord

/-! ### The machine -/

/-- The scheduler, and the processes that have started by their pid. -/
structure UserSystem where
  scheduler : Scheduler
  records : UInt32 → Option UserRecord

/-- What happens. A write goes along with the bytes behind the buffer of `mp2_write`, with what its
local variables hold, with the processes that `find_task_by_pid` finds and with the time. -/
inductive UserEvent
  | start (pid period procTime : UInt32) (numOfPeriod : ℕ)
  | write (pid : UInt32) (behind : Text) (locals : Locals) (processes : UInt32 → Option LinuxTask)
      (now : UInt64)
  | timer (data : UInt32)
  | dispatch

namespace UserSystem

/-- A command is written to the status file. -/
def handOver (platform : Platform) (s : UserSystem) (pid : UInt32) (record : UserRecord)
    (command behind : Text) (locals : Locals) (processes : UInt32 → Option LinuxTask)
    (now : UInt64) : UserSystem where
  scheduler := (mp2Write platform processes now (echoed command) behind locals s.scheduler).state
  records := Function.update s.records pid (some { record with handed := record.handed + 1 })

/-- The step of the machine. -/
def next (platform : Platform) (s : UserSystem) : UserEvent → Option UserSystem
  | .start pid period procTime numOfPeriod =>
    if (s.records pid).isNone then
      some { s with
        records := Function.update s.records pid (some ⟨period, procTime, numOfPeriod, 0⟩) }
    else none
  | .write pid behind locals processes now => do
    let record ← s.records pid
    let command ← (record.commands pid)[record.handed]?
    return s.handOver platform pid record command behind locals processes now
  | .timer data => some { s with scheduler := mp2TimerCallback data s.scheduler }
  | .dispatch => some { s with scheduler := (dispachingIteration s.scheduler).state }

/-- The module is loaded, and no process has started. -/
def start (slab : Addr → Mp2TaskStruct) : UserSystem := ⟨mp2Init slab, fun _ ↦ none⟩

end UserSystem

/-! ### What a write does -/

/-- A write leaves the state of its operation. -/
theorem WriteResult.state_ofResult (count : ℕ) (r : Result) :
    (WriteResult.ofResult count r).state = r.state := by
  unfold WriteResult.ofResult
  cases r.outcome <;> rfl

/-- A write of a command carries it out. -/
theorem state_mp2Write {platform : Platform} {processes : UInt32 → Option LinuxTask} {now : UInt64}
    {written behind : Text} {locals : Locals} {s : Scheduler} {command : Command}
    (hwritten : written ≠ [])
    (hparse : mp2Parse (written ++ behind) locals = .command command) :
    (mp2Write platform processes now written behind locals s).state =
      (exec platform (command.op processes now) s).state := by
  rw [mp2Write, if_neg hwritten, hparse]
  exact WriteResult.state_ofResult _ _

/-- What is echoed is not empty. -/
theorem echoed_ne_nil (command : Text) : echoed command ≠ [] :=
  List.append_ne_nil_of_right_ne_nil _ (by decide)

/-! ### What one step keeps -/

namespace UserSystem

/-- Every reservation is that of a process between its registration and its deregistration. -/
def Backed (records : UInt32 → Option UserRecord) (ledger : Ledger UInt32 726663) : Prop :=
  ∀ entry ∈ ledger.entries, ∃ record, records entry.1 = some record ∧ record.Between ∧
    entry.2 = record.share.toNat

/-- A process goes on. Assumes: its reservation, if there is one, is still its own. -/
theorem Backed.update {records : UInt32 → Option UserRecord} {ledger later : Ledger UInt32 726663}
    (hbacked : Backed records ledger) {pid : UInt32} {record : UserRecord}
    (hentries : ∀ entry ∈ later.entries, (entry ∈ ledger.entries ∧ entry.1 ≠ pid) ∨
      (entry.1 = pid ∧ record.Between ∧ entry.2 = record.share.toNat)) :
    Backed (Function.update records pid (some record)) later := by
  intro entry hentry
  rcases hentries entry hentry with ⟨hold, hne⟩ | ⟨heq, hbetween, hshare⟩
  · rw [Function.update_of_ne hne]
    exact hbacked entry hold
  · rw [heq, Function.update_self]
    exact ⟨record, rfl, hbetween, hshare⟩

/-- The scheduler is backed by a ledger whose reservations are those of processes. -/
def Inv (s : UserSystem) : Prop :=
  CtListed s.scheduler ∧ ∃ ledger, Refines s.scheduler ledger ∧ Backed s.records ledger

/-- An operation that takes and gives no reservation keeps the invariant. -/
theorem Inv.exec {s : UserSystem} (hs : s.Inv) (platform : Platform) {op : Op}
    (hop : ∀ ledger, ledgerStep op ledger = ledger) :
    Inv ⟨(RateMonotonic.exec platform op s.scheduler).state, s.records⟩ := by
  obtain ⟨hct, ledger, hledger, hbacked⟩ := hs
  refine ⟨ctListed_exec hledger hct platform op, ledger, ?_, hbacked⟩
  have hlater := refines_exec hledger platform op
  rwa [hop] at hlater

/-- A command that is handed over keeps the invariant. -/
theorem Inv.handOver {s : UserSystem} (hs : s.Inv) {platform : Platform} {pid : UInt32}
    {record : UserRecord} {command behind : Text} {locals : Locals}
    {processes : UInt32 → Option LinuxTask} {now : UInt64} (hrecord : s.records pid = some record)
    (hcommand : (record.commands pid)[record.handed]? = some command) :
    (s.handOver platform pid record command behind locals processes now).Inv := by
  obtain ⟨hct, ledger, hledger, hbacked⟩ := hs
  -- what remains after the command is read is what its operation does to the ledger
  have hkeeps : ∀ read : Command, mp2Parse (echoed command ++ behind) locals = .command read →
      (∀ entry ∈ (ledgerStep (read.op processes now) ledger).entries,
        (entry ∈ ledger.entries ∧ entry.1 ≠ pid) ∨ (entry.1 = pid ∧
          UserRecord.Between { record with handed := record.handed + 1 } ∧
            entry.2 = record.share.toNat)) →
        (s.handOver platform pid record command behind locals processes now).Inv := by
    intro read hparse hentries
    unfold UserSystem.handOver
    rw [state_mp2Write (echoed_ne_nil command) hparse]
    exact ⟨ctListed_exec hledger hct platform _, _, refines_exec hledger platform _,
      hbacked.update hentries⟩
  have hown : ∀ entry ∈ ledger.entries, entry.1 = pid →
      record.Between ∧ entry.2 = record.share.toNat := by
    intro entry hentry heq
    obtain ⟨other, hother, hbetween, hshare⟩ := hbacked entry hentry
    rw [heq, hrecord] at hother
    cases hother
    exact ⟨hbetween, hshare⟩
  rcases record.command_cases hcommand with ⟨hzero, rfl⟩ | ⟨hlow, hhigh, rfl⟩ | ⟨hlast, rfl⟩
  · refine hkeeps _ (mp2Parse_echoed pid record.period record.procTime behind locals).1 ?_
    intro entry hentry
    have hold : entry ∈ ledger.entries → entry ∈ ledger.entries ∧ entry.1 ≠ pid := by
      refine fun hmem ↦ ⟨hmem, fun heq ↦ ?_⟩
      have hbetween := (hown entry hmem heq).1.1
      omega
    simp only [Command.op, ledgerStep] at hentry
    split_ifs at hentry with hperiod
    · exact Or.inl (hold hentry)
    · rcases Ledger.mem_entries_reserve hentry with hmem | rfl
      · exact Or.inl (hold hmem)
      · refine Or.inr ⟨rfl, ⟨Nat.le_add_left 1 _, ?_⟩, rfl⟩
        change record.handed + 1 < record.numOfPeriod + 3
        omega
  · refine hkeeps _ (mp2Parse_echoed pid 0 0 behind locals).2.1 fun entry hentry ↦ ?_
    by_cases heq : entry.1 = pid
    · refine Or.inr ⟨heq, ⟨Nat.le_add_left 1 _, ?_⟩, (hown entry hentry heq).2⟩
      change record.handed + 1 < record.numOfPeriod + 3
      omega
    · exact Or.inl ⟨hentry, heq⟩
  · refine hkeeps _ (mp2Parse_echoed pid 0 0 behind locals).2.2 fun entry hentry ↦ ?_
    exact Or.inl (Ledger.mem_entries_release hentry)

/-- Every step keeps the invariant. -/
theorem Inv.next {platform : Platform} {s later : UserSystem} {event : UserEvent} (hs : s.Inv)
    (hnext : s.next platform event = some later) : later.Inv := by
  cases event with
  | start pid period procTime numOfPeriod =>
    obtain ⟨hnone, hlater⟩ := Option.ite_none_right_eq_some.mp hnext
    obtain ⟨hct, ledger, hledger, hbacked⟩ := hs
    cases hlater
    refine ⟨hct, ledger, hledger, hbacked.update fun entry hentry ↦ Or.inl ⟨hentry, ?_⟩⟩
    rintro rfl
    obtain ⟨record, hrecord, -⟩ := hbacked entry hentry
    rw [Option.isNone_iff_eq_none, hrecord] at hnone
    cases hnone
  | write pid behind locals processes now =>
    obtain ⟨record, hrecord, hrest⟩ := Option.bind_eq_some_iff.mp hnext
    obtain ⟨command, hcommand, hlater⟩ := Option.bind_eq_some_iff.mp hrest
    cases hlater
    exact hs.handOver hrecord hcommand
  | timer data =>
    cases hnext
    have hlater : Inv ⟨(RateMonotonic.exec platform (.timer data) s.scheduler).state, s.records⟩ :=
      hs.exec platform fun _ ↦ rfl
    exact hlater
  | dispatch =>
    cases hnext
    have hlater : Inv ⟨(RateMonotonic.exec platform .dispatch s.scheduler).state, s.records⟩ :=
      hs.exec platform fun _ ↦ rfl
    exact hlater

/-! ### What the processes leave -/

/-- What holds of the scheduler and its processes. The listed tasks are those of processes between
their registration and their deregistration, each once and with the share that it asked for, and
`total_util` is their sum. When all processes have ended nothing is left. -/
structure Tidy (s : UserSystem) : Prop where
  listed : ∀ a ∈ s.scheduler.tl, ∃ record, s.records (s.scheduler.slab a).pid = some record ∧
    record.Between ∧ (s.scheduler.slab a).share = record.share
  once : (s.scheduler.tl.map fun a ↦ (s.scheduler.slab a).pid).Nodup
  total : s.scheduler.totalUtil.toNat =
    (s.scheduler.tl.map fun a ↦ (s.scheduler.slab a).share.toNat).sum
  idle : (∀ pid record, s.records pid = some record → record.Ended) →
    s.scheduler.tl = [] ∧ s.scheduler.ct = none ∧ s.scheduler.totalUtil = 0

/-- The invariant says what the processes leave. -/
theorem Inv.tidy {s : UserSystem} (hs : s.Inv) : s.Tidy := by
  obtain ⟨hct, ledger, hledger, hbacked⟩ := hs
  have hlisted : ∀ a ∈ s.scheduler.tl, ∃ record,
      s.records (s.scheduler.slab a).pid = some record ∧ record.Between ∧
        (s.scheduler.slab a).share = record.share := by
    intro a ha
    have hentry : ((s.scheduler.slab a).pid, (s.scheduler.slab a).share.toNat) ∈ ledger.entries :=
      hledger.entries ▸ List.mem_map.mpr ⟨a, ha, rfl⟩
    obtain ⟨record, hrecord, hbetween, hshare⟩ := hbacked _ hentry
    exact ⟨record, hrecord, hbetween, UInt64.toNat_inj.mp hshare⟩
  refine ⟨hlisted, hledger.pids_nodup, hledger.sum_shares, fun hended ↦ ?_⟩
  have htl : s.scheduler.tl = [] := by
    refine List.eq_nil_iff_forall_not_mem.mpr fun a ha ↦ ?_
    obtain ⟨record, hrecord, hbetween, -⟩ := hlisted a ha
    exact hbetween.2.ne (hended _ record hrecord)
  refine ⟨htl, Option.eq_none_iff_forall_ne_some.mpr fun cur hcur ↦ ?_, ?_⟩
  · have hmem := (hct cur hcur).1
    rw [htl] at hmem
    exact List.not_mem_nil hmem
  · refine UInt64.toNat_inj.mp ?_
    rw [hledger.sum_shares, htl]
    rfl

/-- In every run of the processes, with timers and dispatches in any order, `total_util` is the sum
of the shares of the processes between their registration and their deregistration, and when all
have ended the scheduler is empty. -/
theorem tidy_of_reachable {platform : Platform} {slab : Addr → Mp2TaskStruct} {s : UserSystem}
    (hreach : Reachable (UserSystem.next platform) (start slab) s) : s.Tidy := by
  have hstart : (start slab).Inv := by
    refine ⟨fun _ hcur ↦ ?_, _, refines_mp2Init slab, fun _ hentry ↦ ?_⟩
    · cases hcur
    · cases hentry
  exact (hreach.invariant Inv hstart fun _ _ _ hs _ hnext ↦ hs.next hnext).tidy

/-- A process has registered and yielded once. -/
theorem exists_tidy : ∃ s : UserSystem, (s.records 7).map UserRecord.handed = some 2 ∧
    s.scheduler.totalUtil = 104857 ∧ s.Tidy := by
  have hrun : ∃ s, Reachable (UserSystem.next platformHz1000) (start zeroSlab) s ∧
      (s.records 7).map UserRecord.handed = some 2 ∧ s.scheduler.totalUtil = 104857 :=
    exists_reachableUnder_of_run [.start 7 100 10 1, .write 7 [] ⟨0, 0, 0⟩ (fun _ ↦ some 7) 0,
      .dispatch, .write 7 [] ⟨0, 0, 0⟩ (fun _ ↦ some 7) 0] (by decide +kernel) (by decide +kernel)
  obtain ⟨s, hreach, hhanded, htotal⟩ := hrun
  exact ⟨s, hhanded, htotal, tidy_of_reachable hreach⟩

end UserSystem

end KernelModules.RateMonotonic
