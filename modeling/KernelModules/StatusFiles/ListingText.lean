import KernelModules.FaultProfiler.MonitorDrain
import KernelModules.Foundation.DelimitedText
import KernelModules.StatusFiles.StatusReaders

/-!
# What the printed texts tell

The listings of the status files and the text that the monitor prints are for programs that read
them: the scripts that plot the samples, and the processes that look up what is registered. Each
text tells every number that was printed into it, in its place (`texts_determine`): no two lists of
different numbers have the same text.
-/

set_option autoImplicit false
set_option relaxedAutoImplicit false

namespace KernelModules.StatusFiles

open Foundation

/-! ### Numbers with a sign -/

/-- The text of a number has no other bytes than digits and the sign. -/
theorem notMem_signedDecimal {c : UInt8} (hc : isDigit c = false) (hsign : c ≠ byte '-')
    (value : ℤ) : c ∉ signedDecimal value := by
  unfold signedDecimal
  split_ifs with hneg
  · rw [List.mem_append, not_or]
    refine ⟨fun hmem ↦ hsign ?_, notMem_decimal hc _⟩
    exact List.mem_singleton.mp hmem
  · exact notMem_decimal hc _

/-- A number with a sign is determined by its text. -/
theorem signedDecimal_eq_iff {value other : ℤ} :
    signedDecimal value = signedDecimal other ↔ value = other := by
  refine ⟨fun heq ↦ ?_, fun heq ↦ by rw [heq]⟩
  have hsign : ∀ (n m : ℕ), bytes "-" ++ decimal n ≠ decimal m := by
    intro n m hsame
    have hmem : byte '-' ∈ decimal m := hsame ▸ List.mem_append_left _ List.mem_cons_self
    exact notMem_decimal (by decide) m hmem
  unfold signedDecimal at heq
  split_ifs at heq with hvalue hother hother
  · have habs := decimal_eq_iff.mp (List.append_cancel_left heq)
    omega
  · exact absurd heq (hsign _ _)
  · exact absurd heq.symm (hsign _ _)
  · have habs := decimal_eq_iff.mp heq
    omega

/-! ### The text of the monitor -/

/-- `"%ld "` three times and `"%ld\n"`, without the newline. -/
def rowText (row : FaultProfiler.Row) : Text :=
  signedDecimal row.pid.toInt ++ byte ' ' :: (signedDecimal row.minor.toInt ++ byte ' ' ::
    (signedDecimal row.major.toInt ++ byte ' ' :: signedDecimal row.util.toInt))

/-- `"read %d profiled data\n"`, of an `int`. -/
def countText (count : Int32) : Text :=
  bytes "read " ++ signedDecimal count.toInt ++ bytes " profiled data\n"

/-- What the monitor prints: its rows, and their number. -/
def monitorText (rows : List FaultProfiler.Row) : Text :=
  (rows.flatMap fun row ↦ rowText row ++ bytes "\n") ++ countText (Int32.ofNat rows.length)

/-- A row is determined by its text. -/
theorem rowText_eq_iff {row other : FaultProfiler.Row} :
    rowText row = rowText other ↔ row = other := by
  have hblank := notMem_signedDecimal (c := byte ' ') (by decide) (by decide)
  unfold rowText
  rw [append_cons_eq_iff (hblank _) (hblank _), append_cons_eq_iff (hblank _) (hblank _),
    append_cons_eq_iff (hblank _) (hblank _), signedDecimal_eq_iff, signedDecimal_eq_iff,
    signedDecimal_eq_iff, signedDecimal_eq_iff, Int64.toInt_inj, Int64.toInt_inj, Int64.toInt_inj,
    Int64.toInt_inj]
  cases row
  cases other
  simp

/-- A row has no newline. -/
theorem newline_notMem_rowText (row : FaultProfiler.Row) : byte '\n' ∉ rowText row := by
  have hnewline := notMem_signedDecimal (c := byte '\n') (by decide) (by decide)
  simp only [rowText, List.mem_append, List.mem_cons, not_or]
  exact ⟨hnewline _, by decide, hnewline _, by decide, hnewline _, by decide, hnewline _⟩

/-- The last line is not one of a row: a number does not begin with a letter. -/
theorem countText_ne (count : Int32) (row : FaultProfiler.Row) (behind : Text) :
    countText count ≠ rowText row ++ byte '\n' :: behind := by
  intro heq
  have hletter := notMem_signedDecimal (c := byte 'r') (by decide) (by decide) row.pid.toInt
  have hhead := congrArg List.head? heq
  unfold countText rowText at hhead
  cases hpid : signedDecimal row.pid.toInt with
  | nil =>
    rw [hpid] at hhead
    exact absurd (Option.some.inj hhead) (by decide)
  | cons c rest =>
    rw [hpid] at hhead hletter
    have hc : byte 'r' = c := Option.some.inj hhead
    exact hletter (hc ▸ List.mem_cons_self)

/-- The text of the monitor is determined by its rows only. -/
theorem monitorText_eq_iff (rows others : List FaultProfiler.Row) :
    monitorText rows = monitorText others ↔ rows = others := by
  have hlines := flatMap_lines_eq_iff newline_notMem_rowText
    (countText_ne (Int32.ofNat rows.length)) (countText_ne (Int32.ofNat others.length)) rows others
  have hrows : rows.map rowText = others.map rowText ↔ rows.map id = others.map id :=
    map_eq_iff_of_eq_iff (fun _ _ ↦ rowText_eq_iff) rows others
  rw [List.map_id, List.map_id] at hrows
  exact ⟨fun heq ↦ hrows.mp (hlines.mp heq).1, fun heq ↦ by rw [heq]⟩

example : monitorText [⟨3428, 9401, 0, -5⟩] =
    bytes "3428 9401 0 -5\nread 1 profiled data\n" := by decide

/-! ### The lines of the status files -/

/-- A line of `/proc/mp1/status`, without the newline. -/
def mp1Text (process : ProcessTimes.Process) : Text :=
  decimal process.pid.toNat ++ byte ':' :: byte ' ' :: signedDecimal process.time.toInt

/-- A line of `/proc/mp2/status`, without the newline. -/
def mp2Text (task : RateMonotonic.Mp2TaskStruct) : Text :=
  decimal task.pid.toNat ++ byte ':' :: byte ' ' :: (decimal task.period.toNat ++ byte ',' ::
    byte ' ' :: (decimal task.procTime.toNat ++ byte ',' :: byte ' ' ::
      decimal (stateNumber task.state)))

/-- A line is its text and a newline. -/
theorem mp1Line_eq (process : ProcessTimes.Process) :
    mp1Line process = mp1Text process ++ [byte '\n'] := by
  simp [mp1Line, mp1Text, bytes, byte]

/-- A line is its text and a newline. -/
theorem mp2Line_eq (task : RateMonotonic.Mp2TaskStruct) :
    mp2Line task = mp2Text task ++ [byte '\n'] := by
  simp [mp2Line, mp2Text, bytes, byte]

/-- What a line of `/proc/mp2/status` shows of a task. -/
def mp2Shown (task : RateMonotonic.Mp2TaskStruct) :
    UInt32 × UInt64 × UInt64 × RateMonotonic.TaskState :=
  (task.pid, task.period, task.procTime, task.state)

/-- A line of `/proc/mp1/status` shows its process. -/
theorem mp1Text_eq_iff (process other : ProcessTimes.Process) :
    mp1Text process = mp1Text other ↔ process = other := by
  have hcolon := notMem_decimal (c := byte ':') (by decide)
  unfold mp1Text
  rw [append_cons_eq_iff (hcolon _) (hcolon _), decimal_eq_iff, List.cons.injEq,
    signedDecimal_eq_iff, UInt32.toNat_inj, Int64.toInt_inj]
  cases process
  cases other
  simp

/-- The number of a state is its own. -/
theorem stateNumber_eq_iff {state other : RateMonotonic.TaskState} :
    stateNumber state = stateNumber other ↔ state = other := by
  cases state <;> cases other <;> decide

/-- A line of `/proc/mp2/status` shows the pid, the numbers and the state of its task. -/
theorem mp2Text_eq_iff (task other : RateMonotonic.Mp2TaskStruct) :
    mp2Text task = mp2Text other ↔ mp2Shown task = mp2Shown other := by
  have hcolon := notMem_decimal (c := byte ':') (by decide)
  have hcomma := notMem_decimal (c := byte ',') (by decide)
  unfold mp2Text mp2Shown
  rw [append_cons_eq_iff (hcolon _) (hcolon _), List.cons.injEq,
    append_cons_eq_iff (hcomma _) (hcomma _), List.cons.injEq,
    append_cons_eq_iff (hcomma _) (hcomma _), List.cons.injEq, decimal_eq_iff, decimal_eq_iff,
    decimal_eq_iff, decimal_eq_iff, stateNumber_eq_iff, UInt32.toNat_inj, UInt64.toNat_inj,
    UInt64.toNat_inj]
  simp

/-- Lines that end with a newline tell what each of them shows. -/
theorem listing_eq_iff {α γ : Type*} {line text : α → Text} {shown : α → γ}
    (hline : ∀ entry, line entry = text entry ++ [byte '\n'])
    (hnewline : ∀ entry, byte '\n' ∉ text entry)
    (hshown : ∀ entry other, text entry = text other ↔ shown entry = shown other)
    (entries others : List α) :
    entries.flatMap line = others.flatMap line ↔ entries.map shown = others.map shown := by
  have hnil : ∀ entry behind, ([] : Text) ≠ text entry ++ byte '\n' :: behind := fun _ _ ↦
    (List.append_ne_nil_of_right_ne_nil _ (List.cons_ne_nil _ _)).symm
  have hlines := flatMap_lines_eq_iff hnewline hnil hnil entries others
  rw [List.append_nil, List.append_nil, ← funext hline] at hlines
  rw [hlines, map_eq_iff_of_eq_iff hshown]
  exact and_iff_left rfl

/-- The listing of `/proc/mp1/status` shows its processes. -/
theorem mp1Listing_eq_iff (processes others : List ProcessTimes.Process) :
    (StatusFile.mp1 processes).listing = (StatusFile.mp1 others).listing ↔ processes = others := by
  have hdecimal := notMem_decimal (c := byte '\n') (by decide)
  have hsigned := notMem_signedDecimal (c := byte '\n') (by decide) (by decide)
  have hnewline : ∀ process, byte '\n' ∉ mp1Text process := by
    intro process
    simp only [mp1Text, List.mem_append, List.mem_cons, not_or]
    exact ⟨hdecimal _, by decide, by decide, hsigned _⟩
  have hlines := listing_eq_iff mp1Line_eq hnewline mp1Text_eq_iff processes others
  rwa [List.map_id', List.map_id'] at hlines

/-- The listing of `/proc/mp2/status` shows pid, period, time and state of its tasks. -/
theorem mp2Listing_eq_iff (tasks others : List RateMonotonic.Mp2TaskStruct) :
    (StatusFile.mp2 tasks).listing = (StatusFile.mp2 others).listing ↔
      tasks.map mp2Shown = others.map mp2Shown := by
  have hdecimal := notMem_decimal (c := byte '\n') (by decide)
  have hnewline : ∀ task, byte '\n' ∉ mp2Text task := by
    intro task
    simp only [mp2Text, List.mem_append, List.mem_cons, not_or]
    exact ⟨hdecimal _, by decide, by decide, hdecimal _, by decide, by decide, hdecimal _,
      by decide, by decide, hdecimal _⟩
  exact listing_eq_iff mp2Line_eq hnewline mp2Text_eq_iff tasks others

/-- The listing of `/proc/mp3/status` shows the pids of its tasks. -/
theorem mp3Listing_eq_iff (tasks others : List FaultProfiler.Mp3TaskStruct) :
    (StatusFile.mp3 tasks).listing = (StatusFile.mp3 others).listing ↔
      tasks.map FaultProfiler.Mp3TaskStruct.pid = others.map FaultProfiler.Mp3TaskStruct.pid := by
  have hsigned := notMem_signedDecimal (c := byte '\n') (by decide) (by decide)
  exact listing_eq_iff (fun _ ↦ rfl) (fun _ ↦ hsigned _)
    (fun _ _ ↦ signedDecimal_eq_iff.trans Int32.toInt_inj) tasks others

/-- The texts tell what was printed. The listing of `/proc/mp1/status` tells the pid and the time of
each process, that of `/proc/mp2/status` pid, period, time and state of each task, that of
`/proc/mp3/status` the pids, and the text of the monitor its rows, all in their order. -/
theorem texts_determine :
    (∀ processes others : List ProcessTimes.Process,
      (StatusFile.mp1 processes).listing = (StatusFile.mp1 others).listing ↔
        processes = others) ∧
    (∀ tasks others : List RateMonotonic.Mp2TaskStruct,
      (StatusFile.mp2 tasks).listing = (StatusFile.mp2 others).listing ↔
        tasks.map mp2Shown = others.map mp2Shown) ∧
    (∀ tasks others : List FaultProfiler.Mp3TaskStruct,
      (StatusFile.mp3 tasks).listing = (StatusFile.mp3 others).listing ↔
        tasks.map FaultProfiler.Mp3TaskStruct.pid =
          others.map FaultProfiler.Mp3TaskStruct.pid) ∧
    (∀ rows others : List FaultProfiler.Row,
      monitorText rows = monitorText others ↔ rows = others) :=
  ⟨mp1Listing_eq_iff, mp2Listing_eq_iff, mp3Listing_eq_iff, monitorText_eq_iff⟩

end KernelModules.StatusFiles
