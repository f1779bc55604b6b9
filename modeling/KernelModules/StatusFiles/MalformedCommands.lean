import KernelModules.Foundation.WellFormedCommand
import KernelModules.FaultProfiler.StatusCommands
import KernelModules.RateMonotonic.FailedOperations
import KernelModules.RateMonotonic.StatusCommands

/-!
# Malformed commands

`mp2_write` and `mp3_write` log a failed conversion and go on. A command with a missing field has
them pass a NULL to `sscanf`, a field that is no number leaves a variable with whatever it held, and
a number at the end of the bytes goes on into the memory behind the buffer.

`meetsLaw_iff` says for which bytes the two writes do what they should: nothing for a malformed
command, and nothing that depends on other bytes. These are the bytes that begin with no letter of
a command, the well-formed commands whose last number ends before the bytes do, and for `mp2_write`
a registration with a pid and a period that reads as 0, which divides by zero before it has an
effect.
-/

set_option autoImplicit false
set_option relaxedAutoImplicit false

namespace KernelModules.StatusFiles

open Foundation

/-! ### The two files -/

/-- The letters of `/proc/mp2/status`, with the count of the numbers they require. -/
def mp2Numbers (letter : UInt8) : Option ℕ :=
  if letter = byte 'R' then some 3
  else if letter = byte 'Y' ∨ letter = byte 'D' then some 1
  else none

/-- The letters of `/proc/mp3/status`, with the count of the numbers they require. -/
def mp3Numbers (letter : UInt8) : Option ℕ :=
  if letter = byte 'R' ∨ letter = byte 'U' then some 1 else none

/-- A write to `/proc/mp2/status` has changed nothing and passed no NULL to `sscanf`. -/
def Mp2Inert (s : RateMonotonic.Scheduler) (r : RateMonotonic.WriteResult) : Prop :=
  RateMonotonic.Unchanged s r.state ∧ r.outcome ≠ .nullToken

/-- A write to `/proc/mp3/status` has changed nothing and passed no NULL to `sscanf`. -/
def Mp3Inert (s : FaultProfiler.Mp3) (r : FaultProfiler.WriteResult) : Prop :=
  r.state.tl = s.tl ∧ r.outcome ≠ .nullToken

/-- The bytes begin with no letter of a command. -/
def NoLetter (numbers : UInt8 → Option ℕ) (written : Text) : Prop :=
  ∀ letter ∈ written.head?, numbers letter = none

/-- The bytes register a pid with a period that reads as 0. -/
def ZeroPeriod (written : Text) : Prop :=
  written.head? = some (byte 'R') ∧ ∃ letter pid period procTime later,
    (cString written).splitOn RateMonotonic.comma =
        letter :: pid :: period :: procTime :: later ∧
      scanU32 pid ≠ none ∧ scanU64 period = some 0

/-! ### `/proc/mp3/status` -/

section Mp3

open FaultProfiler

/-- A state without tasks. -/
def noTasks : Mp3 := ⟨[], false, ⟨fun _ ↦ none, 0, ⟨fun _ ↦ 0, 0⟩, [], []⟩⟩

/-- A state with the task of a pid. -/
def oneTask (pid : Int32) : Mp3 := { noTasks with tl := [noTasks.newTask pid] }

/-- The end of a write after it has read a pid for a call. -/
def mp3Result (count : ℕ) (call : Int32 → Command) (read : Option Int32) (s : Mp3) : WriteResult :=
  match read with
  | none => ⟨.nullToken, s⟩
  | some pid => ⟨.returned count, (call pid).call s⟩

/-- Two numbers that differ in their last digit are different words. -/
theorem ofNat_ne (n : ℕ) : UInt32.ofNat (10 * n) ≠ UInt32.ofNat (10 * n + 1) := by
  rw [UInt32.ofNat_add]
  simp

theorem ofNat64_ne (n : ℕ) : UInt64.ofNat (10 * n) ≠ UInt64.ofNat (10 * n + 1) := by
  rw [UInt64.ofNat_add]
  simp

/-- Two numbers that differ in their last digit are different pids. -/
theorem toInt32_ofNat_ne (n : ℕ) :
    (UInt32.ofNat (10 * n)).toInt32 ≠ (UInt32.ofNat (10 * n + 1)).toInt32 := by
  intro heq
  have hword := congrArg Int32.toUInt32 heq
  rw [UInt32.toUInt32_toInt32, UInt32.toUInt32_toInt32] at hword
  exact ofNat_ne n hword

/-- A registration of another pid appends a task. -/
theorem length_register_oneTask (pid other : Int32) :
    ((oneTask pid).taskRegister other).2.tl.length = if pid = other then 1 else 2 := by
  have hlisted : (oneTask pid).listed other = decide (pid = other) := by
    simp [oneTask, Mp3.listed, Mp3.newTask]
  rw [Mp3.taskRegister, hlisted]
  by_cases hpid : pid = other
  · simp [hpid, oneTask]
  · simp [hpid, oneTask]

/-- A deregistration of the pid removes its task. -/
theorem length_deregister_oneTask (pid other : Int32) :
    ((oneTask pid).taskDeregister other).2.tl.length = if pid = other then 0 else 1 := by
  have hlisted : (oneTask pid).listed other = decide (pid = other) := by
    simp [oneTask, Mp3.listed, Mp3.newTask]
  rw [Mp3.taskDeregister, hlisted]
  by_cases hpid : pid = other
  · simp [hpid, oneTask, Mp3.newTask]
  · simp [hpid, oneTask]

/-- The second field of a command that begins with its letter is the one the pid is read off. -/
theorem mp3Write_cons {letter : UInt8} {call : Int32 → Command}
    (hparse : ∀ mem pid, mp3Parse (letter :: mem) pid =
      .ofRead ((parsePid pid letter (some (cString (letter :: mem)))).map call))
    (rest behind : Text) (pid : Int32) (s : Mp3) :
    mp3Write (letter :: rest) behind pid s = mp3Result (letter :: rest).length call
      (((cString (letter :: rest ++ behind)).splitOn blank)[1]?.map fun field ↦
        ((scanNumber field).map fun n ↦ (UInt32.ofNat n).toInt32).getD pid) s := by
  have hscan : ∀ field, scanI32 field = (scanNumber field).map fun n ↦ (UInt32.ofNat n).toInt32 :=
    fun field ↦ Option.map_map _ _ _
  rw [mp3Write, if_neg (List.cons_ne_nil letter rest), List.cons_append, hparse, parsePid_eq]
  simp only [hscan, fieldsLeft, Option.elim_some]
  cases ((cString (letter :: (rest ++ behind))).splitOn blank)[1]? with
  | none => rfl
  | some field => rfl

/-- The commands of a letter of `/proc/mp3/status`. Assumes: an effect of every call in some state,
and different lengths of the list, in some state, after calls with different pids. -/
theorem mp3_meetsLaw_letter_iff {letter : UInt8} (call : Int32 → Command) (hletter : letter ≠ 0)
    (hletterSep : letter ≠ blank) (hnumbers : mp3Numbers letter = some 1)
    (hparse : ∀ mem pid, mp3Parse (letter :: mem) pid =
      .ofRead ((parsePid pid letter (some (cString (letter :: mem)))).map call))
    (heffect : ∀ pid, ∃ s, ((call pid).call s).tl ≠ s.tl)
    (hdiffer : ∀ pid other, pid ≠ other →
      ∃ s, ((call pid).call s).tl.length ≠ ((call other).call s).tl.length) (rest : Text) :
    MeetsLaw (WellFormed blank mp3Numbers) Mp3Inert mp3Write (letter :: rest) ↔
      WellFormed blank mp3Numbers (letter :: rest) ∧ LastNumberEnds blank (letter :: rest) := by
  refine meetsLaw_oneNumber_iff (by decide) (by decide) hletter hletterSep hnumbers id
    (mp3Result (letter :: rest).length call) (0 : Int32)
    (fun behind pid s ↦ mp3Write_cons hparse rest behind pid s) ?_ ?_ ?_
  · exact ⟨noTasks, fun hinert ↦ hinert.2 rfl⟩
  · intro pid
    obtain ⟨s, hs⟩ := heffect pid
    exact ⟨s, fun hinert ↦ hs hinert.1⟩
  · intro n
    obtain ⟨s, hs⟩ := hdiffer _ _ (toInt32_ofNat_ne n)
    exact ⟨s, fun hsame ↦ hs (congrArg (fun r ↦ r.state.tl.length) hsame)⟩

/-- The bytes for which `mp3_write` does what it should. -/
def Mp3Sound (written : Text) : Prop :=
  NoLetter mp3Numbers written ∨
    (WellFormed blank mp3Numbers written ∧ LastNumberEnds blank written)

/-- `mp3_write` meets the law for these bytes only. -/
theorem mp3_meetsLaw_iff (written : Text) :
    MeetsLaw (WellFormed blank mp3Numbers) Mp3Inert mp3Write written ↔ Mp3Sound written := by
  cases written with
  | nil =>
    refine iff_of_true (.of_const (fun s ↦ ⟨.zeroSize, s⟩) (fun _ _ _ ↦ rfl) fun s ↦ ?_) (.inl ?_)
    · exact ⟨rfl, by simp⟩
    · intro letter hletter
      cases hletter
  | cons letter rest =>
    have hnoLetter : NoLetter mp3Numbers (letter :: rest) ↔ mp3Numbers letter = none := by
      simp [NoLetter]
    rw [Mp3Sound, hnoLetter]
    by_cases hregister : letter = byte 'R'
    · have hnumbers : mp3Numbers letter = some 1 := by
        rw [mp3Numbers, if_pos (.inl hregister)]
      rw [hnumbers, or_iff_right (by simp)]
      subst hregister
      refine mp3_meetsLaw_letter_iff .register (by decide) (by decide) hnumbers
        (fun _ _ ↦ rfl) (fun pid ↦ ⟨noTasks, ?_⟩) (fun pid other hne ↦ ⟨oneTask pid, ?_⟩) rest
      · exact List.cons_ne_nil _ _
      · rw [Command.call, Command.call, length_register_oneTask, length_register_oneTask,
          if_pos rfl, if_neg hne]
        decide
    · by_cases hderegister : letter = byte 'U'
      · have hnumbers : mp3Numbers letter = some 1 := by
          rw [mp3Numbers, if_pos (.inr hderegister)]
        rw [hnumbers, or_iff_right (by simp)]
        subst hderegister
        refine mp3_meetsLaw_letter_iff .deregister (by decide) (by decide) hnumbers
          (fun _ _ ↦ rfl) (fun pid ↦ ⟨oneTask pid, ?_⟩) (fun pid other hne ↦ ⟨oneTask pid, ?_⟩) rest
        · intro hsame
          have hlength := congrArg List.length hsame
          rw [Command.call, length_deregister_oneTask, if_pos rfl] at hlength
          cases hlength
        · rw [Command.call, Command.call, length_deregister_oneTask, length_deregister_oneTask,
            if_pos rfl, if_neg hne]
          decide
      · have hnumbers : mp3Numbers letter = none := by
          rw [mp3Numbers, if_neg (not_or.mpr ⟨hregister, hderegister⟩)]
        refine iff_of_true (.of_const (fun s ↦ ⟨.returned (letter :: rest).length, s⟩) ?_ ?_)
          (.inl hnumbers)
        · intro behind pid s
          simp [mp3Write, mp3Parse, hregister, hderegister]
        · exact fun s ↦ ⟨rfl, by simp⟩

end Mp3

/-! ### `/proc/mp2/status` -/

section Mp2

open RateMonotonic RateMonotonic.Scheduler

/-- A state whose only task has the pid and is running. -/
def oneRunning (pid : UInt32) : Scheduler :=
  { mp2Init fun _ ↦ { newTask pid 1 0 (some 1) with state := .running } with tl := [0], fresh := 1 }

/-- A state without tasks that has room for a task of the share. -/
def roomFor (period procTime : UInt64) : Scheduler :=
  { mp2Init zeroSlab with totalUtil := 0 - share procTime period }

/-- The end of a write after it has read a pid for a call. -/
def mp2Result (platform : Platform) (processes : UInt32 → Option LinuxTask) (now : UInt64)
    (count : ℕ) (read : Option Command) (s : Scheduler) : RateMonotonic.WriteResult :=
  match read with
  | none => ⟨.nullToken, s⟩
  | some command => .ofResult count (exec platform (command.op processes now) s)

@[simp] theorem state_ofResult (count : ℕ) (r : Result) :
    (RateMonotonic.WriteResult.ofResult count r).state = r.state := by
  unfold RateMonotonic.WriteResult.ofResult
  split <;> rfl

/-- An operation passes no NULL to `sscanf`. -/
theorem outcome_ofResult (count : ℕ) (r : Result) :
    (RateMonotonic.WriteResult.ofResult count r).outcome ≠ .nullToken := by
  unfold RateMonotonic.WriteResult.ofResult
  split <;> simp

/-- The only task is found by its pid. -/
theorem lookup_oneRunning (pid other : UInt32) :
    (oneRunning pid).yeildLookup other = (if pid = other then some 0 else none) ∧
      (oneRunning pid).deregLookup other = if pid = other then some 0 else none := by
  by_cases hpid : pid = other
  · simp [yeildLookup, deregLookup, oneRunning, newTask, mp2Init, hpid]
  · simp [yeildLookup, deregLookup, oneRunning, newTask, mp2Init, hpid]

/-- A yield puts the only task to sleep if it has the pid. -/
theorem state_yeild_oneRunning (platform : Platform) (pid other : UInt32) (now : UInt64) :
    ((taskYeild platform other now (oneRunning pid)).state.slab 0).state =
      if pid = other then .sleeping else .running := by
  have hlookup := (lookup_oneRunning pid other).1
  rcases taskYeild_cases platform other now (oneRunning pid) with
    ⟨hnone, hresult⟩ | ⟨t, hfound, ⟨hmissed, -⟩ | ⟨-, hnull, -⟩ | ⟨-, -, hresult⟩⟩
  · rw [hnone] at hlookup
    have hpid : pid ≠ other := by
      rintro rfl
      rw [if_pos rfl] at hlookup
      cases hlookup
    rw [hresult, if_neg hpid]
    rfl
  · exact absurd rfl (missesDdl_iff.mp hmissed).1
  · cases hnull
  · rw [hfound] at hlookup
    split_ifs at hlookup with hpid
    cases hlookup
    rw [hresult, if_pos hpid]
    exact state_putToSleep_self (oneRunning pid) platform now 0

/-- A deregistration removes the only task if it has the pid. -/
theorem tl_deregister_oneRunning (pid other : UInt32) :
    (taskDeregister other (oneRunning pid)).state.tl = if pid = other then [] else [0] := by
  have hlookup := (lookup_oneRunning pid other).2
  rcases taskDeregister_cases other (oneRunning pid) with
    ⟨hnone, hresult⟩ | ⟨t, hfound, ⟨hzero, -⟩ | ⟨-, hresult⟩⟩
  · rw [hnone] at hlookup
    have hpid : pid ≠ other := by
      rintro rfl
      rw [if_pos rfl] at hlookup
      cases hlookup
    rw [hresult, if_neg hpid]
    rfl
  · exact absurd hzero (by simp [oneRunning, newTask, mp2Init])
  · rw [hfound] at hlookup
    split_ifs at hlookup with hpid
    cases hlookup
    rw [hresult, if_pos hpid, unlockTl_tl, removeTask_tl, releaseCt_tl]
    rfl

variable (platform : Platform) (processes : UInt32 → Option LinuxTask) (now : UInt64)

/-- The second field of a command that begins with its letter is the one the pid is read off. -/
theorem mp2Write_cons {letter : UInt8} {call : UInt32 → Command}
    (hparse : ∀ mem locals, mp2Parse (letter :: mem) locals =
      .ofRead ((parsePid locals letter (some (cString (letter :: mem)))).map call))
    (rest behind : Text) (locals : Locals) (s : Scheduler) :
    mp2Write platform processes now (letter :: rest) behind locals s =
      mp2Result platform processes now (letter :: rest).length
        ((((cString (letter :: rest ++ behind)).splitOn comma)[1]?.map fun field ↦
          ((scanNumber field).map UInt32.ofNat).getD locals.pid).map call) s := by
  rw [mp2Write, if_neg (List.cons_ne_nil letter rest), List.cons_append, hparse, parsePid_eq]
  simp only [scanU32, fieldsLeft, Option.elim_some]
  cases ((cString (letter :: (rest ++ behind))).splitOn comma)[1]? with
  | none => rfl
  | some field => rfl

/-- The commands of a letter of `/proc/mp2/status` with one number. Assumes: on the state whose only
task has a pid, a change by the call with the pid, and no such state after a call with another. -/
theorem mp2_meetsLaw_letter_iff {letter : UInt8} (call : UInt32 → Command) (hletter : letter ≠ 0)
    (hletterSep : letter ≠ comma) (hnumbers : mp2Numbers letter = some 1)
    (hparse : ∀ mem locals, mp2Parse (letter :: mem) locals =
      .ofRead ((parsePid locals letter (some (cString (letter :: mem)))).map call))
    (heffect : ∀ pid, ¬ Unchanged (oneRunning pid)
      (exec platform ((call pid).op processes now) (oneRunning pid)).state)
    (hdiffer : ∀ pid other, pid ≠ other →
      (exec platform ((call pid).op processes now) (oneRunning pid)).state ≠
        (exec platform ((call other).op processes now) (oneRunning pid)).state) (rest : Text) :
    MeetsLaw (WellFormed comma mp2Numbers) Mp2Inert (mp2Write platform processes now)
        (letter :: rest) ↔
      WellFormed comma mp2Numbers (letter :: rest) ∧ LastNumberEnds comma (letter :: rest) := by
  refine meetsLaw_oneNumber_iff (by decide) (by decide) hletter hletterSep hnumbers Locals.pid
    (fun read s ↦ mp2Result platform processes now (letter :: rest).length (read.map call) s)
    ⟨0, 0, 0⟩
    (fun behind locals s ↦ mp2Write_cons platform processes now hparse rest behind locals s)
    ?_ ?_ ?_
  · exact ⟨oneRunning 0, fun hinert ↦ hinert.2 rfl⟩
  · intro pid
    refine ⟨oneRunning pid, fun hinert ↦ heffect pid ?_⟩
    have hunchanged := hinert.1
    rwa [Option.map_some, mp2Result, state_ofResult] at hunchanged
  · intro n
    refine ⟨oneRunning (UInt32.ofNat (10 * n)), fun hsame ↦ hdiffer _ _ (ofNat_ne n) ?_⟩
    have hstate := congrArg RateMonotonic.WriteResult.state hsame
    simpa only [Option.map_some, mp2Result, state_ofResult] using hstate

/-- The room is enough for the task, which is then the only one. -/
theorem taskRegister_roomFor {pid : UInt32} {period procTime : UInt64} (hperiod : period ≠ 0)
    (found : Option LinuxTask) :
    taskRegister pid period procTime found (roomFor period procTime) =
      ⟨.returned 0, (roomFor period procTime).registered pid period procTime found⟩ := by
  refine taskRegister_of_room rfl hperiod ?_
  have htotal : (roomFor period procTime).totalUtil + share procTime period = 0 :=
    UInt64.sub_add_cancel 0 _
  rw [admits, htotal]
  decide

/-- Two processing times that differ have different effects where there is room for the first. -/
theorem taskRegister_roomFor_ne {pid : UInt32} {period procTime other : UInt64}
    (hperiod : period ≠ 0) (hne : procTime ≠ other) (found : Option LinuxTask) :
    (taskRegister pid period procTime found (roomFor period procTime)).state ≠
      (taskRegister pid period other found (roomFor period procTime)).state := by
  rw [taskRegister_roomFor hperiod]
  intro hsame
  rcases taskRegister_cases pid period other found (roomFor period procTime) with
    ⟨hlisted, -⟩ | ⟨-, hzero, -⟩ | ⟨-, -, -, hresult⟩ | ⟨-, -, -, hresult⟩
  · cases hlisted
  · exact hperiod hzero
  · rw [hresult] at hsame
    have htl := congrArg Scheduler.tl hsame
    cases htl
  · rw [hresult] at hsame
    refine hne ?_
    have htask := congrFun (congrArg Scheduler.slab hsame) 0
    have hprocTime := congrArg Mp2TaskStruct.procTime htask
    simpa [registered, roomFor, mp2Init, newTask] using hprocTime

/-- A registration with period 0 has no effect on the data, and the same end with any processing
time. -/
theorem taskRegister_zero (pid : UInt32) (procTime : UInt64) (found : Option LinuxTask)
    (s : Scheduler) :
    Unchanged s (taskRegister pid 0 procTime found s).state ∧
      taskRegister pid 0 procTime found s = taskRegister pid 0 0 found s := by
  cases hlisted : s.listed pid with
  | true =>
    rw [taskRegister_of_listed hlisted, taskRegister_of_listed hlisted]
    exact ⟨.lockTl s, rfl⟩
  | false =>
    rw [taskRegister_of_zero hlisted rfl, taskRegister_of_zero hlisted rfl]
    exact ⟨.unlockTl s, rfl⟩

section Register

variable {rest behind letter first second third : Text} {later : List Text}

/-- A registration is read off four fields. -/
theorem mp2Write_register
    (hfields : (cString (byte 'R' :: rest ++ behind)).splitOn comma =
      letter :: first :: second :: third :: later) (locals : Locals) (s : Scheduler) :
    mp2Write platform processes now (byte 'R' :: rest) behind locals s =
      .ofResult (byte 'R' :: rest).length (taskRegister ((scanU32 first).getD locals.pid)
        ((scanU64 second).getD locals.period) ((scanU64 third).getD locals.procTime)
          (processes ((scanU32 first).getD locals.pid)) s) := by
  have hparse : mp2Parse (byte 'R' :: rest ++ behind) locals =
      .ofRead (parseRegister locals (byte 'R') (some (cString (byte 'R' :: rest ++ behind)))) := rfl
  have hleft : fieldsLeft comma (some (cString (byte 'R' :: rest ++ behind))) =
      letter :: first :: second :: third :: later := hfields
  rw [mp2Write, if_neg (List.cons_ne_nil _ rest), hparse, parseRegister_of_fields hleft]
  rfl

/-- With fewer fields a NULL is passed to `sscanf`. -/
theorem mp2Write_register_short
    (hshort : ((cString (byte 'R' :: rest ++ behind)).splitOn comma).length < 4) (locals : Locals)
    (s : Scheduler) :
    mp2Write platform processes now (byte 'R' :: rest) behind locals s = ⟨.nullToken, s⟩ := by
  have hparse : mp2Parse (byte 'R' :: rest ++ behind) locals =
      .ofRead (parseRegister locals (byte 'R') (some (cString (byte 'R' :: rest ++ behind)))) := rfl
  have hleft : (fieldsLeft comma (some (cString (byte 'R' :: rest ++ behind)))).length < 4 := hshort
  rw [mp2Write, if_neg (List.cons_ne_nil _ rest), hparse, parseRegister_of_short hleft]
  rfl

/-- The fields of a well-formed registration. -/
theorem fields_of_wellFormed (hwell : WellFormed comma mp2Numbers (byte 'R' :: rest)) :
    ∃ first second third,
      (byte 'R' :: rest).splitOn comma = [[byte 'R'], first, second] ++ [third] ∧
      (IsDecimal first ∧ IsDecimal second ∧ IsDecimal third) ∧
        (0 : UInt8) ∉ byte 'R' :: rest := by
  obtain ⟨fields, hfields, hlength, hdecimal, hnul⟩ :=
    hwell.exists_fields (by decide) (by decide) (by decide) rfl
  obtain ⟨first, second, third, rfl⟩ := List.length_eq_three.mp hlength
  refine ⟨first, second, third, hfields, ⟨?_, ?_, ?_⟩, hnul⟩
  · exact hdecimal first (by simp)
  · exact hdecimal second (by simp)
  · exact hdecimal third (by simp)

/-- A registration that meets the law has four fields. -/
theorem length_fields_of_meetsLaw
    (hlaw : MeetsLaw (WellFormed comma mp2Numbers) Mp2Inert (mp2Write platform processes now)
      (byte 'R' :: rest)) :
    ∃ letter first second third later, (cString (byte 'R' :: rest)).splitOn comma =
      letter :: first :: second :: third :: later := by
  by_contra hnot
  have hshort : ((cString (byte 'R' :: rest)).splitOn comma).length < 4 := by
    rcases hfields : (cString (byte 'R' :: rest)).splitOn comma with
      _ | ⟨letter, _ | ⟨first, _ | ⟨second, _ | ⟨third, later⟩⟩⟩⟩
    case cons.cons.cons.cons => exact absurd ⟨letter, first, second, third, later, hfields⟩ hnot
    all_goals simp
  have hmalformed : ¬ WellFormed comma mp2Numbers (byte 'R' :: rest) := by
    intro hwell
    obtain ⟨first, second, third, hfields, -, hnul⟩ := fields_of_wellFormed hwell
    rw [cString_eq_self hnul, hfields] at hshort
    simp at hshort
  have hinert := hlaw.rejects hmalformed [] ⟨0, 0, 0⟩ (oneRunning 0)
  rw [mp2Write_register_short platform processes now (by rwa [List.append_nil])] at hinert
  exact hinert.2 rfl

/-- The variable for the period takes a nonzero value from a field that does not read as 0. -/
theorem getD_period_ne_zero (hzero : scanU64 second ≠ some 0) : (scanU64 second).getD 1 ≠ 0 := by
  cases hscan : scanU64 second with
  | none => decide
  | some period =>
    rintro rfl
    exact hzero hscan

/-- A registration that meets the law with a period that reads as 0 has a pid: the duplicate check
depends on it. -/
theorem zeroPeriod_of_meetsLaw
    (hlaw : MeetsLaw (WellFormed comma mp2Numbers) Mp2Inert (mp2Write platform processes now)
      (byte 'R' :: rest))
    (hfields : (cString (byte 'R' :: rest)).splitOn comma =
      letter :: first :: second :: third :: later)
    (hzero : scanU64 second = some 0) : ZeroPeriod (byte 'R' :: rest) := by
  refine ⟨rfl, letter, first, second, third, later, hfields, fun hnone ↦ ?_, hzero⟩
  have hnothing : (cString (byte 'R' :: rest ++ [])).splitOn comma =
      letter :: first :: second :: third :: later := by rwa [List.append_nil]
  have hlisted : (oneRunning 0).listed 0 = true := by decide
  have hother : (oneRunning 0).listed 1 = false := by decide
  have hsame := hlaw.fixed [] [] ⟨0, 0, 0⟩ ⟨1, 0, 0⟩ (oneRunning 0)
  rw [mp2Write_register platform processes now hnothing,
    mp2Write_register platform processes now hnothing, hnone, hzero, Option.getD_none,
    Option.getD_none, Option.getD_some, taskRegister_of_listed hlisted,
    taskRegister_of_zero hother rfl] at hsame
  cases hsame

/-- A registration that meets the law with a period that does not read as 0 is well formed: where
there is room, and with 1 in the variable for the period, it has an effect. -/
theorem wellFormed_of_meetsLaw
    (hlaw : MeetsLaw (WellFormed comma mp2Numbers) Mp2Inert (mp2Write platform processes now)
      (byte 'R' :: rest))
    (hfields : (cString (byte 'R' :: rest)).splitOn comma =
      letter :: first :: second :: third :: later)
    (hzero : scanU64 second ≠ some 0) : WellFormed comma mp2Numbers (byte 'R' :: rest) := by
  by_contra hmalformed
  have hnothing : (cString (byte 'R' :: rest ++ [])).splitOn comma =
      letter :: first :: second :: third :: later := by rwa [List.append_nil]
  have hinert := hlaw.rejects hmalformed [] ⟨0, 1, 0⟩
    (roomFor ((scanU64 second).getD 1) ((scanU64 third).getD 0))
  rw [mp2Write_register platform processes now hnothing,
    taskRegister_roomFor (getD_period_ne_zero hzero)] at hinert
  have htl := hinert.1.tl
  rw [state_ofResult] at htl
  cases htl

/-- The last number of a well-formed registration that meets the law ends: otherwise a digit behind
the buffer changes the processing time. -/
theorem lastNumberEnds_of_meetsLaw
    (hlaw : MeetsLaw (WellFormed comma mp2Numbers) Mp2Inert (mp2Write platform processes now)
      (byte 'R' :: rest))
    (hwell : WellFormed comma mp2Numbers (byte 'R' :: rest))
    (hfields : (cString (byte 'R' :: rest)).splitOn comma =
      letter :: first :: second :: third :: later)
    (hzero : scanU64 second ≠ some 0) : LastNumberEnds comma (byte 'R' :: rest) := by
  intro last hlast hopen
  obtain ⟨first', second', third', hsplit, ⟨-, -, hthird⟩, hnul⟩ := fields_of_wellFormed hwell
  rw [hsplit] at hlast
  cases hlast
  have hsecond : second = second' := by
    rw [cString_eq_self hnul, hsplit] at hfields
    cases hfields
    rfl
  have hdigit : ∀ c, isDigit c = true → (cString (byte 'R' :: rest ++ [c])).splitOn comma =
      [[byte 'R'], first', second'] ++ [third' ++ [c]] ∧ scanU64 (third' ++ [c]) =
        some (UInt64.ofNat (10 * digitsValue (numberDigits third') + (c.toNat - 48))) := by
    intro c hc
    have hbehind := scanNumber_digit_behind _ hnul hsplit hthird.1 hopen hc
      (by rintro rfl; exact absurd hc (by decide)) (by rintro rfl; exact absurd hc (by decide))
    exact ⟨hbehind.1, by rw [scanU64, hbehind.2, Option.map_some]⟩
  have hsame := hlaw.fixed [48] [49] ⟨0, 1, 0⟩ ⟨0, 1, 0⟩
    (roomFor ((scanU64 second).getD 1) (UInt64.ofNat (10 * digitsValue (numberDigits third'))))
  rw [mp2Write_register platform processes now (hdigit 48 (by decide)).1,
    mp2Write_register platform processes now (hdigit 49 (by decide)).1,
    (hdigit 48 (by decide)).2, (hdigit 49 (by decide)).2, ← hsecond] at hsame
  have hstate := congrArg RateMonotonic.WriteResult.state hsame
  rw [state_ofResult, state_ofResult] at hstate
  exact taskRegister_roomFor_ne (getD_period_ne_zero hzero) (ofNat64_ne _) _ hstate

/-- A well-formed registration with a last number that ends meets the law. -/
theorem meetsLaw_of_lastNumberEnds (hwell : WellFormed comma mp2Numbers (byte 'R' :: rest))
    (hends : LastNumberEnds comma (byte 'R' :: rest)) :
    MeetsLaw (WellFormed comma mp2Numbers) Mp2Inert (mp2Write platform processes now)
      (byte 'R' :: rest) := by
  refine ⟨fun hmalformed ↦ absurd hwell hmalformed, ?_⟩
  obtain ⟨first, second, third, hsplit, ⟨hfirst, hsecond, hthird⟩, hnul⟩ :=
    fields_of_wellFormed hwell
  have htail : numberTail third ≠ [] := hends third (by rw [hsplit]; rfl)
  obtain ⟨pid, hpid⟩ := exists_scanNumber hfirst
  obtain ⟨period, hperiod⟩ := exists_scanNumber hsecond
  obtain ⟨procTime, hprocTime⟩ := exists_scanNumber hthird
  have hread : ∀ behind locals s,
      mp2Write platform processes now (byte 'R' :: rest) behind locals s =
        .ofResult (byte 'R' :: rest).length (taskRegister (UInt32.ofNat pid)
          (UInt64.ofNat period) (UInt64.ofNat procTime) (processes (UInt32.ofNat pid)) s) := by
    intro behind locals s
    obtain ⟨third', later, hbehind, hnumber⟩ := scanNumber_behind
      [[byte 'R'], first, second] hnul hsplit htail behind
    rw [mp2Write_register platform processes now hbehind, scanU32, scanU64, scanU64, hpid,
      hperiod, hnumber, hprocTime]
    rfl
  intro behind behind' locals locals' s
  rw [hread, hread]

/-- A registration with a period that reads as 0 meets the law, well formed or not. -/
theorem meetsLaw_of_zeroPeriod (hzero : ZeroPeriod (byte 'R' :: rest)) :
    MeetsLaw (WellFormed comma mp2Numbers) Mp2Inert (mp2Write platform processes now)
      (byte 'R' :: rest) := by
  obtain ⟨-, letter, first, second, third, later, hfields, hpid, hperiod⟩ := hzero
  obtain ⟨pid, hpid⟩ := Option.ne_none_iff_exists'.mp hpid
  refine .of_const (fun s ↦ .ofResult (byte 'R' :: rest).length
    (taskRegister pid 0 0 (processes pid) s)) ?_ ?_
  · intro behind locals s
    obtain ⟨third', later', hbehind⟩ := fields_behind [letter, first, second] hfields behind
    rw [mp2Write_register platform processes now hbehind, hpid, hperiod, Option.getD_some,
      Option.getD_some, (taskRegister_zero pid _ _ s).2]
  · intro s
    refine ⟨?_, outcome_ofResult _ _⟩
    rw [state_ofResult]
    exact (taskRegister_zero pid 0 _ s).1

/-- Registrations meet the law when they are well formed with a last number that ends, or have a
period that reads as 0, and not otherwise. -/
theorem mp2_meetsLaw_register_iff :
    MeetsLaw (WellFormed comma mp2Numbers) Mp2Inert (mp2Write platform processes now)
        (byte 'R' :: rest) ↔
      (WellFormed comma mp2Numbers (byte 'R' :: rest) ∧ LastNumberEnds comma (byte 'R' :: rest)) ∨
        ZeroPeriod (byte 'R' :: rest) := by
  constructor
  · intro hlaw
    obtain ⟨letter, first, second, third, later, hfields⟩ :=
      length_fields_of_meetsLaw platform processes now hlaw
    by_cases hzero : scanU64 second = some 0
    · exact .inr (zeroPeriod_of_meetsLaw platform processes now hlaw hfields hzero)
    · have hwell := wellFormed_of_meetsLaw platform processes now hlaw hfields hzero
      exact .inl ⟨hwell,
        lastNumberEnds_of_meetsLaw platform processes now hlaw hwell hfields hzero⟩
  · rintro (⟨hwell, hends⟩ | hzero)
    · exact meetsLaw_of_lastNumberEnds platform processes now hwell hends
    · exact meetsLaw_of_zeroPeriod platform processes now hzero

end Register

/-- The bytes for which `mp2_write` does what it should. -/
def Mp2Sound (written : Text) : Prop :=
  NoLetter mp2Numbers written ∨
    (WellFormed comma mp2Numbers written ∧ LastNumberEnds comma written) ∨ ZeroPeriod written

/-- `mp2_write` meets the law for these bytes only. -/
theorem mp2_meetsLaw_iff (written : Text) :
    MeetsLaw (WellFormed comma mp2Numbers) Mp2Inert (mp2Write platform processes now) written ↔
      Mp2Sound written := by
  cases written with
  | nil =>
    refine iff_of_true (.of_const (fun s ↦ ⟨.zeroSize, s⟩) (fun _ _ _ ↦ rfl) fun s ↦ ?_) (.inl ?_)
    · exact ⟨⟨rfl, fun _ _ ↦ rfl, rfl, rfl⟩, by simp⟩
    · intro letter hletter
      cases hletter
  | cons letter rest =>
    have hnoLetter : NoLetter mp2Numbers (letter :: rest) ↔ mp2Numbers letter = none := by
      simp [NoLetter]
    rw [Mp2Sound, hnoLetter]
    by_cases hregister : letter = byte 'R'
    · have hnumbers : mp2Numbers letter = some 3 := by
        rw [mp2Numbers, if_pos hregister]
      rw [hnumbers, or_iff_right (by simp)]
      subst hregister
      exact mp2_meetsLaw_register_iff platform processes now
    · have hzero : ¬ ZeroPeriod (letter :: rest) := by
        rintro ⟨hhead, -⟩
        exact hregister (Option.some.inj hhead)
      rw [or_iff_left hzero]
      by_cases hyeild : letter = byte 'Y'
      · have hnumbers : mp2Numbers letter = some 1 := by
          rw [mp2Numbers, if_neg hregister, if_pos (.inl hyeild)]
        rw [hnumbers, or_iff_right (by simp)]
        subst hyeild
        refine mp2_meetsLaw_letter_iff platform processes now .yeild (by decide)
          (by decide) hnumbers (fun _ _ ↦ rfl) (fun pid hsame ↦ ?_) (fun pid other hne hsame ↦ ?_)
          rest
        · have htask := congrArg Mp2TaskStruct.state (hsame.task 0 (by simp [oneRunning]))
          rw [Command.op, exec, state_yeild_oneRunning, if_pos rfl] at htask
          cases htask
        · have htask := congrArg (fun s : Scheduler ↦ (s.slab 0).state) hsame
          simp only [Command.op, exec, state_yeild_oneRunning, if_pos, if_neg hne] at htask
          cases htask
      · by_cases hderegister : letter = byte 'D'
        · have hnumbers : mp2Numbers letter = some 1 := by
            rw [mp2Numbers, if_neg hregister, if_pos (.inr hderegister)]
          rw [hnumbers, or_iff_right (by simp)]
          subst hderegister
          refine mp2_meetsLaw_letter_iff platform processes now .deregister (by decide)
            (by decide) hnumbers (fun _ _ ↦ rfl) (fun pid hsame ↦ ?_)
            (fun pid other hne hsame ↦ ?_) rest
          · have htl := hsame.tl
            rw [Command.op, exec, tl_deregister_oneRunning, if_pos rfl] at htl
            cases htl
          · have htl := congrArg Scheduler.tl hsame
            rw [Command.op, exec, Command.op, exec, tl_deregister_oneRunning,
              tl_deregister_oneRunning, if_pos rfl, if_neg hne] at htl
            cases htl
        · have hnumbers : mp2Numbers letter = none := by
            rw [mp2Numbers, if_neg hregister, if_neg (not_or.mpr ⟨hyeild, hderegister⟩)]
          refine iff_of_true (.of_const (fun s ↦ ⟨.returned (letter :: rest).length, s⟩) ?_ ?_)
            (.inl hnumbers)
          · intro behind locals s
            simp [mp2Write, mp2Parse, hregister, hyeild, hderegister]
          · exact fun s ↦ ⟨⟨rfl, fun _ _ ↦ rfl, rfl, rfl⟩, by simp⟩

end Mp2

/-! ### Both files -/

open RateMonotonic in
/-- The two writes do nothing for a malformed command and depend on nothing but the bytes written,
for the bytes that begin with no letter of a command, for the well-formed commands whose last number
ends before the bytes do, for a registration with a period that reads as 0, and for no others. -/
theorem meetsLaw_iff (platform : Platform) (processes : UInt32 → Option LinuxTask) (now : UInt64)
    (written : Text) :
    (MeetsLaw (WellFormed comma mp2Numbers) Mp2Inert (mp2Write platform processes now) written ↔
        Mp2Sound written) ∧
      (MeetsLaw (WellFormed FaultProfiler.blank mp3Numbers) Mp3Inert FaultProfiler.mp3Write
          written ↔ Mp3Sound written) :=
  ⟨mp2_meetsLaw_iff platform processes now written, mp3_meetsLaw_iff written⟩

open RateMonotonic in
/-- A deregistration without a pid: `mp2_write` passes a NULL to `sscanf`. -/
theorem meetsLaw_missingPid :
    ¬ ∀ (platform : Platform) (processes : UInt32 → Option LinuxTask) (now : UInt64)
      (written : Text),
      MeetsLaw (WellFormed comma mp2Numbers) Mp2Inert (mp2Write platform processes now) written ∧
        MeetsLaw (WellFormed FaultProfiler.blank mp3Numbers) Mp3Inert FaultProfiler.mp3Write
          written := by
  intro hall
  have hlaw := (hall platformHz1000 (fun _ ↦ none) 0 [byte 'D']).1
  have hmalformed : ¬ WellFormed comma mp2Numbers [byte 'D'] := by
    rintro ⟨letter, fields, hfields, hnumbers, -⟩
    rw [List.splitOn_eq_singleton (by decide)] at hfields
    cases hfields
    exact absurd hnumbers (by decide)
  have hinert := hlaw.rejects hmalformed [] ⟨0, 0, 0⟩ (oneRunning 0)
  exact hinert.2 rfl

end KernelModules.StatusFiles
