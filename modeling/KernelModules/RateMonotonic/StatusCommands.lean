import KernelModules.Foundation.CommandText
import KernelModules.RateMonotonic.AtomicRuns

/-!
# The commands of `/proc/mp2/status`

`mp2_write` of `mp2_main.c`, and the commands that `userapp.h` writes. `mp2_write` copies the bytes
to a buffer of their number, so that the string it takes apart goes on with whatever stands behind
the buffer, up to a NUL. The numbers it hands to an operation are local variables without an initial
value; a conversion that fails is logged and leaves them as they are.

`mp2Parse_echoed` is the round trip: the commands of `userapp.h` are read as they were meant,
whatever stands behind them and whatever the variables hold.
-/

set_option autoImplicit false
set_option relaxedAutoImplicit false

namespace KernelModules.RateMonotonic

open Foundation

/-! ### Reading a command -/

/-- The local variables of `mp2_write` that `sscanf` assigns. -/
structure Locals where
  pid : UInt32
  period : UInt64
  procTime : UInt64

/-- The call that `mp2_write` makes. -/
inductive Command
  | register (pid : UInt32) (period procTime : UInt64)
  | yeild (pid : UInt32)
  | deregister (pid : UInt32)
  deriving DecidableEq

/-- What the switch of `mp2_write` comes to: no case, a NULL passed to `sscanf`, or a call. -/
inductive Parsed
  | ignored
  | nullToken
  | command (command : Command)
  deriving DecidableEq

/-- The separator of the fields. -/
def comma : UInt8 := byte ','

/-- The reads of `case 'R'`. -/
def parseRegister (locals : Locals) (op : UInt8) (buf : Option Text) : Option Command := do
  let (_, buf) ← scanField comma scanChar op buf
  let (pid, buf) ← scanField comma scanU32 locals.pid buf
  let (period, buf) ← scanField comma scanU64 locals.period buf
  let (procTime, _) ← scanField comma scanU64 locals.procTime buf
  return .register pid period procTime

/-- The reads of `case 'Y'` and of `case 'D'`. -/
def parsePid (locals : Locals) (op : UInt8) (buf : Option Text) : Option UInt32 := do
  let (_, buf) ← scanField comma scanChar op buf
  let (pid, _) ← scanField comma scanU32 locals.pid buf
  return pid

/-- The reads come to a call, or to a NULL. -/
def Parsed.ofRead (read : Option Command) : Parsed := read.elim .nullToken .command

/-- The switch of `mp2_write` on the memory from the start of the buffer. -/
def mp2Parse (mem : Text) (locals : Locals) : Parsed :=
  let op := mem.headD 0
  let buf := some (cString mem)
  if op = byte 'R' then .ofRead (parseRegister locals op buf)
  else if op = byte 'Y' then .ofRead ((parsePid locals op buf).map .yeild)
  else if op = byte 'D' then .ofRead ((parsePid locals op buf).map .deregister)
  else .ignored

/-! ### Carrying it out -/

/-- How a write ends: with a count, with a read of the object of size 0 that `kmalloc(0)` returns,
with a NULL passed to `sscanf`, or in an operation that faults. -/
inductive WriteOutcome
  | returned (count : ℕ)
  | zeroSize
  | nullToken
  | faulted (fault : Fault)
  deriving DecidableEq

/-- What a write ends with, and the state it leaves. -/
structure WriteResult where
  outcome : WriteOutcome
  state : Scheduler

/-- The operation of a call, with the process that `find_task_by_pid` finds and the time. -/
def Command.op (processes : UInt32 → Option LinuxTask) (now : UInt64) : Command → Op
  | .register pid period procTime => .register pid period procTime (processes pid)
  | .yeild pid => .yeild pid now
  | .deregister pid => .deregister pid

/-- The end of a write after its operation, whose code it does not look at. -/
def WriteResult.ofResult (count : ℕ) (r : Result) : WriteResult :=
  match r.outcome with
  | .returned _ => ⟨.returned count, r.state⟩
  | .faulted fault => ⟨.faulted fault, r.state⟩

/-- `mp2_write` of the bytes, with other bytes behind its buffer. -/
def mp2Write (platform : Platform) (processes : UInt32 → Option LinuxTask) (now : UInt64)
    (written behind : Text) (locals : Locals) (s : Scheduler) : WriteResult :=
  if written = [] then ⟨.zeroSize, s⟩
  else
    match mp2Parse (written ++ behind) locals with
    | .ignored => ⟨.returned written.length, s⟩
    | .nullToken => ⟨.nullToken, s⟩
    | .command command =>
      .ofResult written.length (exec platform (command.op processes now) s)

/-! ### The fields of a command -/

section Fields

variable {locals : Locals} {op : UInt8} {buf : Option Text} {letter first second third : Text}
  {later : List Text}

/-- A registration is read off four fields. -/
theorem parseRegister_of_fields
    (hleft : fieldsLeft comma buf = letter :: first :: second :: third :: later) :
    parseRegister locals op buf = some (.register ((scanU32 first).getD locals.pid)
      ((scanU64 second).getD locals.period) ((scanU64 third).getD locals.procTime)) := by
  obtain ⟨afterLetter, hletter, hleft⟩ := scanField_of_cons scanChar op hleft
  obtain ⟨afterFirst, hfirst, hleft⟩ :=
    scanField_of_cons scanU32 locals.pid hleft
  obtain ⟨afterSecond, hsecond, hleft⟩ :=
    scanField_of_cons scanU64 locals.period hleft
  obtain ⟨afterThird, hthird, -⟩ :=
    scanField_of_cons scanU64 locals.procTime hleft
  rw [parseRegister, hletter]
  simp only [Option.bind_eq_bind, Option.bind_some, hfirst, hsecond, hthird]
  rfl

/-- With fewer fields a NULL is passed to `sscanf`. -/
theorem parseRegister_of_short (hshort : (fieldsLeft comma buf).length < 4) :
    parseRegister locals op buf = none := by
  refine Option.eq_none_iff_forall_ne_some.mpr fun command hread ↦ ?_
  simp only [parseRegister, Option.bind_eq_bind, Option.bind_eq_some_iff] at hread
  obtain ⟨_, hletter, _, hfirst, _, hsecond, _, hthird, -⟩ := hread
  have hone := length_of_scanField hletter
  have htwo := length_of_scanField hfirst
  have hthree := length_of_scanField hsecond
  have hfour := length_of_scanField hthird
  omega

end Fields

/-- The pid is read off the second field. -/
theorem parsePid_eq (locals : Locals) (op : UInt8) (buf : Option Text) :
    parsePid locals op buf =
      (fieldsLeft comma buf)[1]?.map fun field ↦ (scanU32 field).getD locals.pid :=
  scanField_second scanU32 locals.pid op buf

/-! ### The commands of the application -/

/-- `MP2_PATH`. -/
def mp2Path : Text := bytes "/proc/mp2/status"

/-- The shell command of `register_process`. -/
def registerProcess (pid period procTime : UInt32) : Text :=
  bytes "echo \"R, " ++ decimal pid.toNat ++ bytes ", " ++ decimal period.toNat ++ bytes ", " ++
    decimal procTime.toNat ++ bytes "\" > " ++ mp2Path

/-- The shell command of `yield_process`. -/
def yieldProcess (pid : UInt32) : Text :=
  bytes "echo \"Y, " ++ decimal pid.toNat ++ bytes "\" > " ++ mp2Path

/-- The shell command of `deregister_process`. -/
def deregisterProcess (pid : UInt32) : Text :=
  bytes "echo \"D, " ++ decimal pid.toNat ++ bytes "\" > " ++ mp2Path

/-- The double quote. -/
def quote : UInt8 := 34

/-- What the shell writes for `echo`: the quoted argument and a newline. -/
def echoed (command : Text) : Text := (command.splitOn quote).getD 1 [] ++ bytes "\n"

/-- The argument of a command that quotes it. -/
theorem echoed_quoted {argument : Text} (hquote : quote ∉ argument) (rest : Text) :
    echoed (bytes "echo " ++ quote :: (argument ++ quote :: rest)) = argument ++ bytes "\n" := by
  rw [echoed, List.splitOn_append_cons_self_of_not_mem (by decide),
    List.splitOn_append_cons_self_of_not_mem hquote]
  rfl

/-- The text that `register_process` has written to the file. -/
theorem echoed_registerProcess (pid period procTime : UInt32) :
    echoed (registerProcess pid period procTime) =
      byte 'R' :: comma :: (bytes " " ++ (decimal pid.toNat ++ comma ::
        (bytes " " ++ (decimal period.toNat ++ comma ::
          (bytes " " ++ (decimal procTime.toNat ++ bytes "\n")))))) := by
  have hquoted : registerProcess pid period procTime = bytes "echo " ++ quote ::
      ((bytes "R, " ++ decimal pid.toNat ++ bytes ", " ++ decimal period.toNat ++ bytes ", " ++
        decimal procTime.toNat) ++ quote :: (bytes " > " ++ mp2Path)) := by
    simp only [registerProcess, List.append_assoc]
    rfl
  rw [hquoted, echoed_quoted]
  · simp only [List.append_assoc]
    rfl
  · simp only [List.mem_append, not_or]
    have hdecimal := notMem_decimal (c := quote) (by decide)
    exact ⟨⟨⟨⟨⟨by decide, hdecimal _⟩, by decide⟩, hdecimal _⟩, by decide⟩, hdecimal _⟩

/-- The text of a command that quotes a letter and a pid. -/
theorem echoed_pid {letter : UInt8} (hletter : quote ≠ letter) (pid : UInt32) (rest : Text) :
    echoed (bytes "echo " ++ quote ::
      ((letter :: comma :: (bytes " " ++ decimal pid.toNat)) ++ quote :: rest)) =
        letter :: comma :: (bytes " " ++ (decimal pid.toNat ++ bytes "\n")) := by
  rw [echoed_quoted]
  · simp only [List.cons_append, List.append_assoc]
  · simp only [List.mem_cons, List.mem_append, not_or]
    exact ⟨hletter, by decide, by decide, notMem_decimal (by decide) _⟩

/-- The text that `yield_process` has written to the file. -/
theorem echoed_yieldProcess (pid : UInt32) : echoed (yieldProcess pid) =
    byte 'Y' :: comma :: (bytes " " ++ (decimal pid.toNat ++ bytes "\n")) := by
  refine Eq.trans ?_ (echoed_pid (by decide) pid (bytes " > " ++ mp2Path))
  simp only [yieldProcess, List.append_assoc]
  rfl

/-- The text that `deregister_process` has written to the file. -/
theorem echoed_deregisterProcess (pid : UInt32) : echoed (deregisterProcess pid) =
    byte 'D' :: comma :: (bytes " " ++ (decimal pid.toNat ++ bytes "\n")) := by
  refine Eq.trans ?_ (echoed_pid (by decide) pid (bytes " > " ++ mp2Path))
  simp only [deregisterProcess, List.append_assoc]
  rfl

/-! ### The round trip -/

/-- A blank and a number before a comma are a field, which reads as the number. -/
theorem splitOn_number_comma (value : ℕ) (rest : Text) :
    (bytes " " ++ (decimal value ++ comma :: rest)).splitOn comma =
      (bytes " " ++ decimal value) :: rest.splitOn comma := by
  rw [← List.append_assoc]
  refine List.splitOn_append_cons_self_of_not_mem ?_ rest
  rw [List.mem_append, not_or]
  exact ⟨by decide, notMem_decimal (by decide) value⟩

/-- A blank, a number and a newline begin a field, which reads as the number. -/
theorem splitOn_number_newline (value : ℕ) (rest : Text) :
    ∃ behind later, (bytes " " ++ (decimal value ++ bytes "\n") ++ rest).splitOn comma =
      (bytes " " ++ (decimal value ++ bytes "\n") ++ behind) :: later := by
  refine ⟨rest.takeWhile (· ≠ comma), fieldsLeft comma (rest.dropWhile (· ≠ comma)).tail?, ?_⟩
  have hline : ∀ c ∈ bytes " " ++ (decimal value ++ bytes "\n"), decide (c ≠ comma) = true := by
    intro c hc
    rw [decide_eq_true_iff]
    rintro rfl
    simp only [List.mem_append] at hc
    rcases hc with hc | hc | hc
    · exact absurd hc (by decide)
    · exact notMem_decimal (by decide) value hc
    · exact absurd hc (by decide)
  rw [splitOn_eq_cons, List.takeWhile_append_of_pos hline, List.dropWhile_append_of_pos hline]

/-- A blank is white space. -/
theorem isSpace_of_mem_blank {c : UInt8} (hc : c ∈ bytes " ") : isSpace c = true := by
  rw [show bytes " " = [32] from rfl, List.mem_singleton] at hc
  rw [hc]
  rfl

/-- The field of a number. -/
theorem scanNumber_field (value : ℕ) : scanNumber (bytes " " ++ decimal value) = some value := by
  have hread : scanNumber (bytes " " ++ (decimal value ++ [])) = some value :=
    scanNumber_decimal value (fun _ ↦ isSpace_of_mem_blank) (by simp)
  rwa [List.append_nil] at hread

/-- The field of a number with a newline and more behind it. -/
theorem scanNumber_line (value : ℕ) (behind : Text) :
    scanNumber (bytes " " ++ (decimal value ++ bytes "\n") ++ behind) = some value := by
  rw [List.append_assoc, List.append_assoc]
  refine scanNumber_decimal value (fun _ ↦ isSpace_of_mem_blank) fun c hc ↦ ?_
  cases hc
  decide

/-- A letter before a comma is a field. -/
theorem splitOn_letter_comma {letter : UInt8} (hletter : letter ≠ comma) (rest : Text) :
    (letter :: comma :: rest).splitOn comma = [letter] :: rest.splitOn comma := by
  have hnot : comma ∉ [letter] := by simpa using hletter.symm
  exact List.splitOn_append_cons_self_of_not_mem hnot rest

/-- A 32-bit number is read back by `%u`. -/
theorem scanU32_of_scanNumber {field : Text} {value : UInt32}
    (hread : scanNumber field = some value.toNat) : scanU32 field = some value := by
  rw [scanU32, hread, Option.map_some, UInt32.ofNat_toNat]

/-- A 32-bit number is read back by `%llu`. -/
theorem scanU64_of_scanNumber {field : Text} {value : UInt32}
    (hread : scanNumber field = some value.toNat) : scanU64 field = some value.toUInt64 := by
  rw [scanU64, hread, Option.map_some, ← UInt32.toNat_toUInt64, UInt64.ofNat_toNat]

/-- The reads of a registration from the text of one, with anything behind it. -/
theorem parseRegister_echoed (pid period procTime : UInt32) (behind : Text) (locals : Locals)
    (op : UInt8) :
    parseRegister locals op (some (cString (echoed (registerProcess pid period procTime) ++
      behind))) = some (.register pid period.toUInt64 procTime.toUInt64) := by
  have hnul : ∀ value : ℕ, (0 : UInt8) ∉ decimal value := notMem_decimal (by decide)
  have hstring : cString (echoed (registerProcess pid period procTime) ++ behind) =
      echoed (registerProcess pid period procTime) ++ cString behind := by
    refine cString_append ?_ behind
    rw [echoed_registerProcess]
    simp only [List.mem_cons, List.mem_append, not_or]
    exact ⟨by decide, by decide, by decide, hnul _, by decide, by decide, hnul _, by decide,
      by decide, hnul _, by decide⟩
  obtain ⟨rest, later, hlast⟩ := splitOn_number_newline procTime.toNat (cString behind)
  have hfields : fieldsLeft comma (some (echoed (registerProcess pid period procTime) ++
      cString behind)) = [byte 'R'] :: (bytes " " ++ decimal pid.toNat) ::
        (bytes " " ++ decimal period.toNat) ::
          (bytes " " ++ (decimal procTime.toNat ++ bytes "\n") ++ rest) :: later := by
    rw [fieldsLeft, Option.elim_some, echoed_registerProcess]
    simp only [List.cons_append, List.append_assoc] at hlast ⊢
    rw [splitOn_letter_comma (by decide), splitOn_number_comma, splitOn_number_comma, hlast]
  rw [hstring, parseRegister_of_fields hfields, scanU32_of_scanNumber (scanNumber_field _),
    scanU64_of_scanNumber (scanNumber_field _), scanU64_of_scanNumber (scanNumber_line _ _)]
  rfl

/-- The read of a pid from a text with a letter and the pid, with anything behind it. -/
theorem parsePid_line {letter : UInt8} (hletter : letter ≠ comma) (hnul : letter ≠ 0)
    (pid : UInt32) (behind : Text) (locals : Locals) (op : UInt8) :
    parsePid locals op (some (cString ((letter :: comma :: (bytes " " ++ (decimal pid.toNat ++
      bytes "\n"))) ++ behind))) = some pid := by
  have hstring : cString ((letter :: comma :: (bytes " " ++ (decimal pid.toNat ++ bytes "\n"))) ++
      behind) = (letter :: comma :: (bytes " " ++ (decimal pid.toNat ++ bytes "\n"))) ++
        cString behind := by
    refine cString_append ?_ behind
    simp only [List.mem_cons, List.mem_append, not_or]
    exact ⟨hnul.symm, by decide, by decide, notMem_decimal (by decide) _, by decide⟩
  obtain ⟨rest, later, hlast⟩ := splitOn_number_newline pid.toNat (cString behind)
  have hfields : fieldsLeft comma (some ((letter :: comma :: (bytes " " ++ (decimal pid.toNat ++
      bytes "\n"))) ++ cString behind)) =
        [letter] :: (bytes " " ++ (decimal pid.toNat ++ bytes "\n") ++ rest) :: later := by
    rw [fieldsLeft, Option.elim_some, List.cons_append, List.cons_append,
      splitOn_letter_comma hletter, hlast]
  rw [hstring, parsePid_eq, hfields, List.getElem?_cons_succ, List.getElem?_cons_zero,
    Option.map_some, scanU32_of_scanNumber (scanNumber_line _ _), Option.getD_some]

/-- The commands of the application are read as they were meant: the same operation with the same
numbers, whatever stands behind the buffer and whatever the variables hold. -/
theorem mp2Parse_echoed (pid period procTime : UInt32) (behind : Text) (locals : Locals) :
    mp2Parse (echoed (registerProcess pid period procTime) ++ behind) locals =
        .command (.register pid period.toUInt64 procTime.toUInt64) ∧
      mp2Parse (echoed (yieldProcess pid) ++ behind) locals = .command (.yeild pid) ∧
      mp2Parse (echoed (deregisterProcess pid) ++ behind) locals = .command (.deregister pid) := by
  refine ⟨?_, ?_, ?_⟩
  · have hop : (echoed (registerProcess pid period procTime) ++ behind).headD 0 = byte 'R' := by
      rw [echoed_registerProcess]
      rfl
    rw [mp2Parse, hop, parseRegister_echoed]
    rfl
  · rw [echoed_yieldProcess, mp2Parse, parsePid_line (by decide) (by decide)]
    rfl
  · rw [echoed_deregisterProcess, mp2Parse, parsePid_line (by decide) (by decide)]
    rfl

end KernelModules.RateMonotonic
