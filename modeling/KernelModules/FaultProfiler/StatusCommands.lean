import KernelModules.Foundation.CommandText
import KernelModules.FaultProfiler.TaskSampling

/-!
# The commands of `/proc/mp3/status`

`mp3_write` of `mp3_main.c`. It takes a command apart like `mp2_write`, at blanks, and hands the pid
to `Task_register` or `Task_deregister`. The pid is a local variable without an initial value, which
`%u` assigns as an `unsigned int`.
-/

set_option autoImplicit false
set_option relaxedAutoImplicit false

namespace KernelModules.FaultProfiler

open Foundation

/-! ### Reading a command -/

/-- The call that `mp3_write` makes. -/
inductive Command
  | register (pid : Int32)
  | deregister (pid : Int32)
  deriving DecidableEq

/-- What the switch of `mp3_write` comes to: no case, a NULL passed to `sscanf`, or a call. -/
inductive Parsed
  | ignored
  | nullToken
  | command (command : Command)
  deriving DecidableEq

/-- The separator of the fields. -/
def blank : UInt8 := byte ' '

/-- The conversion `%u` into an `int`. -/
def scanI32 (field : Text) : Option Int32 := (scanU32 field).map UInt32.toInt32

/-- The reads of `case 'R'` and of `case 'U'`. -/
def parsePid (pid : Int32) (op : UInt8) (buf : Option Text) : Option Int32 := do
  let (_, buf) ← scanField blank scanChar op buf
  let (pid, _) ← scanField blank scanI32 pid buf
  return pid

/-- The reads come to a call, or to a NULL. -/
def Parsed.ofRead (read : Option Command) : Parsed := read.elim .nullToken .command

/-- The switch of `mp3_write` on the memory from the start of the buffer. -/
def mp3Parse (mem : Text) (pid : Int32) : Parsed :=
  let op := mem.headD 0
  let buf := some (cString mem)
  if op = byte 'R' then .ofRead ((parsePid pid op buf).map .register)
  else if op = byte 'U' then .ofRead ((parsePid pid op buf).map .deregister)
  else .ignored

/-! ### Carrying it out -/

/-- How a write ends: with a count, with a read of the object of size 0 that `kmalloc(0)` returns,
or with a NULL passed to `sscanf`. -/
inductive WriteOutcome
  | returned (count : ℕ)
  | zeroSize
  | nullToken
  deriving DecidableEq

/-- What a write ends with, and the state it leaves. -/
structure WriteResult where
  outcome : WriteOutcome
  state : Mp3

/-- The state after a call, whose code `mp3_write` does not look at. -/
def Command.call (s : Mp3) : Command → Mp3
  | .register pid => (s.taskRegister pid).2
  | .deregister pid => (s.taskDeregister pid).2

/-- `mp3_write` of the bytes, with other bytes behind its buffer. -/
def mp3Write (written behind : Text) (pid : Int32) (s : Mp3) : WriteResult :=
  if written = [] then ⟨.zeroSize, s⟩
  else
    match mp3Parse (written ++ behind) pid with
    | .ignored => ⟨.returned written.length, s⟩
    | .nullToken => ⟨.nullToken, s⟩
    | .command command => ⟨.returned written.length, command.call s⟩

/-- The pid is read off the second field. -/
theorem parsePid_eq (pid : Int32) (op : UInt8) (buf : Option Text) :
    parsePid pid op buf = (fieldsLeft blank buf)[1]?.map fun field ↦ (scanI32 field).getD pid :=
  scanField_second scanI32 pid op buf

end KernelModules.FaultProfiler
