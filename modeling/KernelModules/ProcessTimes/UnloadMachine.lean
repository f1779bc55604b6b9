import KernelModules.ProcessTimes.ProcessList

/-!
# Writes, ticks and the unload, step by step

The steps of any number of calls of `mp1_write`, of the runs of `mp1_time_handler` and of one
`mp1_exit`, in any order. The list is the list of its nodes, in their order; a node that is removed
has poisoned pointers, and a loop that follows them has no step any more. A record is allocated when
it is added, as nobody sees its address before.

`setup_timer` makes the timer one that is not pending, also when it was; `del_timer` does not wait
for a run of the handler; `remove_proc_entry` refuses new calls and waits for those in progress.
-/

set_option autoImplicit false
set_option relaxedAutoImplicit false

namespace KernelModules.ProcessTimes

open Foundation

/-! ### The parties -/

/-- The next step of a call of `mp1_write`. -/
inductive WritePc
  | start (pid : UInt32)
  | lock (pid : UInt32)
  | add (pid : UInt32)
  | unlock
  | test
  | setup
  | mod
  | started
  | returned
  deriving DecidableEq

/-- The call is between its test of `timer_start` and its assignment. -/
def WritePc.startsTimer : WritePc → Bool
  | .setup | .mod | .started => true
  | _ => false

/-- The next step of the call adds a record to the list. -/
def WritePc.adds : WritePc → Bool
  | .add _ => true
  | _ => false

/-- The next step of `mp1_time_handler`. The loop is at a node, with the next one. -/
inductive TickPc
  | idle
  | lock
  | first
  | loop (itr tmp : Addr)
  | advance (tmp : Addr)
  | unlock
  | rearm
  deriving DecidableEq

/-- The next step of `mp1_exit`. -/
inductive ExitPc
  | idle
  | free (itr tmp : Addr)
  | advance (tmp : Addr)
  | flushWorkqueue
  | destroyWorkqueue
  | delTimer
  | kfree
  | removeStatus
  | waitStatus
  | removeDir
  | returned
  deriving DecidableEq

/-- The loop that frees the list has no node ahead. -/
def ExitPc.freed : ExitPc → Bool
  | .idle => false
  | .free _ tmp => tmp = pList
  | .advance tmp => tmp = pList
  | _ => true

/-- `del_timer` has been called. -/
def ExitPc.timerDeleted : ExitPc → Bool
  | .kfree | .removeStatus | .waitStatus | .removeDir | .returned => true
  | _ => false

/-- The nodes of the list and the records by their address, the timer, and where the parties are.
The calls in progress are those in `inUse`. The timer has been set up `setups` times, and
`reinitialised` says whether it was pending at one of them. -/
structure Lifecycle (ι : Type*) where
  nodes : List Addr
  process : Addr → Process
  fresh : Addr
  locked : Bool
  timerStart : Bool
  pending : Bool
  setups : ℕ
  reinitialised : Bool
  tick : TickPc
  exit : ExitPc
  removed : Bool
  inUse : Finset ι
  writes : ι → WritePc

/-- A step: of a call, an expiry of the timer, of the handler with the user times that it meets, or
of `mp1_exit`. -/
inductive LifecycleLabel (ι : Type*)
  | write (i : ι)
  | expire
  | tick (utimes : Utimes)
  | exit

namespace Lifecycle

variable {ι : Type*}

/-- The state that `mp1_init` leaves, with a call for every pid. -/
def start (process : Addr → Process) (pids : ι → UInt32) : Lifecycle ι where
  nodes := []
  process := process
  fresh := pList + 1
  locked := false
  timerStart := false
  pending := false
  setups := 0
  reinitialised := false
  tick := .idle
  exit := .idle
  removed := false
  inUse := ∅
  writes := fun i ↦ .start (pids i)

/-! ### The list -/

/-- The next pointer of a node or of the head. The pointers of a removed node are poisoned. -/
def after (m : Lifecycle ι) (node : Addr) : Option Addr :=
  if node = pList then some (m.nodes.headD pList)
  else
    match m.nodes.dropWhile (· ≠ node) with
    | [] => none
    | _ :: rest => some (rest.headD pList)

/-- `list_del`, which follows the pointers of the node. -/
def listDel (m : Lifecycle ι) (node : Addr) : Option (Lifecycle ι) :=
  if node ∈ m.nodes then some { m with nodes := m.nodes.erase node } else none

/-- `list_add_tail` of a new record. -/
def listAddTail (m : Lifecycle ι) (pid : UInt32) : Lifecycle ι :=
  { m with
    nodes := m.nodes ++ [m.fresh]
    process := Function.update m.process m.fresh ⟨pid, 0⟩
    fresh := m.fresh + 1 }

/-! ### Steps -/

/-- The next step of `mp1_time_handler`. -/
def tickStep (utimes : Utimes) (m : Lifecycle ι) : Option (Lifecycle ι) :=
  match m.tick with
  | .idle => none
  | .lock => if m.locked then none else some { m with locked := true, tick := .first }
  | .first =>
    (m.after (m.nodes.headD pList)).map fun tmp ↦
      { m with tick := .loop (m.nodes.headD pList) tmp }
  | .loop itr tmp =>
    if itr = pList then some { m with tick := .unlock }
    else
      match getCpuUse utimes (m.process itr).pid with
      | none => (m.listDel itr).map fun m ↦ { m with tick := .advance tmp }
      | some cpuUse =>
        some { m with
          process := Function.update m.process itr ⟨(m.process itr).pid, cpuUse.toInt64⟩
          tick := .advance tmp }
  | .advance tmp => (m.after tmp).map fun ahead ↦ { m with tick := .loop tmp ahead }
  | .unlock => some { m with locked := false, tick := .rearm }
  | .rearm => some { m with pending := true, tick := .idle }

/-- The next step of `mp1_exit`, which takes no lock. -/
def exitStep (m : Lifecycle ι) : Option (Lifecycle ι) :=
  match m.exit with
  | .idle =>
    (m.after (m.nodes.headD pList)).map fun tmp ↦
      { m with exit := .free (m.nodes.headD pList) tmp }
  | .free itr tmp =>
    if itr = pList then some { m with exit := .flushWorkqueue }
    else (m.listDel itr).map fun m ↦ { m with exit := .advance tmp }
  | .advance tmp => (m.after tmp).map fun ahead ↦ { m with exit := .free tmp ahead }
  | .flushWorkqueue => some { m with exit := .destroyWorkqueue }
  | .destroyWorkqueue => some { m with exit := .delTimer }
  | .delTimer => some { m with pending := false, exit := .kfree }
  | .kfree => some { m with exit := .removeStatus }
  | .removeStatus => some { m with removed := true, exit := .waitStatus }
  | .waitStatus => if m.inUse.card = 0 then some { m with exit := .removeDir } else none
  | .removeDir => some { m with exit := .returned }
  | .returned => none

variable [DecidableEq ι]

/-- A call goes on. -/
@[simps] def goto (m : Lifecycle ι) (i : ι) (pc : WritePc) : Lifecycle ι :=
  { m with writes := Function.update m.writes i pc }

/-- The next step of a call of `mp1_write`. -/
def writeStep (m : Lifecycle ι) (i : ι) : Option (Lifecycle ι) :=
  match m.writes i with
  | .start pid =>
    if m.removed then none else some { m.goto i (.lock pid) with inUse := insert i m.inUse }
  | .lock pid => if m.locked then none else some { m.goto i (.add pid) with locked := true }
  | .add pid => some ((m.listAddTail pid).goto i .unlock)
  | .unlock => some { m.goto i .test with locked := false }
  | .test =>
    some (if m.timerStart then { m.goto i .returned with inUse := m.inUse.erase i }
      else m.goto i .setup)
  | .setup =>
    some { m.goto i .mod with
      pending := false
      setups := m.setups + 1
      reinitialised := m.reinitialised || m.pending }
  | .mod => some { m.goto i .started with pending := true }
  | .started =>
    some { m.goto i .returned with timerStart := true, inUse := m.inUse.erase i }
  | .returned => none

/-- The step of the module. -/
def next (m : Lifecycle ι) : LifecycleLabel ι → Option (Lifecycle ι)
  | .write i => m.writeStep i
  | .expire =>
    if m.pending = true ∧ m.tick = .idle then some { m with pending := false, tick := .lock }
    else none
  | .tick utimes => m.tickStep utimes
  | .exit => m.exitStep

/-! ### What a step can do -/

section Tick

omit [DecidableEq ι]

/-- The handler leaves the list alone, or removes one node. -/
inductive Removes (m : Lifecycle ι) : List Addr → Prop
  | none : Removes m m.nodes
  | one {node : Addr} (hnode : node ∈ m.nodes) : Removes m (m.nodes.erase node)

/-- What a step of the handler can do to the timer: a run goes on, or ends with the timer pending.
-/
inductive Ticks (m : Lifecycle ι) : Bool → TickPc → Prop
  | goesOn {tick : TickPc} (htick : tick ≠ .idle) : Ticks m m.pending tick
  | rearms : Ticks m true .idle

/-- What a step of the handler can do. -/
theorem tickStep_spec {m later : Lifecycle ι} {utimes : Utimes}
    (hstep : m.tickStep utimes = some later) :
    m.tick ≠ .idle ∧ ∃ nodes process locked pending tick, Removes m nodes ∧ Ticks m pending tick ∧
      later = { m with
        nodes := nodes, process := process, locked := locked, pending := pending,
        tick := tick } := by
  unfold tickStep at hstep
  cases hpc : m.tick with
  | idle =>
    rw [hpc] at hstep
    cases hstep
  | lock =>
    rw [hpc] at hstep
    dsimp only at hstep
    split_ifs at hstep
    cases hstep
    exact ⟨TickPc.noConfusion, _, _, _, _, _, .none, .goesOn TickPc.noConfusion, rfl⟩
  | first =>
    rw [hpc] at hstep
    obtain ⟨tmp, -, rfl⟩ := Option.map_eq_some_iff.mp hstep
    exact ⟨TickPc.noConfusion, _, _, _, _, _, .none, .goesOn TickPc.noConfusion, rfl⟩
  | loop itr tmp =>
    rw [hpc] at hstep
    dsimp only at hstep
    refine ⟨TickPc.noConfusion, ?_⟩
    split_ifs at hstep with hhead
    · cases hstep
      exact ⟨_, _, _, _, _, .none, .goesOn TickPc.noConfusion, rfl⟩
    · split at hstep
      · obtain ⟨middle, hmiddle, rfl⟩ := Option.map_eq_some_iff.mp hstep
        obtain ⟨hnode, rfl⟩ := Option.ite_none_right_eq_some.mp hmiddle |>.imp id Option.some.inj
        exact ⟨_, _, _, _, _, .one hnode, .goesOn TickPc.noConfusion, rfl⟩
      · cases hstep
        exact ⟨_, _, _, _, _, .none, .goesOn TickPc.noConfusion, rfl⟩
  | advance tmp =>
    rw [hpc] at hstep
    obtain ⟨ahead, -, rfl⟩ := Option.map_eq_some_iff.mp hstep
    exact ⟨TickPc.noConfusion, _, _, _, _, _, .none, .goesOn TickPc.noConfusion, rfl⟩
  | unlock =>
    rw [hpc] at hstep
    cases hstep
    exact ⟨TickPc.noConfusion, _, _, _, _, _, .none, .goesOn TickPc.noConfusion, rfl⟩
  | rearm =>
    rw [hpc] at hstep
    cases hstep
    exact ⟨TickPc.noConfusion, _, _, _, _, _, .none, .rearms, rfl⟩

/-- What a step of `mp1_exit` can do. -/
inductive ExitStep (m : Lifecycle ι) : ExitPc → Lifecycle ι → Prop
  | begins {tmp : Addr} (htmp : m.after (m.nodes.headD pList) = some tmp) :
    ExitStep m .idle { m with exit := .free (m.nodes.headD pList) tmp }
  | freed {tmp : Addr} : ExitStep m (.free pList tmp) { m with exit := .flushWorkqueue }
  | free {itr tmp : Addr} (hitr : itr ≠ pList) (hmem : itr ∈ m.nodes) :
    ExitStep m (.free itr tmp) { m with nodes := m.nodes.erase itr, exit := .advance tmp }
  | advance {tmp ahead : Addr} (hahead : m.after tmp = some ahead) :
    ExitStep m (.advance tmp) { m with exit := .free tmp ahead }
  | flushWorkqueue : ExitStep m .flushWorkqueue { m with exit := .destroyWorkqueue }
  | destroyWorkqueue : ExitStep m .destroyWorkqueue { m with exit := .delTimer }
  | delTimer : ExitStep m .delTimer { m with pending := false, exit := .kfree }
  | kfree : ExitStep m .kfree { m with exit := .removeStatus }
  | removeStatus : ExitStep m .removeStatus { m with removed := true, exit := .waitStatus }
  | waitStatus (hinUse : m.inUse.card = 0) : ExitStep m .waitStatus { m with exit := .removeDir }
  | removeDir : ExitStep m .removeDir { m with exit := .returned }

/-- A step of `mp1_exit` does one of these. -/
theorem exitStep_spec {m later : Lifecycle ι} (hstep : m.exitStep = some later) :
    ExitStep m m.exit later := by
  unfold exitStep at hstep
  cases hpc : m.exit with
  | idle =>
    rw [hpc] at hstep
    obtain ⟨tmp, htmp, rfl⟩ := Option.map_eq_some_iff.mp hstep
    exact .begins htmp
  | free itr tmp =>
    rw [hpc] at hstep
    dsimp only at hstep
    split_ifs at hstep with hitr
    · cases hstep
      rw [hitr]
      exact .freed
    · obtain ⟨middle, hmiddle, rfl⟩ := Option.map_eq_some_iff.mp hstep
      obtain ⟨hmem, rfl⟩ := Option.ite_none_right_eq_some.mp hmiddle |>.imp id Option.some.inj
      exact .free hitr hmem
  | advance tmp =>
    rw [hpc] at hstep
    obtain ⟨ahead, hahead, rfl⟩ := Option.map_eq_some_iff.mp hstep
    exact .advance hahead
  | waitStatus =>
    rw [hpc] at hstep
    obtain ⟨hinUse, rfl⟩ := Option.ite_none_right_eq_some.mp hstep |>.imp id Option.some.inj
    exact .waitStatus hinUse
  | returned =>
    rw [hpc] at hstep
    cases hstep
  | _ =>
    rw [hpc] at hstep
    cases hstep
    constructor

end Tick

/-- What a step of a call can do. -/
inductive WriteStep (m : Lifecycle ι) (i : ι) : WritePc → Lifecycle ι → Prop
  | start {pid : UInt32} (hremoved : m.removed = false) :
    WriteStep m i (.start pid) { m.goto i (.lock pid) with inUse := insert i m.inUse }
  | lock {pid : UInt32} (hlocked : m.locked = false) :
    WriteStep m i (.lock pid) { m.goto i (.add pid) with locked := true }
  | add {pid : UInt32} : WriteStep m i (.add pid) ((m.listAddTail pid).goto i .unlock)
  | unlock : WriteStep m i .unlock { m.goto i .test with locked := false }
  | isStarted (hstart : m.timerStart = true) :
    WriteStep m i .test { m.goto i .returned with inUse := m.inUse.erase i }
  | notStarted (hstart : m.timerStart = false) : WriteStep m i .test (m.goto i .setup)
  | setup : WriteStep m i .setup
    { m.goto i .mod with
      pending := false
      setups := m.setups + 1
      reinitialised := m.reinitialised || m.pending }
  | mod : WriteStep m i .mod { m.goto i .started with pending := true }
  | started : WriteStep m i .started
    { m.goto i .returned with timerStart := true, inUse := m.inUse.erase i }

/-- A step of a call does one of these. -/
theorem writeStep_spec {m later : Lifecycle ι} {i : ι} (hstep : m.writeStep i = some later) :
    WriteStep m i (m.writes i) later := by
  unfold writeStep at hstep
  cases hpc : m.writes i with
  | start pid =>
    rw [hpc] at hstep
    obtain ⟨hremoved, rfl⟩ := Option.ite_none_left_eq_some.mp hstep |>.imp id Option.some.inj
    exact .start (Bool.eq_false_of_not_eq_true hremoved)
  | lock pid =>
    rw [hpc] at hstep
    obtain ⟨hlocked, rfl⟩ := Option.ite_none_left_eq_some.mp hstep |>.imp id Option.some.inj
    exact .lock (Bool.eq_false_of_not_eq_true hlocked)
  | test =>
    rw [hpc] at hstep
    cases hstep
    split_ifs with hstart
    · exact .isStarted hstart
    · exact .notStarted (Bool.eq_false_of_not_eq_true hstart)
  | returned =>
    rw [hpc] at hstep
    cases hstep
  | _ =>
    rw [hpc] at hstep
    cases hstep
    constructor

end Lifecycle

end KernelModules.ProcessTimes
