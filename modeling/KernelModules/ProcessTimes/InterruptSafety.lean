import KernelModules.ProcessTimes.ProcessList

/-!
# Expiries of the timer under `lock`

`mp1_time_handler` runs as a bottom half: it may start between any two steps of the code that runs
on its CPU, unless bottom halves are disabled there, and it comes to its end before that code goes
on. `mp1_read` and `mp1_write` take `lock` with `spin_lock`, which leaves bottom halves enabled.

`mp1_always_lockSafe_iff` says which runs are safe: those in which the handler never starts while
the code that it interrupts holds `lock`. With `spin_lock_bh` in the two functions all runs would be
(`always_lockSafe_spinLockBh`).
-/

set_option autoImplicit false
set_option relaxedAutoImplicit false

namespace KernelModules.ProcessTimes

open Foundation

/-! ### The CPU -/

/-- The calls that take a spin lock. `spin_lock_bh` disables the bottom halves of the CPU until the
lock is released. -/
inductive SpinLock
  | spinLock
  | spinLockBh
  deriving DecidableEq

/-- Who holds `lock`: the code that runs on the CPU, or the handler that interrupts it. -/
inductive LockHolder
  | code
  | handler
  deriving DecidableEq

/-- The next step of `mp1_read` or `mp1_write`. The loop of `mp1_read` is at an index of the list
and has printed the processes before. -/
inductive CodePc
  | idle
  | readTest
  | readClear
  | readSet
  | readLock
  | readLoop (itr : ℕ) (printed : List Process)
  | readUnlock (printed : List Process)
  | readCopy (printed : List Process)
  | writeLock (pid : UInt32)
  | writeAdd (pid : UInt32)
  | writeUnlock
  | writeTest
  | writeSetup
  | writeMod
  | writeStarted
  deriving DecidableEq

/-- The next step of `mp1_time_handler`, whose loop is at an index of the list. -/
inductive HandlerPc
  | idle
  | lock
  | loop (itr : ℕ)
  | unlock
  | rearm
  deriving DecidableEq

/-- The code is between its lock and its unlock. -/
def CodePc.holds : CodePc → Bool
  | .readLoop _ _ | .readUnlock _ | .writeAdd _ | .writeUnlock => true
  | _ => false

/-- The handler is between its lock and its unlock. -/
def HandlerPc.holds : HandlerPc → Bool
  | .loop _ | .unlock => true
  | _ => false

/-- The CPU: the globals of the module, the code that runs and the handler. -/
structure Cpu where
  processes : List Process
  finished : Bool
  timerStart : Bool
  timerPending : Bool
  lock : Option LockHolder
  code : CodePc
  handler : HandlerPc
  deriving DecidableEq

/-- What happens on the CPU: a call, the next step of the code, an expiry of the timer, or the next
step of the handler with the user times that it meets. -/
inductive CpuEvent
  | read
  | write (text : PidText)
  | step
  | expire
  | handlerStep (utimes : Utimes)

namespace Cpu

/-- The CPU between two calls, with any list. The timer is pending if it has been started. -/
def start (processes : List Process) (timerStart : Bool) : Cpu where
  processes := processes
  finished := false
  timerStart := timerStart
  timerPending := timerStart
  lock := none
  code := .idle
  handler := .idle

/-- The next step of `mp1_read` or `mp1_write`. -/
def codeStep (s : Cpu) : Option Cpu :=
  match s.code with
  | .idle => none
  | .readTest => some { s with code := if s.finished then .readClear else .readSet }
  | .readClear => some { s with finished := false, code := .idle }
  | .readSet => some { s with finished := true, code := .readLock }
  | .readLock =>
    if s.lock = none then some { s with lock := some .code, code := .readLoop 0 [] } else none
  | .readLoop itr printed =>
    match s.processes[itr]? with
    | some process => some { s with code := .readLoop (itr + 1) (printed ++ [process]) }
    | none => some { s with code := .readUnlock printed }
  | .readUnlock printed => some { s with lock := none, code := .readCopy printed }
  | .readCopy _ => some { s with code := .idle }
  | .writeLock pid =>
    if s.lock = none then some { s with lock := some .code, code := .writeAdd pid } else none
  | .writeAdd pid => some { s with processes := s.processes ++ [⟨pid, 0⟩], code := .writeUnlock }
  | .writeUnlock => some { s with lock := none, code := .writeTest }
  | .writeTest => some { s with code := if s.timerStart then .idle else .writeSetup }
  | .writeSetup => some { s with timerPending := false, code := .writeMod }
  | .writeMod => some { s with timerPending := true, code := .writeStarted }
  | .writeStarted => some { s with timerStart := true, code := .idle }

/-- The next step of `mp1_time_handler`. -/
def handlerStep (utimes : Utimes) (s : Cpu) : Option Cpu :=
  match s.handler with
  | .idle => none
  | .lock =>
    if s.lock = none then some { s with lock := some .handler, handler := .loop 0 } else none
  | .loop itr =>
    match s.processes[itr]? with
    | some process =>
      match getCpuUse utimes process.pid with
      | none => some { s with processes := s.processes.eraseIdx itr }
      | some cpuUse =>
        some { s with
          processes := s.processes.set itr { process with time := cpuUse.toInt64 }
          handler := .loop (itr + 1) }
    | none => some { s with handler := .unlock }
  | .unlock => some { s with lock := none, handler := .rearm }
  | .rearm => some { s with timerPending := true, handler := .idle }

/-- Bottom halves are disabled: the code holds `lock`, and has taken it with `spin_lock_bh`. -/
def BhDisabled (variant : SpinLock) (s : Cpu) : Prop :=
  variant = .spinLockBh ∧ s.lock = some .code

instance (variant : SpinLock) (s : Cpu) : Decidable (s.BhDisabled variant) :=
  inferInstanceAs (Decidable (variant = .spinLockBh ∧ s.lock = some .code))

/-- The step of the CPU, where `mp1_read` and `mp1_write` take `lock` with the call `variant`. The
code goes on only while the handler is idle. -/
def next (variant : SpinLock) (s : Cpu) : CpuEvent → Option Cpu
  | .read => if s.handler = .idle ∧ s.code = .idle then some { s with code := .readTest } else none
  | .write text =>
    if s.handler = .idle ∧ s.code = .idle then some { s with code := .writeLock text.pid } else none
  | .step => if s.handler = .idle then s.codeStep else none
  | .expire =>
    if s.timerPending = true ∧ s.handler = .idle ∧ ¬ s.BhDisabled variant then
      some { s with timerPending := false, handler := .lock }
    else none
  | .handlerStep utimes => s.handlerStep utimes

/-! ### The law -/

/-- The handler waits for `lock` while the code that it interrupted holds it. -/
def WaitsForInterrupted (s : Cpu) : Prop := s.handler = .lock ∧ s.lock = some .code

/-- A call or a run of the handler has not come to its end. -/
def Unfinished (s : Cpu) : Prop := s.code ≠ .idle ∨ s.handler ≠ .idle

/-- The code has a step and is not interrupted, or the handler has one. -/
def CanStep (s : Cpu) : Prop :=
  (s.handler = .idle ∧ s.codeStep.isSome = true) ∨
    ∀ utimes, (s.handlerStep utimes).isSome = true

/-- The handler does not wait for the code that it interrupted, and some step is possible while
anything is unfinished. -/
def LockSafe (s : Cpu) : Prop := ¬ s.WaitsForInterrupted ∧ (s.Unfinished → s.CanStep)

/-- An expiry does not meet code between a lock and an unlock. -/
def ExpiresOutside (s : Cpu) : CpuEvent → Prop
  | .expire => s.code.holds = false
  | _ => True

instance (s : Cpu) : ∀ event, Decidable (s.ExpiresOutside event)
  | .expire => inferInstanceAs (Decidable (s.code.holds = false))
  | .read | .write _ | .step | .handlerStep _ => isTrue trivial

/-! ### Who holds the lock -/

/-- `lock` is held by the one who is between a lock and an unlock, and not by code that the handler
has interrupted. -/
structure LockHeld (s : Cpu) : Prop where
  code : s.lock = some .code ↔ s.code.holds = true
  handler : s.lock = some .handler ↔ s.handler.holds = true
  interrupted : s.handler ≠ .idle → s.lock ≠ some .code

/-- What a step of a party does with the lock: nothing, or it takes the free lock, or it releases
the lock that it holds. The last two arguments say whether the party is between a lock and an unlock
before and after the step. -/
inductive LockEffect (party : LockHolder) (before after : Option LockHolder) :
    (held holds : Bool) → Prop
  | kept {held : Bool} (hlock : after = before) : LockEffect party before after held held
  | taken {held : Bool} (hfree : before = none) (hlock : after = some party) :
    LockEffect party before after held true
  | released (hlock : after = none) : LockEffect party before after true false

namespace LockEffect

variable {party other : LockHolder} {before after : Option LockHolder} {held holds : Bool}

/-- The party holds the lock after the step exactly between a lock and an unlock. -/
theorem holder_iff (heffect : LockEffect party before after held holds)
    (hbefore : before = some party ↔ held = true) : after = some party ↔ holds = true := by
  cases heffect with
  | kept hlock =>
    rw [hlock]
    exact hbefore
  | taken _ hlock => exact iff_of_true hlock rfl
  | released hlock =>
    rw [hlock]
    exact iff_of_false (Option.some_ne_none party).symm Bool.false_ne_true

/-- The other party does not get the lock by the step. -/
theorem ne_other (heffect : LockEffect party before after held holds) (hne : party ≠ other)
    (hbefore : before ≠ some other) : after ≠ some other := by
  cases heffect with
  | kept hlock =>
    rw [hlock]
    exact hbefore
  | taken _ hlock =>
    rw [hlock]
    exact fun hsome ↦ hne (Option.some.inj hsome)
  | released hlock =>
    rw [hlock]
    exact (Option.some_ne_none other).symm

end LockEffect

/-- A step of the code leaves the handler alone. -/
theorem codeStep_spec {s later : Cpu} (hstep : s.codeStep = some later) :
    later.handler = s.handler ∧
      LockEffect .code s.lock later.lock s.code.holds later.code.holds := by
  unfold codeStep at hstep
  cases hpc : s.code with
  | idle =>
    rw [hpc] at hstep
    cases hstep
  | readTest =>
    rw [hpc] at hstep
    cases hstep
    have hholds : CodePc.holds (if s.finished then .readClear else .readSet) = false := by
      split_ifs <;> rfl
    exact ⟨rfl, hholds ▸ .kept rfl⟩
  | readLock =>
    rw [hpc] at hstep
    obtain ⟨hfree, rfl⟩ := Option.ite_none_right_eq_some.mp hstep |>.imp id Option.some.inj
    exact ⟨rfl, .taken hfree rfl⟩
  | readLoop itr printed =>
    rw [hpc] at hstep
    dsimp only at hstep
    split at hstep <;> cases hstep <;> exact ⟨rfl, .kept rfl⟩
  | writeLock pid =>
    rw [hpc] at hstep
    obtain ⟨hfree, rfl⟩ := Option.ite_none_right_eq_some.mp hstep |>.imp id Option.some.inj
    exact ⟨rfl, .taken hfree rfl⟩
  | writeTest =>
    rw [hpc] at hstep
    cases hstep
    have hholds : CodePc.holds (if s.timerStart then .idle else .writeSetup) = false := by
      split_ifs <;> rfl
    exact ⟨rfl, hholds ▸ .kept rfl⟩
  | readUnlock _ | writeUnlock =>
    rw [hpc] at hstep
    cases hstep
    exact ⟨rfl, .released rfl⟩
  | _ =>
    rw [hpc] at hstep
    cases hstep
    exact ⟨rfl, .kept rfl⟩

/-- A step of the handler leaves the code alone. -/
theorem handlerStep_spec {s later : Cpu} {utimes : Utimes}
    (hstep : s.handlerStep utimes = some later) :
    s.handler ≠ .idle ∧ later.code = s.code ∧
      LockEffect .handler s.lock later.lock s.handler.holds later.handler.holds := by
  unfold handlerStep at hstep
  cases hpc : s.handler with
  | idle =>
    rw [hpc] at hstep
    cases hstep
  | lock =>
    rw [hpc] at hstep
    obtain ⟨hfree, rfl⟩ := Option.ite_none_right_eq_some.mp hstep |>.imp id Option.some.inj
    exact ⟨HandlerPc.noConfusion, rfl, .taken hfree rfl⟩
  | loop itr =>
    rw [hpc] at hstep
    refine ⟨HandlerPc.noConfusion, ?_⟩
    dsimp only at hstep
    split at hstep
    · split at hstep
      · cases hstep
        exact ⟨rfl, .kept rfl⟩
      · cases hstep
        exact ⟨rfl, .kept rfl⟩
    · cases hstep
      exact ⟨rfl, .kept rfl⟩
  | unlock =>
    rw [hpc] at hstep
    cases hstep
    exact ⟨HandlerPc.noConfusion, rfl, .released rfl⟩
  | rearm =>
    rw [hpc] at hstep
    cases hstep
    exact ⟨HandlerPc.noConfusion, rfl, .kept rfl⟩

namespace LockHeld

variable {s later : Cpu}

/-- The start. -/
theorem start (processes : List Process) (timerStart : Bool) :
    LockHeld (Cpu.start processes timerStart) := by
  refine ⟨?_, ?_, fun hhandler ↦ absurd rfl hhandler⟩
  · exact iff_of_false (fun hlock ↦ by cases hlock) Bool.false_ne_true
  · exact iff_of_false (fun hlock ↦ by cases hlock) Bool.false_ne_true

/-- A step of the code keeps the lock right. Assumes: the handler is idle. -/
theorem codeStep (hs : LockHeld s) (hidle : s.handler = .idle) (hstep : s.codeStep = some later) :
    LockHeld later := by
  obtain ⟨hhandler, heffect⟩ := codeStep_spec hstep
  have hnotHandler : s.lock ≠ some .handler := by
    rw [Ne, hs.handler, hidle]
    exact Bool.false_ne_true
  refine ⟨heffect.holder_iff hs.code, ?_, fun hbusy ↦ absurd (hhandler.trans hidle) hbusy⟩
  rw [hhandler, hidle]
  exact iff_of_false (heffect.ne_other LockHolder.noConfusion hnotHandler) Bool.false_ne_true

/-- A step of the handler keeps the lock right. -/
theorem handlerStep (hs : LockHeld s) {utimes : Utimes}
    (hstep : s.handlerStep utimes = some later) : LockHeld later := by
  obtain ⟨hbusy, hcode, heffect⟩ := handlerStep_spec hstep
  have hnotCode := hs.interrupted hbusy
  have houtside : s.code.holds ≠ true := fun hholds ↦ hnotCode (hs.code.mpr hholds)
  have hlater := heffect.ne_other LockHolder.noConfusion hnotCode
  refine ⟨?_, heffect.holder_iff hs.handler, fun _ ↦ hlater⟩
  rw [hcode]
  exact iff_of_false hlater houtside

/-- A step keeps the lock right if it is not an expiry between a lock and an unlock of the code. -/
theorem next (hs : LockHeld s) {variant : SpinLock} {event : CpuEvent}
    (houtside : s.ExpiresOutside event) (hnext : s.next variant event = some later) :
    LockHeld later := by
  cases event with
  | read | write =>
    obtain ⟨⟨-, hidle⟩, rfl⟩ := Option.ite_none_right_eq_some.mp hnext |>.imp id Option.some.inj
    refine ⟨?_, hs.handler, hs.interrupted⟩
    rw [hs.code, hidle]
    rfl
  | step =>
    obtain ⟨hidle, hstep⟩ := Option.ite_none_right_eq_some.mp hnext
    exact hs.codeStep hidle hstep
  | expire =>
    obtain ⟨⟨-, hidle, -⟩, rfl⟩ := Option.ite_none_right_eq_some.mp hnext |>.imp id Option.some.inj
    have hnotHolds : ¬ s.code.holds = true := Bool.not_eq_true _ ▸ houtside
    refine ⟨hs.code, ?_, fun _ hcode ↦ hnotHolds (hs.code.mp hcode)⟩
    rw [hs.handler, hidle]
    rfl
  | handlerStep utimes => exact hs.handlerStep hnext

/-- With `spin_lock_bh` no expiry comes between a lock and an unlock of the code. -/
theorem expiresOutside_spinLockBh (hs : LockHeld s) {event : CpuEvent}
    (hnext : s.next .spinLockBh event = some later) : s.ExpiresOutside event := by
  cases event with
  | expire =>
    obtain ⟨⟨-, -, henabled⟩, -⟩ := Option.ite_none_right_eq_some.mp hnext
    refine Bool.eq_false_iff.mpr fun hholds ↦ ?_
    exact henabled ⟨rfl, hs.code.mpr hholds⟩
  | _ => trivial

/-- Code that is not interrupted has a step. -/
theorem isSome_codeStep (hs : LockHeld s) (hidle : s.handler = .idle) (hcode : s.code ≠ .idle) :
    s.codeStep.isSome = true := by
  have hlock : s.code.holds = false → s.lock = none := by
    intro houtside
    cases hlock : s.lock with
    | none => rfl
    | some holder =>
      cases holder with
      | code => rw [hs.code.mp hlock] at houtside; cases houtside
      | handler =>
        have hholds := hs.handler.mp hlock
        rw [hidle] at hholds
        cases hholds
  unfold Cpu.codeStep
  cases hpc : s.code with
  | idle => exact absurd hpc hcode
  | readLock => simp [hlock (congrArg CodePc.holds hpc)]
  | writeLock pid => simp [hlock (congrArg CodePc.holds hpc)]
  | readLoop itr printed =>
    dsimp only
    split <;> rfl
  | _ => rfl

/-- A run of the handler has a step. -/
theorem isSome_handlerStep (hs : LockHeld s) (hbusy : s.handler ≠ .idle) (utimes : Utimes) :
    (s.handlerStep utimes).isSome = true := by
  unfold Cpu.handlerStep
  cases hpc : s.handler with
  | idle => exact absurd hpc hbusy
  | lock =>
    have hfree : s.lock = none := by
      cases hlock : s.lock with
      | none => rfl
      | some holder =>
        cases holder with
        | code => exact absurd hlock (hs.interrupted hbusy)
        | handler =>
          have hholds := hs.handler.mp hlock
          rw [hpc] at hholds
          cases hholds
    simp [hfree]
  | loop itr =>
    dsimp only
    split
    · split <;> rfl
    · rfl
  | unlock => rfl
  | rearm => rfl

/-- The lock is safe. -/
theorem lockSafe (hs : LockHeld s) : s.LockSafe := by
  refine ⟨fun ⟨hwaits, hcode⟩ ↦ ?_, fun hunfinished ↦ ?_⟩
  · refine hs.interrupted ?_ hcode
    rw [hwaits]
    exact HandlerPc.noConfusion
  · by_cases hidle : s.handler = .idle
    · have hcode := hunfinished.resolve_right (not_not.mpr hidle)
      exact .inl ⟨hidle, hs.isSome_codeStep hidle hcode⟩
    · exact .inr (hs.isSome_handlerStep hidle)

end LockHeld

/-! ### Runs -/

/-- With either call, the runs that are safe are those in which no expiry meets code between a lock
and an unlock. -/
theorem always_lockSafe_iff_meets (variant : SpinLock) (processes : List Process)
    (timerStart : Bool) (events : List CpuEvent) :
    Always (next variant) LockSafe (start processes timerStart) events ↔
      Meets (next variant) ExpiresOutside (start processes timerStart) events := by
  refine always_iff_meets LockHeld (fun _ hs ↦ hs.lockSafe)
    (fun _ _ _ hs hnext houtside ↦ hs.next houtside hnext) ?_ (.start processes timerStart) events
  rintro s event later hs hnext hinside ⟨hwaits, -⟩
  cases event with
  | expire =>
    obtain ⟨-, rfl⟩ := Option.ite_none_right_eq_some.mp hnext |>.imp id Option.some.inj
    have hholds : s.code.holds = true := Bool.eq_true_of_not_eq_false hinside
    exact hwaits ⟨rfl, hs.code.mpr hholds⟩
  | _ => exact hinside trivial

/-- With `spin_lock_bh` every run would be safe. -/
theorem always_lockSafe_spinLockBh (processes : List Process) (timerStart : Bool)
    (events : List CpuEvent) :
    Always (next .spinLockBh) LockSafe (start processes timerStart) events := by
  rw [always_lockSafe_iff_meets]
  have hs := LockHeld.start processes timerStart
  generalize start processes timerStart = s at hs
  induction events generalizing s with
  | nil => trivial
  | cons event rest ih =>
    intro later hnext
    have houtside := hs.expiresOutside_spinLockBh hnext
    exact ⟨houtside, ih later (hs.next houtside hnext)⟩

end Cpu

/-- For every list and every run of `mp1_read`, `mp1_write` and the handler, the handler never waits
for the code that it interrupted and no state is stuck, if and only if the handler never starts
between a lock and an unlock of that code. -/
theorem mp1_always_lockSafe_iff (processes : List Process) (timerStart : Bool)
    (events : List CpuEvent) :
    Always (Cpu.next .spinLock) Cpu.LockSafe (Cpu.start processes timerStart) events ↔
      Meets (Cpu.next .spinLock) Cpu.ExpiresOutside (Cpu.start processes timerStart) events :=
  Cpu.always_lockSafe_iff_meets .spinLock processes timerStart events

/-- A pid is registered, and the timer expires while the list is read. -/
theorem mp1_lockSafe_expiry_in_read :
    ¬ ∀ (processes : List Process) (timerStart : Bool) (events : List CpuEvent),
      Always (Cpu.next .spinLock) Cpu.LockSafe (Cpu.start processes timerStart) events := by
  intro hall
  have halways := hall [] false [.write (.echo 5), .step, .step, .step, .step, .step, .step, .step,
    .read, .step, .step, .step, .expire]
  rw [Cpu.always_lockSafe_iff_meets] at halways
  revert halways
  decide +kernel

end KernelModules.ProcessTimes
