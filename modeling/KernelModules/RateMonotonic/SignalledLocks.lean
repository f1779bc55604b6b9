import KernelModules.Foundation.LockDiscipline

/-!
# The locks of the scheduler under signals

Every lock call of `scheduler.c` and `mp2_main.c` is `mutex_lock_interruptible`, and every caller
ignores its result: a process that is signalled while it waits for `tl_lock` goes on into the
section without the lock. Here are the functions with a lock call, as far as they concern the two
mutexes, with any number of callers in any order.

`exclusive_of_unsignalled` says that the sections exclude each other, and that a lock is released by
its holder, in every run in which no lock call is interrupted. A registration, a yield and one
signal are enough for two callers in a section (`exclusive_signalled`).
-/

set_option autoImplicit false
set_option relaxedAutoImplicit false

namespace KernelModules.RateMonotonic

open Foundation

/-! ### The functions -/

/-- `tl_lock` and `ct_lock`. -/
inductive Mutex
  | tlLock
  | ctLock
  deriving DecidableEq

/-- The functions with a lock call. -/
inductive Routine
  | taskRegister
  | taskYeild
  | taskDeregister
  | taskGetHighest
  | taskDestroy
  | mp2Read
  | ctSection
  deriving DecidableEq

/-- The statements of the functions. -/
def program : Routine → List (Stmt Mutex)
  -- the first test returns on a pid that is listed, the second without room
  | .taskRegister => [.lock .tlLock, .returnIf, .unlock .tlLock, .returnIf, .work,
      .lock .tlLock, .work, .unlock .tlLock]
  -- the first test returns on a pid that is not listed, the second on a missed deadline
  | .taskYeild => [.lock .tlLock, .work, .unlock .tlLock, .returnIf, .lock .tlLock, .returnIf,
      .work, .lock .ctLock, .work, .unlock .ctLock, .unlock .tlLock, .work]
  -- the last test skips the section under `ct_lock` for a task that is not current
  | .taskDeregister => [.lock .tlLock, .work, .unlock .tlLock, .returnIf, .lock .tlLock,
      .skipIf 4, .lock .ctLock, .work, .unlock .ctLock, .work, .work, .unlock .tlLock]
  | .taskGetHighest => [.lock .tlLock, .work, .unlock .tlLock]
  | .taskDestroy => [.lock .tlLock, .work, .unlock .tlLock, .work]
  -- the test returns 0 when a listing has just been read
  | .mp2Read => [.returnIf, .work, .lock .tlLock, .work, .unlock .tlLock, .work]
  -- of `dispaching_thread_function`
  | .ctSection => [.lock .ctLock, .work, .unlock .ctLock]

/-- In every function lock calls and releases alternate. -/
theorem regular_program (f : Routine) : Regular (program f) := by
  have hafter : Regular [Stmt.work, .unlock Mutex.tlLock] := .work (.unlock .nil rfl)
  cases f with
  | taskRegister =>
    exact .lock (.returnIf (.unlock (.returnIf (.work (.lock hafter rfl))) rfl)) rfl
  | taskYeild =>
    refine .lock (.work (.unlock (.returnIf (.lock (.returnIf (.work (.lock (.work (.unlock
      (.unlock (.work .nil) rfl) rfl)) rfl))) rfl)) rfl)) rfl
  | taskDeregister =>
    refine .lock (.work (.unlock (.returnIf (.lock (.skipIf (.lock (.work (.unlock (.work hafter)
      rfl)) rfl) hafter ?_) rfl)) rfl)) rfl
    rintro (_ | _) <;> rfl
  | taskGetHighest => exact .lock hafter rfl
  | taskDestroy => exact .lock (.work (.unlock (.work .nil) rfl)) rfl
  | mp2Read => exact .returnIf (.work (.lock (.work (.unlock (.work .nil) rfl)) rfl))
  | ctSection => exact .lock (.work (.unlock .nil rfl)) rfl

/-- Every function begins outside of every section. -/
theorem inside_program (f : Routine) (m : Mutex) : inside m (program f) = false := by
  cases f <;> cases m <;> rfl

/-! ### Exclusion -/

/-- The callers and the locks. -/
abbrev Callers (ι : Type*) := LockMachine ι Mutex

/-- No lock call returns without the lock because of a signal. -/
def Unsignalled {ι : Type*} (_ : Callers ι) (label : ι × Move Routine) : Prop :=
  label.2 ≠ .signal

instance {ι : Type*} (s : Callers ι) (label : ι × Move Routine) :
    Decidable (Unsignalled s label) :=
  inferInstanceAs (Decidable (label.2 ≠ .signal))

/-- At most one caller is inside a section of `tl_lock`, and every release so far was made by the
caller that had acquired the lock. -/
def SectionsExclude {ι : Type*} (s : Callers ι) : Prop :=
  Exclusive .tlLock s ∧ s.foreignUnlock = false

/-- In every run in which no lock call is interrupted by a signal, the sections of `tl_lock` exclude
each other and every release is made by the holder. -/
theorem exclusive_of_unsignalled {ι : Type*} [DecidableEq ι] {s : Callers ι}
    (hreach : ReachableUnder (LockMachine.next program) Unsignalled LockMachine.start s) :
    SectionsExclude s := by
  obtain ⟨hexclusive, hreleased⟩ := exclusive_of_uninterrupted regular_program inside_program hreach
  exact ⟨hexclusive .tlLock, hreleased⟩

/-- A registration is inside its first section, and a yield waits for the lock. -/
theorem exclusive_of_unsignalled_waiting : ∃ s : Callers ℕ, inside .tlLock (s.rest 0) = true ∧
    s.rest 1 = program .taskYeild ∧ SectionsExclude s := by
  obtain ⟨s, hreach, hinside, hwaiting⟩ : ∃ s : Callers ℕ,
      ReachableUnder (LockMachine.next program) Unsignalled LockMachine.start s ∧
        inside .tlLock (s.rest 0) = true ∧ s.rest 1 = program .taskYeild :=
    exists_reachableUnder_of_run
      [(0, .call .taskRegister), (0, .step false), (1, .call .taskYeild)] (by decide) (by decide)
  exact ⟨s, hinside, hwaiting, exclusive_of_unsignalled hreach⟩

/-- A registration is inside its first section when a yield that waits for the lock is signalled:
both are inside. -/
theorem exclusive_signalled :
    ¬ ∀ s : Callers ℕ, Reachable (LockMachine.next program) LockMachine.start s →
      SectionsExclude s := by
  intro hall
  obtain ⟨s, hreach, hregister, hyeild⟩ : ∃ s : Callers ℕ,
      Reachable (LockMachine.next program) LockMachine.start s ∧
        inside .tlLock (s.rest 0) = true ∧ inside .tlLock (s.rest 1) = true :=
    exists_reachableUnder_of_run
      [(0, .call .taskRegister), (0, .step false), (1, .call .taskYeild), (1, .signal)]
      (by decide) (by decide)
  exact absurd ((hall s hreach).1 0 1 hregister hyeild) (by decide)

end KernelModules.RateMonotonic
