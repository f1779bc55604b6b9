import Mathlib.Data.Nat.Notation
import Mathlib.Logic.Function.Basic

/-!
# Process tables

The live processes by their key. A process has an identity that is never used again, while its key
is free for another process once it has exited. The invariant is part of the structure: an identity
belongs to at most one key, and the identities still to come belong to none.

What was remembered of a process goes stale when it exits, and no later process brings it back:
`not_alive_exit` and `not_alive_spawn`.
-/

set_option autoImplicit false
set_option relaxedAutoImplicit false

namespace KernelModules.Foundation

/-- The identity of the live process of each key, and the next identity. -/
structure ProcessTable (κ : Type*) where
  live : κ → Option ℕ
  next : ℕ
  bound : ∀ key process, live key = some process → process < next
  unique : ∀ key other process, live key = some process → live other = some process → key = other

namespace ProcessTable

variable {κ : Type*}

/-- No process is live. -/
def empty : ProcessTable κ where
  live := fun _ ↦ none
  next := 0
  bound := fun _ _ hlive ↦ by cases hlive
  unique := fun _ _ _ hlive ↦ by cases hlive

/-- The process is live, under some key. -/
def Alive (table : ProcessTable κ) (process : ℕ) : Prop := ∃ key, table.live key = some process

section Changes

variable [DecidableEq κ]

/-- A new process starts under a key. -/
def spawn (table : ProcessTable κ) (key : κ) : ProcessTable κ where
  live := Function.update table.live key (some table.next)
  next := table.next + 1
  bound := by
    intro other process hlive
    by_cases hother : other = key
    · rw [hother, Function.update_self] at hlive
      exact Option.some.inj hlive ▸ Nat.lt_succ_self table.next
    · rw [Function.update_of_ne hother] at hlive
      exact Nat.lt_succ_of_lt (table.bound other process hlive)
  unique := by
    have hold : ∀ other, Function.update table.live key (some table.next) other = some table.next →
        other = key := by
      intro other hlive
      by_contra hother
      rw [Function.update_of_ne hother] at hlive
      exact absurd (table.bound other table.next hlive) (Nat.lt_irrefl _)
    intro first second process hfirst hsecond
    by_cases hnew : process = table.next
    · rw [hnew] at hfirst hsecond
      exact (hold first hfirst).trans (hold second hsecond).symm
    · have hne : ∀ other, Function.update table.live key (some table.next) other = some process →
          other ≠ key := by
        rintro other hlive rfl
        rw [Function.update_self] at hlive
        exact hnew (Option.some.inj hlive).symm
      rw [Function.update_of_ne (hne first hfirst)] at hfirst
      rw [Function.update_of_ne (hne second hsecond)] at hsecond
      exact table.unique first second process hfirst hsecond

/-- The process of a key exits. -/
def exit (table : ProcessTable κ) (key : κ) : ProcessTable κ where
  live := Function.update table.live key none
  next := table.next
  bound := by
    intro other process hlive
    by_cases hother : other = key
    · rw [hother, Function.update_self] at hlive
      cases hlive
    · rw [Function.update_of_ne hother] at hlive
      exact table.bound other process hlive
  unique := by
    intro first second process hfirst hsecond
    have hne : ∀ other, Function.update table.live key none other = some process → other ≠ key := by
      rintro other hlive rfl
      rw [Function.update_self] at hlive
      cases hlive
    rw [Function.update_of_ne (hne first hfirst)] at hfirst
    rw [Function.update_of_ne (hne second hsecond)] at hsecond
    exact table.unique first second process hfirst hsecond

/-- The key of a new process has it. -/
theorem live_spawn_self (table : ProcessTable κ) (key : κ) :
    (table.spawn key).live key = some table.next := Function.update_self _ _ _

/-- The key of a process that has exited has none. -/
theorem live_exit_self (table : ProcessTable κ) (key : κ) : (table.exit key).live key = none :=
  Function.update_self _ _ _

/-- The other keys keep their processes when a process starts. -/
theorem live_spawn_of_ne (table : ProcessTable κ) {key other : κ} (hne : other ≠ key) :
    (table.spawn key).live other = table.live other := Function.update_of_ne hne _ _

/-- The other keys keep their processes when a process exits. -/
theorem live_exit_of_ne (table : ProcessTable κ) {key other : κ} (hne : other ≠ key) :
    (table.exit key).live other = table.live other := Function.update_of_ne hne _ _

/-- A process that has exited stays so when another starts. -/
theorem not_alive_spawn {table : ProcessTable κ} {process : ℕ} (hold : process < table.next)
    (hdead : ¬ table.Alive process) (key : κ) : ¬ (table.spawn key).Alive process := by
  rintro ⟨other, hlive⟩
  by_cases hother : other = key
  · rw [hother, live_spawn_self] at hlive
    exact Nat.ne_of_lt hold (Option.some.inj hlive).symm
  · exact hdead ⟨other, (table.live_spawn_of_ne hother).symm.trans hlive⟩

/-- A process that is alive after an exit was alive before. -/
theorem Alive.of_exit {table : ProcessTable κ} {process : ℕ} {key : κ}
    (halive : (table.exit key).Alive process) : table.Alive process := by
  obtain ⟨other, hlive⟩ := halive
  by_cases hother : other = key
  · rw [hother, live_exit_self] at hlive
    cases hlive
  · exact ⟨other, (table.live_exit_of_ne hother).symm.trans hlive⟩

/-- The process that exits is not alive afterwards. -/
theorem not_alive_exit {table : ProcessTable κ} {process : ℕ} {key : κ}
    (hlive : table.live key = some process) : ¬ (table.exit key).Alive process := by
  rintro ⟨other, hother⟩
  by_cases heq : other = key
  · rw [heq, live_exit_self] at hother
    cases hother
  · rw [table.live_exit_of_ne heq] at hother
    exact heq (table.unique other key process hother hlive)

end Changes

end ProcessTable

end KernelModules.Foundation
