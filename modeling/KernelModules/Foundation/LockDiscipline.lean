import KernelModules.Foundation.TransitionSystem
import Mathlib

/-!
# Lock discipline under signals

Callers run functions that take and release mutexes with `mutex_lock_interruptible` and
`mutex_unlock`. A function is the list of its statements as far as they concern mutexes; what its
tests decide is left open. A caller that waits for a mutex may be signalled, and its lock call then
returns without the mutex; a function that ignores the result goes on into the section.

In a regular function every lock call is followed by the release of its mutex before the next call
for it (`Regular`). If no lock call is interrupted, at most one caller is inside the sections of a
mutex, and a mutex is released by the caller that holds it (`exclusive_of_uninterrupted`).
-/

set_option autoImplicit false
set_option relaxedAutoImplicit false

namespace KernelModules.Foundation

/-! ### Functions and callers -/

/-- A statement as far as it concerns mutexes: a lock call, a release, statements without either, a
test that may return, and a test that may skip some of the statements behind it. -/
inductive Stmt (μ : Type*)
  | lock (m : μ)
  | unlock (m : μ)
  | work
  | returnIf
  | skipIf (count : ℕ)
  deriving DecidableEq

/-- Who holds the mutexes, what every caller still has to do, and whether a caller has released a
mutex that it did not hold. -/
structure LockMachine (ι μ : Type*) where
  owner : μ → Option ι
  rest : ι → List (Stmt μ)
  foreignUnlock : Bool

/-- What a caller does next: it calls a function, takes its next statement with the outcome of the
test if it is one, or is signalled while it waits. -/
inductive Move (φ : Type*)
  | call (function : φ)
  | step (taken : Bool)
  | signal
  deriving DecidableEq

variable {ι μ φ : Type*} [DecidableEq ι] [DecidableEq μ]

namespace LockMachine

/-- The caller goes on with other statements. -/
@[simps] def goOn (s : LockMachine ι μ) (i : ι) (rest : List (Stmt μ)) : LockMachine ι μ :=
  { s with rest := Function.update s.rest i rest }

/-- The caller takes the mutex. -/
@[simps] def acquire (s : LockMachine ι μ) (i : ι) (m : μ) : LockMachine ι μ :=
  { s with owner := Function.update s.owner m (some i) }

/-- The caller releases the mutex, which is then free, whoever held it. -/
@[simps] def release (s : LockMachine ι μ) (i : ι) (m : μ) : LockMachine ι μ :=
  { s with
    owner := Function.update s.owner m none
    foreignUnlock := s.foreignUnlock || decide (s.owner m ≠ some i) }

/-- All mutexes are free and no caller is in a function. -/
def start : LockMachine ι μ := ⟨fun _ ↦ none, fun _ ↦ [], false⟩

/-- The step of a caller. A lock call waits until the mutex is free, and returns without it when the
caller is signalled while it waits. -/
def next (program : φ → List (Stmt μ)) (s : LockMachine ι μ) :
    ι × Move φ → Option (LockMachine ι μ)
  | (i, .call function) => if s.rest i = [] then some (s.goOn i (program function)) else none
  | (i, .step taken) =>
    match s.rest i with
    | [] => none
    | .lock m :: rest => if s.owner m = none then some ((s.acquire i m).goOn i rest) else none
    | .unlock m :: rest => some ((s.release i m).goOn i rest)
    | .work :: rest => some (s.goOn i rest)
    | .returnIf :: rest => some (s.goOn i (if taken then [] else rest))
    | .skipIf count :: rest => some (s.goOn i (if taken then rest.drop count else rest))
  | (i, .signal) =>
    match s.rest i with
    | .lock m :: rest => if s.owner m = none then none else some (s.goOn i rest)
    | _ => none

end LockMachine

/-! ### Sections -/

/-- The caller is inside a section of the mutex: of the statements it still has to do that concern
the mutex, the first one is its release. -/
def inside (m : μ) : List (Stmt μ) → Bool
  | [] => false
  | .lock other :: rest => if other = m then false else inside m rest
  | .unlock other :: rest => if other = m then true else inside m rest
  | .work :: rest | .returnIf :: rest | .skipIf _ :: rest => inside m rest

/-- Lock calls and releases of every mutex alternate, whatever the tests decide. -/
inductive Regular : List (Stmt μ) → Prop
  | nil : Regular []
  | lock {m : μ} {rest : List (Stmt μ)} (hrest : Regular rest) (hinside : inside m rest = true) :
    Regular (.lock m :: rest)
  | unlock {m : μ} {rest : List (Stmt μ)} (hrest : Regular rest) (hinside : inside m rest = false) :
    Regular (.unlock m :: rest)
  | work {rest : List (Stmt μ)} (hrest : Regular rest) : Regular (.work :: rest)
  | returnIf {rest : List (Stmt μ)} (hrest : Regular rest) : Regular (.returnIf :: rest)
  | skipIf {count : ℕ} {rest : List (Stmt μ)} (hrest : Regular rest)
    (hskip : Regular (rest.drop count))
    (hinside : ∀ m, inside m (rest.drop count) = inside m rest) :
    Regular (.skipIf count :: rest)

/-! ### The discipline -/

/-- What the callers still have to do is regular, a caller inside a section holds its mutex, and no
mutex has been released by a caller that did not hold it. -/
structure Disciplined (s : LockMachine ι μ) : Prop where
  regular : ∀ i, Regular (s.rest i)
  owned : ∀ i m, inside m (s.rest i) = true → s.owner m = some i
  released : s.foreignUnlock = false

namespace Disciplined

variable {s : LockMachine ι μ} {i : ι}

/-- A caller goes on with regular statements after a change of the owners. Assumes: it holds the
mutexes whose sections it is then inside, and the others keep theirs. -/
theorem goOn_of_owner (hs : Disciplined s) {changed : LockMachine ι μ}
    (hsame : changed.rest = s.rest) (hreleased : changed.foreignUnlock = false)
    {rest : List (Stmt μ)} (hrest : Regular rest)
    (hown : ∀ m, inside m rest = true → changed.owner m = some i)
    (hothers : ∀ j ≠ i, ∀ m, inside m (s.rest j) = true → changed.owner m = some j) :
    Disciplined (changed.goOn i rest) where
  regular := by
    intro j
    rw [LockMachine.goOn_rest, hsame]
    by_cases hij : j = i
    · rw [hij, Function.update_self]
      exact hrest
    · rw [Function.update_of_ne hij]
      exact hs.regular j
  owned := by
    intro j m hj
    rw [LockMachine.goOn_rest, hsame] at hj
    by_cases hij : j = i
    · rw [hij, Function.update_self] at hj
      rw [hij]
      exact hown m hj
    · rw [Function.update_of_ne hij] at hj
      exact hothers j hij m hj
  released := hreleased

/-- A caller may go on with regular statements that are inside the same sections, or fewer. -/
theorem goOn (hs : Disciplined s) {rest : List (Stmt μ)} (hrest : Regular rest)
    (hinside : ∀ m, inside m rest = true → inside m (s.rest i) = true) :
    Disciplined (s.goOn i rest) :=
  hs.goOn_of_owner rfl hs.released hrest (fun m hm ↦ hs.owned i m (hinside m hm))
    fun j _ m hm ↦ hs.owned j m hm

/-- A lock call that takes a free mutex keeps the discipline. -/
theorem lock (hs : Disciplined s) {m : μ} {rest : List (Stmt μ)}
    (hat : s.rest i = .lock m :: rest) (hfree : s.owner m = none) :
    Disciplined ((s.acquire i m).goOn i rest) := by
  have hregular : Regular rest := by
    have hall := hs.regular i
    rw [hat] at hall
    cases hall with
    | lock hrest _ => exact hrest
  have hsame : (s.acquire i m).rest = s.rest := rfl
  refine hs.goOn_of_owner hsame hs.released hregular (fun other hinside ↦ ?_)
    fun j _ other hinside ↦ ?_
  · rw [LockMachine.acquire_owner]
    by_cases hother : other = m
    · rw [hother, Function.update_self]
    · rw [Function.update_of_ne hother]
      refine hs.owned i other ?_
      rw [hat, inside, if_neg (Ne.symm hother)]
      exact hinside
  · have howned := hs.owned j other hinside
    have hother : other ≠ m := by
      -- nobody was inside a section of a free mutex
      rintro rfl
      cases hfree.symm.trans howned
    rw [LockMachine.acquire_owner, Function.update_of_ne hother]
    exact howned

/-- A release keeps the discipline. -/
theorem unlock (hs : Disciplined s) {m : μ} {rest : List (Stmt μ)}
    (hat : s.rest i = .unlock m :: rest) : Disciplined ((s.release i m).goOn i rest) := by
  have howner : s.owner m = some i := by
    refine hs.owned i m ?_
    rw [hat, inside, if_pos rfl]
  obtain ⟨hregular, houtside⟩ : Regular rest ∧ inside m rest = false := by
    have hall := hs.regular i
    rw [hat] at hall
    cases hall with
    | unlock hrest hinside => exact ⟨hrest, hinside⟩
  have hreleased : (s.release i m).foreignUnlock = false := by
    rw [LockMachine.release_foreignUnlock, hs.released, howner]
    simp
  have hsame : (s.release i m).rest = s.rest := rfl
  refine hs.goOn_of_owner hsame hreleased hregular (fun other hinside ↦ ?_)
    fun j hij other hinside ↦ ?_
  · have hother : other ≠ m := by
      rintro rfl
      cases houtside.symm.trans hinside
    rw [LockMachine.release_owner, Function.update_of_ne hother]
    refine hs.owned i other ?_
    rw [hat, inside, if_neg (Ne.symm hother)]
    exact hinside
  · have howned := hs.owned j other hinside
    have hother : other ≠ m := by
      -- the holder of the mutex was the only caller inside a section of it
      rintro rfl
      exact hij (Option.some.inj (howned.symm.trans howner))
    rw [LockMachine.release_owner, Function.update_of_ne hother]
    exact howned

/-- Every step without a signal keeps the discipline. Assumes: regular functions. -/
theorem next {program : φ → List (Stmt μ)} (hprogram : ∀ f, Regular (program f))
    (houtside : ∀ f m, inside m (program f) = false) (hs : Disciplined s) {move : Move φ}
    (hmove : move ≠ .signal) {later : LockMachine ι μ}
    (hnext : LockMachine.next program s (i, move) = some later) : Disciplined later := by
  have hregular := hs.regular i
  cases move with
  | signal => exact absurd rfl hmove
  | call f =>
    simp only [LockMachine.next, Option.ite_none_right_eq_some, Option.some.injEq] at hnext
    obtain ⟨-, rfl⟩ := hnext
    refine hs.goOn (hprogram f) fun m hm ↦ ?_
    rw [houtside f m] at hm
    cases hm
  | step taken =>
    simp only [LockMachine.next] at hnext
    rcases hat : s.rest i with _ | ⟨stmt, rest⟩
    · rw [hat] at hnext
      cases hnext
    · rw [hat] at hnext hregular
      cases hregular with
      | lock hrest hinside =>
        simp only [Option.ite_none_right_eq_some, Option.some.injEq] at hnext
        obtain ⟨hfree, rfl⟩ := hnext
        exact hs.lock hat hfree
      | unlock hrest hinside =>
        cases hnext
        exact hs.unlock hat
      | work hrest =>
        cases hnext
        exact hs.goOn hrest fun m hm ↦ by rw [hat]; exact hm
      | returnIf hrest =>
        cases hnext
        cases taken with
        | true => exact hs.goOn .nil fun m hm ↦ by cases hm
        | false => exact hs.goOn hrest fun m hm ↦ by rw [hat]; exact hm
      | skipIf hrest hskip hinside =>
        cases hnext
        cases taken with
        | true => exact hs.goOn hskip fun m hm ↦ by rw [hat, inside, ← hinside m]; exact hm
        | false => exact hs.goOn hrest fun m hm ↦ by rw [hat]; exact hm

end Disciplined

/-- At most one caller is inside the sections of the mutex. -/
def Exclusive (m : μ) (s : LockMachine ι μ) : Prop :=
  ∀ i j, inside m (s.rest i) = true → inside m (s.rest j) = true → i = j

/-- Without an interrupted lock call, the sections of a mutex exclude each other and a mutex is
released by its holder. Assumes: regular functions that begin outside of every section. -/
theorem exclusive_of_uninterrupted {program : φ → List (Stmt μ)}
    (hprogram : ∀ f, Regular (program f)) (houtside : ∀ f m, inside m (program f) = false)
    {s : LockMachine ι μ}
    (hreach : ReachableUnder (LockMachine.next program)
      (fun _ label ↦ label.2 ≠ Move.signal) LockMachine.start s) :
    (∀ m, Exclusive m s) ∧ s.foreignUnlock = false := by
  have hs : Disciplined s := by
    refine hreach.invariant Disciplined ⟨fun _ ↦ .nil, fun _ _ hinside ↦ ?_, rfl⟩ ?_
    · cases hinside
    · rintro before ⟨i, move⟩ later hbefore hmove hnext
      exact hbefore.next hprogram houtside hmove hnext
  refine ⟨fun m i j hi hj ↦ ?_, hs.released⟩
  exact Option.some.inj ((hs.owned i m hi).symm.trans (hs.owned j m hj))

end KernelModules.Foundation
