import KernelModules.RateMonotonic.FailedOperations

/-!
# Yields at true times

Runs of whole operations along a clock that never wraps and never goes back. A yield at the true
time `n` reads `jiffies` as the `n` that fits into an `unsigned long` (`Platform.jiffies`).

Beside each record the run keeps notes, which start at the registration and which each yield of the
task writes on (`Notebook`). No operation reads them. `Noted.step` is the rule for what the notes
know about the period and the deadline of a record: a registration and a yield have to keep it, and
no other operation touches either.
-/

set_option autoImplicit false
set_option relaxedAutoImplicit false

namespace KernelModules.RateMonotonic

open Foundation Scheduler

/-! ### What a yield leaves -/

/-- `jiffies` at a true time. -/
def Platform.jiffies (platform : Platform) (time : ℕ) : UInt64 :=
  UInt64.ofNat (time % 2 ^ platform.longBits)

/-- The counter is the true time that fits into an `unsigned long`. -/
theorem Platform.toNat_jiffies {platform : Platform} (hbits : platform.longBits ≤ 64) (time : ℕ) :
    (platform.jiffies time).toNat = time % 2 ^ platform.longBits := by
  have hlt : time % 2 ^ platform.longBits < 2 ^ 64 :=
    (Nat.mod_lt _ (Nat.two_pow_pos _)).trans_le (Nat.pow_le_pow_right (by decide) hbits)
  exact UInt64.toNat_ofNat_of_lt' hlt

/-- The jiffies of the period of a task. -/
def Mp2TaskStruct.periodJiffies (task : Mp2TaskStruct) (platform : Platform) : UInt64 :=
  platform.msecsToJiffies task.period.toUInt32

section Yield

variable {platform : Platform} {pid : UInt32} {now : UInt64} {s : Scheduler} {t : Addr}

/-- What a yield of a listed task can do. -/
theorem taskYeild_of_found (hfound : s.yeildLookup pid = some t) :
    ((s.slab t).missesDdl platform now = true ∧
      taskYeild platform pid now s = ⟨.returned (-1), (s.advanceDdl platform now t).lockTl⟩) ∨
    (s.slab t).missesDdl platform now = false ∧
      (taskYeild platform pid now s = ⟨.faulted .nullTask, (s.putToSleep platform now t).lockTl⟩ ∨
        taskYeild platform pid now s = ⟨.returned 0,
          ((((s.putToSleep platform now t).setCt none).unlockCt).unlockTl).wakeDispaching⟩) := by
  rcases taskYeild_cases platform pid now s with ⟨hnone, -⟩ | ⟨other, hother, hcases⟩
  · rw [hnone] at hfound
    cases hfound
  · rw [hfound, Option.some.injEq] at hother
    subst hother
    rcases hcases with hmissed | ⟨hmade, -, hresult⟩ | ⟨hmade, -, hresult⟩
    · exact .inl hmissed
    · exact .inr ⟨hmade, .inl hresult⟩
    · exact .inr ⟨hmade, .inr hresult⟩

/-- A yield of a listed task is rejected exactly when the deadline is missed. -/
theorem taskYeild_rejected_iff (hfound : s.yeildLookup pid = some t) :
    (taskYeild platform pid now s).outcome = .returned (-1) ↔
      (s.slab t).missesDdl platform now = true := by
  rcases taskYeild_of_found hfound with ⟨hmissed, hresult⟩ | ⟨hmade, hresult | hresult⟩
  · rw [hresult, hmissed]
    exact iff_of_true rfl rfl
  · rw [hresult, hmade]
    simp
  · rw [hresult, hmade]
    simp

/-- The deadline of the task after the writes of a yield. -/
theorem nextDdl_putToSleep_self (s : Scheduler) (platform : Platform) (now : UInt64) (t : Addr) :
    ((s.putToSleep platform now t).slab t).nextDdl = (s.slab t).nextDeadline platform now := by
  unfold putToSleep setState modTimer advanceDdl
  rw [slab_modify_self, slab_modify_self, slab_modify_self]

/-- The timer of the task after the writes of a yield. -/
theorem expires_putToSleep_self (s : Scheduler) (platform : Platform) (now : UInt64) (t : Addr) :
    ((s.putToSleep platform now t).slab t).timer.expires =
      some (platform.ulong ((s.slab t).nextDeadline platform now)) := by
  unfold putToSleep setState modTimer advanceDdl
  rw [slab_modify_self, slab_modify_self, slab_modify_self]

/-- A yield of a listed task sets its deadline, whether the yield is rejected or not. -/
theorem nextDdl_taskYeild_self (hfound : s.yeildLookup pid = some t) :
    ((taskYeild platform pid now s).state.slab t).nextDdl =
      (s.slab t).nextDeadline platform now := by
  rcases taskYeild_of_found hfound with ⟨-, hresult⟩ | ⟨-, hresult | hresult⟩
  · rw [hresult, lockTl_slab, advanceDdl, slab_modify_self]
  · rw [hresult, lockTl_slab, nextDdl_putToSleep_self]
  · rw [hresult]
    exact nextDdl_putToSleep_self s platform now t

/-- A yield that is not rejected arms the timer for the deadline it sets. -/
theorem expires_taskYeild_self (hfound : s.yeildLookup pid = some t)
    (haccepted : (taskYeild platform pid now s).outcome ≠ .returned (-1)) :
    ((taskYeild platform pid now s).state.slab t).timer.expires =
      some (platform.ulong ((s.slab t).nextDeadline platform now)) := by
  rcases taskYeild_of_found hfound with ⟨-, hresult⟩ | ⟨-, hresult | hresult⟩
  · rw [hresult] at haccepted
    exact absurd rfl haccepted
  · rw [hresult, lockTl_slab, expires_putToSleep_self]
  · rw [hresult]
    exact expires_putToSleep_self s platform now t

/-- A yield writes to no record but that of the task. -/
theorem slab_taskYeild_of_ne {a : Addr} (hother : s.yeildLookup pid ≠ some a) :
    (taskYeild platform pid now s).state.slab a = s.slab a := by
  rcases taskYeild_cases platform pid now s with ⟨-, hresult⟩ | ⟨t, hfound, hcases⟩
  · rw [hresult, unlockTl_slab]
  · have hne : a ≠ t := fun heq ↦ hother (heq ▸ hfound)
    rcases hcases with ⟨-, hresult⟩ | ⟨-, -, hresult⟩ | ⟨-, -, hresult⟩
    · rw [hresult, lockTl_slab, advanceDdl, slab_modify_of_ne s hne]
    · rw [hresult, lockTl_slab, slab_putToSleep_of_ne s platform now hne]
    · rw [hresult]
      exact slab_putToSleep_of_ne s platform now hne

end Yield

/-! ### What the other operations leave -/

/-- The period and the deadline of a task. -/
def Mp2TaskStruct.ddl (task : Mp2TaskStruct) : UInt64 × UInt64 := (task.period, task.nextDdl)

/-- A removal touches no deadline. -/
theorem ddl_taskDeregister (pid : UInt32) (s : Scheduler) (a : Addr) :
    ((taskDeregister pid s).state.slab a).ddl = (s.slab a).ddl := by
  rcases taskDeregister_cases pid s with ⟨-, hresult⟩ | ⟨t, -, ⟨-, hresult⟩ | ⟨-, hresult⟩⟩
  · rw [hresult, unlockTl_slab]
  · rw [hresult, releaseCt_slab, lockTl_slab]
  · rw [hresult, unlockTl_slab, slab_removeTask_of_keep Mp2TaskStruct.ddl (fun _ _ ↦ rfl),
      releaseCt_slab, lockTl_slab]

/-- The section under `ct_lock` touches no deadline. -/
theorem ddl_ctSection (highest : Option Addr) (s : Scheduler) (a : Addr) :
    ((ctSection highest s).state.slab a).ddl = (s.slab a).ddl := by
  have hset : ∀ (s : Scheduler) (b : Addr) (state : TaskState),
      ((s.setState b state).slab a).ddl = (s.slab a).ddl := fun s b state ↦
    slab_setState_of_keep Mp2TaskStruct.ddl (fun _ _ ↦ rfl) s b state a
  have hstep := ctSection_step s highest
  generalize ctSection highest s = result at hstep
  cases hstep with
  | idle => rfl
  | demoteFault => exact hset s _ .ready
  | demote => exact hset s _ .ready
  | keep => rfl
  | startFault => rfl
  | preemptFault => exact hset s _ .ready
  | start => exact hset s _ .running
  | preempt => exact (hset _ _ .running).trans (hset s _ .ready)

/-- The dispatching thread touches no deadline. -/
theorem ddl_dispachingIteration (s : Scheduler) (a : Addr) :
    ((dispachingIteration s).state.slab a).ddl = (s.slab a).ddl := by
  have hsection := ddl_ctSection s.highestReady s.unlockTl a
  rw [dispachingIteration_eq]
  unfold Result.andThen
  split
  · exact hsection
  · exact hsection

/-! ### Runs with a clock -/

/-- The task whose yield an operation is. -/
def yieldedBy (s : Scheduler) : Op → Option Addr
  | .yeild pid _ => s.yeildLookup pid
  | _ => none

/-- An operation at a true time reads the counter at that time. -/
def ReadsAt (platform : Platform) (time : ℕ) : Op → Prop
  | .yeild _ now => now = platform.jiffies time
  | _ => True

instance (platform : Platform) (time : ℕ) (op : Op) : Decidable (ReadsAt platform time op) :=
  match op with
  | .yeild _ now => inferInstanceAs (Decidable (now = platform.jiffies time))
  | .register .. => isTrue trivial
  | .deregister _ => isTrue trivial
  | .timer _ => isTrue trivial
  | .dispatch => isTrue trivial

/-- How notes beside a record are kept: the notes of a new record, and those after a yield of the
task at a true time. -/
structure Notebook (γ : Type*) where
  blank : γ
  write : Mp2TaskStruct → ℕ → γ → γ

/-- A run up to a true time: what the last operation ended with, the task it was the yield of, and
the notes beside the records. -/
structure Timed (γ : Type*) where
  result : Result
  time : ℕ
  yielded : Option Addr
  notes : Addr → γ

variable {γ : Type*}

/-- The notes after an operation. -/
def Notebook.after (book : Notebook γ) (m : Timed γ) (op : Op) (time : ℕ) : Addr → γ :=
  match op with
  | .register pid period procTime found =>
    if (taskRegister pid period procTime found m.result.state).outcome = .returned 0 then
      Function.update m.notes m.result.state.fresh book.blank
    else m.notes
  | .yeild pid _ =>
    match m.result.state.yeildLookup pid with
    | some t => Function.update m.notes t (book.write (m.result.state.slab t) time (m.notes t))
    | none => m.notes
  | _ => m.notes

/-- A yield writes on the notes of the task. -/
theorem Notebook.after_yeild_self {m : Timed γ} {pid : UInt32} {t : Addr}
    (hfound : m.result.state.yeildLookup pid = some t) (book : Notebook γ) (now : UInt64)
    (time : ℕ) :
    book.after m (.yeild pid now) time t =
      book.write (m.result.state.slab t) time (m.notes t) := by
  simp only [Notebook.after, hfound, Function.update_self]

/-- A yield writes on no other notes. -/
theorem Notebook.after_yeild_of_ne {m : Timed γ} {pid : UInt32} {a : Addr}
    (hother : m.result.state.yeildLookup pid ≠ some a) (book : Notebook γ) (now : UInt64)
    (time : ℕ) : book.after m (.yeild pid now) time a = m.notes a := by
  cases hfound : m.result.state.yeildLookup pid with
  | none => simp only [Notebook.after, hfound]
  | some t =>
    have hne : a ≠ t := fun heq ↦ hother (heq ▸ hfound)
    simp only [Notebook.after, hfound, Function.update_of_ne hne]

/-- The step of a run: an operation at a time that is not before the last. -/
def nextTimed (book : Notebook γ) (platform : Platform) (m : Timed γ) (label : Op × ℕ) :
    Option (Timed γ) :=
  if m.time ≤ label.2 ∧ ReadsAt platform label.2 label.1 then
    some
      { result := exec platform label.1 m.result.state
        time := label.2
        yielded := yieldedBy m.result.state label.1
        notes := book.after m label.1 label.2 }
  else none

/-- The start of a run, at any time. -/
def startTimed (book : Notebook γ) (slab : Addr → Mp2TaskStruct) (time : ℕ) : Timed γ where
  result := startOp slab
  time := time
  yielded := none
  notes := fun _ ↦ book.blank

/-- What a step leaves. -/
theorem nextTimed_eq_some {book : Notebook γ} {platform : Platform} {m later : Timed γ} {op : Op}
    {time : ℕ} (hstep : nextTimed book platform m (op, time) = some later) :
    ReadsAt platform time op ∧ later.result = exec platform op m.result.state ∧
      later.time = time ∧ later.yielded = yieldedBy m.result.state op ∧
        later.notes = book.after m op time := by
  unfold nextTimed at hstep
  split_ifs at hstep with henabled
  rw [← Option.some.inj hstep]
  exact ⟨henabled.2, rfl, rfl, rfl, rfl⟩

/-- The operation of a task that yields is a yield of its pid. -/
theorem yieldedBy_eq_some {s : Scheduler} {op : Op} {t : Addr} (hyield : yieldedBy s op = some t) :
    ∃ pid now, op = .yeild pid now ∧ s.yeildLookup pid = some t := by
  cases op with
  | yeild pid now => exact ⟨pid, now, rfl, hyield⟩
  | register pid period procTime found => cases hyield
  | deregister pid => cases hyield
  | timer data => cases hyield
  | dispatch => cases hyield

/-! ### What the notes know -/

/-- The notes beside every listed record are in the relation with its period and deadline. -/
def Noted (known : UInt64 → UInt64 → γ → Prop) (m : Timed γ) : Prop :=
  ∀ a ∈ m.result.state.tl,
    known (m.result.state.slab a).period (m.result.state.slab a).nextDdl (m.notes a)

/-- The rule for notes. Assumes: the relation holds of a new record with blank notes, and a yield
keeps it for the task that yields. Then every step keeps it. -/
theorem Noted.step {book : Notebook γ} {platform : Platform} {known : UInt64 → UInt64 → γ → Prop}
    (hblank : ∀ period, known period 0 book.blank) {m later : Timed γ} {op : Op} {time : ℕ}
    (hm : Noted known m) (hstep : nextTimed book platform m (op, time) = some later)
    (hyield : ∀ t, yieldedBy m.result.state op = some t → t ∈ m.result.state.tl →
      known (m.result.state.slab t).period
        ((m.result.state.slab t).nextDeadline platform (platform.jiffies time))
        (book.write (m.result.state.slab t) time (m.notes t))) :
    Noted known later := by
  obtain ⟨hreads, hresult, -, -, hnotes⟩ := nextTimed_eq_some hstep
  have hkeep : ∀ s' : Scheduler, s'.tl ⊆ m.result.state.tl →
      (∀ a, (s'.slab a).ddl = (m.result.state.slab a).ddl) → ∀ a ∈ s'.tl,
        known (s'.slab a).period (s'.slab a).nextDdl (m.notes a) := by
    intro s' htl hddl a ha
    obtain ⟨hperiod, hnext⟩ := Prod.mk.inj (hddl a)
    rw [hperiod, hnext]
    exact hm a (htl ha)
  unfold Noted
  rw [hresult, hnotes]
  cases op with
  | register pid period procTime found =>
    simp only [exec, Notebook.after]
    rcases taskRegister_fails_or_registers pid period procTime found m.result.state with
      ⟨hfails, lock, hstate⟩ | hresult
    · rw [hstate, if_neg hfails]
      exact hm
    · rw [hresult]
      simp only [if_true, registered_tl, registered_slab, List.mem_append, List.mem_singleton]
      intro a ha
      by_cases hnew : a = m.result.state.fresh
      · rw [hnew, Function.update_self, Function.update_self]
        exact hblank period
      · rw [Function.update_of_ne hnew, Function.update_of_ne hnew]
        exact hm a (ha.resolve_right hnew)
  | yeild pid now =>
    have hnow : now = platform.jiffies time := hreads
    have hsame := sameTasks_taskYeild platform pid now m.result.state
    intro a ha
    simp only [exec] at ha ⊢
    rw [hsame.tl] at ha
    by_cases hfound : m.result.state.yeildLookup pid = some a
    · rw [Notebook.after_yeild_self hfound, hsame.period, nextDdl_taskYeild_self hfound, hnow]
      exact hyield a hfound ha
    · rw [Notebook.after_yeild_of_ne hfound, slab_taskYeild_of_ne hfound]
      exact hm a ha
  | deregister pid =>
    exact hkeep _ (tl_taskDeregister_subset pid _) (ddl_taskDeregister pid _)
  | timer data =>
    refine hkeep _ ?_ fun a ↦ ?_
    · rw [exec, (sameTasks_mp2TimerCallback data _).tl]
      exact List.Subset.refl _
    · exact slab_markReady_of_keep Mp2TaskStruct.ddl (fun _ _ ↦ rfl) _ data a
  | dispatch =>
    refine hkeep _ ?_ (ddl_dispachingIteration _)
    rw [exec, (sameTasks_dispachingIteration _).tl]
    exact List.Subset.refl _

/-- At the start nothing is listed. -/
theorem noted_startTimed (known : UInt64 → UInt64 → γ → Prop) (book : Notebook γ)
    (slab : Addr → Mp2TaskStruct) (time : ℕ) : Noted known (startTimed book slab time) :=
  fun _ ha ↦ absurd ha List.not_mem_nil

end KernelModules.RateMonotonic
