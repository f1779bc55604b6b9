import KernelModules.RateMonotonic.TimedYields

/-!
# Deadlines without drift

The deadlines that the first yield and the period of a task promise, as true times (`Promise`). The
law after each yield: the record holds the promised deadline up to the wrap of the counter, the
timer is armed for it, and a later yield is rejected exactly when the promised deadline has passed
(`DriftFree`).

`Task_yeild` compares `next_ddl` and `jiffies` as plain numbers, and takes a deadline of 0 for none.
`always_driftFree_iff` says that a run keeps the law exactly when no later yield is misled by the
turns of the counter (`TurnsFit`) or by a deadline of 0 (`RestartFits`).

What `next_ddl` holds is fixed by the first deadline and the promised one (`storedDdl`), so the
condition can be told from the true times alone (`always_driftFree_iff_timesFit`). On 64 bits the
counter and the deadlines turn together, and nothing goes wrong before the first turn
(`always_driftFree_before_turn`). On 32 bits `next_ddl` goes on where the counter starts again: once
the promised deadline is in a later turn than the first one, late yields are not found
(`always_driftFree_longBits32`).
-/

set_option autoImplicit false
set_option relaxedAutoImplicit false

namespace KernelModules.RateMonotonic

open Foundation Scheduler

/-! ### Promised deadlines -/

/-- What a task is promised by its yields: the deadline that the first one set, the one that the
last one set, and whether the last was the first. -/
structure Promise where
  origin : ℕ
  deadline : ℕ
  first : Bool
  origin_le : origin ≤ deadline
  deriving DecidableEq

/-- The promise of a first yield. -/
@[simps] def Promise.begin (deadline : ℕ) : Promise where
  origin := deadline
  deadline := deadline
  first := true
  origin_le := le_rfl

/-- The promise of a later yield. -/
@[simps] def Promise.move (promise : Promise) (period : ℕ) : Promise where
  origin := promise.origin
  deadline := promise.deadline + period
  first := false
  origin_le := promise.origin_le.trans (Nat.le_add_right _ period)

/-- The first yield promises a deadline a period from now, and each later one moves it by a
period. -/
def promises (platform : Platform) : Notebook (Option Promise) where
  blank := none
  write := fun task time note ↦
    match note with
    | none => some (.begin (time + (task.periodJiffies platform).toNat))
    | some promise => some (promise.move (task.periodJiffies platform).toNat)

/-- The law for a task that has just yielded, and what it was promised. -/
def Punctual (platform : Platform) (m : Timed (Option Promise)) (t : Addr) (promise : Promise) :
    Prop :=
  platform.ulong (m.result.state.slab t).nextDdl = platform.jiffies promise.deadline ∧
    (m.result.outcome ≠ .returned (-1) →
      (m.result.state.slab t).timer.expires = some (platform.jiffies promise.deadline)) ∧
    (m.result.outcome = .returned (-1) ↔ promise.first = false ∧ promise.deadline < m.time)

/-- The law after each yield of a listed task. -/
def DriftFree (platform : Platform) (m : Timed (Option Promise)) : Prop :=
  ∀ t ∈ m.yielded, ∃ promise ∈ m.notes t, Punctual platform m t promise

/-- A deadline and a later time, in turns of the counter. In the same turn, what is stored of the
deadline fits into the counter, or the time is not after the deadline. In different turns, what is
left of the two without the turns is in the order of the turns, and if the deadline is in the
earlier one, what is stored of it fits into the counter. -/
def TurnsFit (turn stored deadline time : ℕ) : Prop :=
  (deadline / turn = time / turn → stored < turn ∨ time ≤ deadline) ∧
    (deadline / turn < time / turn → stored < turn ∧ deadline % turn < time % turn) ∧
    (time / turn < deadline / turn → turn ≤ stored ∨ time % turn ≤ deadline % turn)

/-- A yield that starts the deadlines anew comes when the counter is 0, and not after the deadline
that it should set. -/
def RestartFits (turn deadline time : ℕ) : Prop := time % turn = 0 ∧ time ≤ deadline

/-- At a later yield the turns fit, or the deadlines start anew in time if `next_ddl` is 0. -/
def YieldFits (platform : Platform) (task : Mp2TaskStruct) (promise : Promise) (time : ℕ) : Prop :=
  let deadline := promise.deadline + (task.periodJiffies platform).toNat
  if task.nextDdl = 0 then RestartFits (2 ^ platform.longBits) deadline time
  else
    TurnsFit (2 ^ platform.longBits) (task.nextDdl + task.periodJiffies platform).toNat deadline
      time

/-- If the step is a later yield, it fits. -/
def DeadlineFits (platform : Platform) (m : Timed (Option Promise)) (label : Op × ℕ) : Prop :=
  ∀ t ∈ yieldedBy m.result.state label.1, ∀ promise ∈ m.notes t,
    YieldFits platform (m.result.state.slab t) promise label.2

instance (platform : Platform) (m : Timed (Option Promise)) (t : Addr) (promise : Promise) :
    Decidable (Punctual platform m t promise) :=
  inferInstanceAs (Decidable (_ ∧ _ ∧ _))

instance (platform : Platform) : DecidablePred (DriftFree platform) := fun m ↦
  inferInstanceAs (Decidable (∀ t ∈ m.yielded, ∃ promise ∈ m.notes t,
    Punctual platform m t promise))

instance (turn stored deadline time : ℕ) : Decidable (TurnsFit turn stored deadline time) :=
  inferInstanceAs (Decidable (_ ∧ _ ∧ _))

instance (turn deadline time : ℕ) : Decidable (RestartFits turn deadline time) :=
  inferInstanceAs (Decidable (_ ∧ _))

instance (platform : Platform) (task : Mp2TaskStruct) (promise : Promise) (time : ℕ) :
    Decidable (YieldFits platform task promise time) :=
  inferInstanceAs (Decidable (ite _ _ _))

instance (platform : Platform) (m : Timed (Option Promise)) (label : Op × ℕ) :
    Decidable (DeadlineFits platform m label) :=
  inferInstanceAs (Decidable (∀ t ∈ yieldedBy m.result.state label.1, ∀ promise ∈ m.notes t,
    YieldFits platform (m.result.state.slab t) promise label.2))

/-! ### The wrap of the counter -/

section Wrap

variable {platform : Platform}

/-- Two counters are the same when the times differ by whole turns. -/
theorem jiffies_eq_iff (hbits : platform.longBits ≤ 64) (time other : ℕ) :
    platform.jiffies time = platform.jiffies other ↔
      time ≡ other [MOD 2 ^ platform.longBits] := by
  rw [← UInt64.toNat_inj, platform.toNat_jiffies hbits, platform.toNat_jiffies hbits, Nat.ModEq]

/-- A number that fits into an `unsigned long` is the counter at that time. -/
theorem ulong_eq_jiffies (platform : Platform) (value : UInt64) :
    platform.ulong value = platform.jiffies value.toNat := rfl

/-- The conversion to `unsigned long` keeps the counter of a time. -/
theorem ulong_jiffies (hbits : platform.longBits ≤ 64) (time : ℕ) :
    platform.ulong (platform.jiffies time) = platform.jiffies time := by
  rw [ulong_eq_jiffies, jiffies_eq_iff hbits, platform.toNat_jiffies hbits]
  exact Nat.mod_modEq _ _

/-- A sum on 64 bits is a sum of times, up to whole turns. -/
theorem ulong_add_eq_jiffies (hbits : platform.longBits ≤ 64) (value step : UInt64) :
    platform.ulong (value + step) = platform.jiffies (value.toNat + step.toNat) := by
  rw [ulong_eq_jiffies, jiffies_eq_iff hbits, UInt64.toNat_add]
  exact (Nat.mod_modEq _ _).of_dvd (pow_dvd_pow 2 hbits)

/-- Times are in the order of their turns, and within a turn in that of what is left of them. -/
theorem lt_iff_turns (turn deadline time : ℕ) :
    deadline < time ↔ deadline / turn < time / turn ∨
      deadline / turn = time / turn ∧ deadline % turn < time % turn := by
  have hdeadline := Nat.div_add_mod deadline turn
  have htime := Nat.div_add_mod time turn
  rcases lt_trichotomy (deadline / turn) (time / turn) with hbefore | hsame | hafter
  · exact iff_of_true (Nat.lt_of_div_lt_div hbefore) (Or.inl hbefore)
  · rw [hsame] at hdeadline ⊢
    simp only [lt_self_iff_false, false_or, true_and]
    omega
  · refine iff_of_false (Nat.lt_of_div_lt_div hafter).not_gt ?_
    rintro (hbefore | ⟨hsame, -⟩)
    · exact hbefore.not_gt hafter
    · exact hafter.ne' hsame

/-- What is stored of a deadline and the counter at a time are in the order of the true times
exactly when the turns fit. Assumes: the deadline is stored up to whole turns. -/
theorem turnsFit_iff {turn stored deadline : ℕ} (hturn : 0 < turn)
    (hstored : stored ≡ deadline [MOD turn]) (time : ℕ) :
    (stored < time % turn ↔ deadline < time) ↔ TurnsFit turn stored deadline time := by
  have hcompare : stored < time % turn ↔ stored < turn ∧ deadline % turn < time % turn := by
    have hlt : time % turn < turn := Nat.mod_lt time hturn
    rw [← hstored]
    constructor
    · intro hbefore
      have hfits := hbefore.trans hlt
      exact ⟨hfits, by rwa [Nat.mod_eq_of_lt hfits]⟩
    · rintro ⟨hfits, hbefore⟩
      rwa [Nat.mod_eq_of_lt hfits] at hbefore
  have hdeadline : ¬ deadline < time ↔ time ≤ deadline := Nat.not_lt
  rw [hcompare]
  rw [lt_iff_turns turn deadline time] at hdeadline ⊢
  unfold TurnsFit
  rcases lt_trichotomy (deadline / turn) (time / turn) with hbefore | hsame | hafter
  · simp [hbefore, hbefore.ne, hbefore.not_gt]
  · simp only [hsame, lt_self_iff_false, false_or, true_and, false_imp_iff, and_true,
      forall_const] at hdeadline ⊢
    rw [← hdeadline]
    tauto
  · have hnone : ¬ (stored < turn ∧ deadline % turn < time % turn) ↔
        turn ≤ stored ∨ time % turn ≤ deadline % turn := by
      rw [not_and_or, Nat.not_lt, Nat.not_lt]
    simpa [hafter, hafter.ne', hafter.not_gt] using hnone

end Wrap

/-- What the record knows of the promise: no deadline is 0, and a promised one is stored up to whole
turns of the counter. -/
def Stored (platform : Platform) (_ ddl : UInt64) : Option Promise → Prop
  | none => ddl = 0
  | some promise => platform.ulong ddl = platform.jiffies promise.deadline

/-! ### One yield -/

section Step

variable {platform : Platform} {m later : Timed (Option Promise)} {pid : UInt32} {now : UInt64}
  {time : ℕ} {t : Addr}

/-- A first yield stores a deadline a period from now, up to whole turns of the counter. -/
theorem firstDeadline_eq (hbits : platform.longBits ≤ 64) {task : Mp2TaskStruct}
    (hzero : task.nextDdl = 0) (time : ℕ) :
    platform.ulong (task.nextDeadline platform (platform.jiffies time)) =
      platform.jiffies (time + (task.periodJiffies platform).toNat) := by
  rw [Mp2TaskStruct.nextDeadline, if_pos hzero, ulong_add_eq_jiffies hbits, ulong_jiffies hbits,
    jiffies_eq_iff hbits, platform.toNat_jiffies hbits]
  exact (Nat.mod_modEq _ _).add_right _

/-- A later yield stores the deadline it moves, up to whole turns of the counter. -/
theorem movedDeadline_eq (hbits : platform.longBits ≤ 64) {task : Mp2TaskStruct} {deadline : ℕ}
    (hset : task.nextDdl ≠ 0) (hstored : platform.ulong task.nextDdl = platform.jiffies deadline)
    (time : ℕ) :
    platform.ulong (task.nextDeadline platform (platform.jiffies time)) =
      platform.jiffies (deadline + (task.periodJiffies platform).toNat) := by
  rw [ulong_eq_jiffies, jiffies_eq_iff hbits] at hstored
  rw [Mp2TaskStruct.nextDeadline, if_neg hset, ulong_add_eq_jiffies hbits, jiffies_eq_iff hbits]
  exact hstored.add_right _

/-- The law for a later yield, in terms of the record before it. -/
theorem yieldFits_iff (hbits : platform.longBits ≤ 64) {task : Mp2TaskStruct} {promise : Promise}
    (hstored : platform.ulong task.nextDdl = platform.jiffies promise.deadline) (time : ℕ) :
    (platform.ulong (task.nextDeadline platform (platform.jiffies time)) =
        platform.jiffies (promise.deadline + (task.periodJiffies platform).toNat) ∧
      (task.missesDdl platform (platform.jiffies time) = true ↔
        promise.deadline + (task.periodJiffies platform).toNat < time)) ↔
      YieldFits platform task promise time := by
  unfold YieldFits
  split_ifs with hzero
  · -- the deadlines start anew, and the yield is not checked
    have hnever : ¬ task.missesDdl platform (platform.jiffies time) = true :=
      fun hmisses ↦ (missesDdl_iff.mp hmisses).1 hzero
    have hcounter : promise.deadline % 2 ^ platform.longBits = 0 := by
      rw [hzero, ulong_eq_jiffies, jiffies_eq_iff hbits] at hstored
      have hsame : 0 % 2 ^ platform.longBits = promise.deadline % 2 ^ platform.longBits := hstored
      rw [← hsame, Nat.zero_mod]
    have hcancel : ∀ step : ℕ,
        time + step ≡ promise.deadline + step [MOD 2 ^ platform.longBits] ↔
          time % 2 ^ platform.longBits = 0 := by
      intro step
      rw [← hcounter]
      exact ⟨Nat.ModEq.add_right_cancel' step, fun hsame ↦ Nat.ModEq.add_right step hsame⟩
    rw [firstDeadline_eq hbits hzero, jiffies_eq_iff hbits, iff_false_left hnever, Nat.not_lt,
      hcancel]
    rfl
  · have hmoved := movedDeadline_eq hbits hzero hstored time
    have hsum : task.nextDeadline platform (platform.jiffies time) =
        task.nextDdl + task.periodJiffies platform := if_neg hzero
    rw [and_iff_right hmoved, missesDdl_iff, and_iff_right hzero, UInt64.lt_iff_toNat_lt,
      platform.toNat_jiffies hbits]
    rw [hsum, ulong_eq_jiffies, jiffies_eq_iff hbits] at hmoved
    exact turnsFit_iff (Nat.two_pow_pos _) hmoved time

/-- What a yield leaves for the law. -/
theorem punctual_yeild_iff
    (hstep : nextTimed (promises platform) platform m (.yeild pid now, time) = some later)
    (hfound : m.result.state.yeildLookup pid = some t) (promise : Promise) :
    Punctual platform later t promise ↔
      platform.ulong ((m.result.state.slab t).nextDeadline platform (platform.jiffies time)) =
          platform.jiffies promise.deadline ∧
        ((m.result.state.slab t).missesDdl platform (platform.jiffies time) = true ↔
          promise.first = false ∧ promise.deadline < time) := by
  obtain ⟨hreads, hresult, htime, -, -⟩ := nextTimed_eq_some hstep
  have hnow : now = platform.jiffies time := hreads
  simp only [Punctual, hresult, htime, exec, taskYeild_rejected_iff hfound,
    nextDdl_taskYeild_self hfound, ← hnow]
  refine and_congr_right fun hstored ↦ and_iff_right fun haccepted ↦ ?_
  rw [expires_taskYeild_self hfound haccepted, hstored]

/-- After a step the law holds exactly when the step fits. Assumes: records that store what was
promised. -/
theorem driftFree_iff_deadlineFits (hbits : platform.longBits ≤ 64)
    (hm : Noted (Stored platform) m) {label : Op × ℕ}
    (hstep : nextTimed (promises platform) platform m label = some later) :
    DriftFree platform later ↔ DeadlineFits platform m label := by
  obtain ⟨op, time⟩ := label
  obtain ⟨-, -, -, hyielded, hnotes⟩ := nextTimed_eq_some hstep
  unfold DriftFree DeadlineFits
  rw [hyielded, hnotes]
  refine forall_congr' fun t ↦ forall_congr' fun hyield ↦ ?_
  obtain ⟨pid, now, rfl, hfound⟩ := yieldedBy_eq_some hyield
  have hknown := hm t (mem_of_yeildLookup hfound).1
  simp only [Notebook.after_yeild_self hfound, punctual_yeild_iff hstep hfound]
  cases hnote : m.notes t with
  | none =>
    rw [hnote] at hknown
    have hnever : ¬ (m.result.state.slab t).missesDdl platform (platform.jiffies time) = true :=
      fun hmisses ↦ (missesDdl_iff.mp hmisses).1 hknown
    refine iff_of_true ⟨_, rfl, firstDeadline_eq hbits hknown time, ?_⟩ fun _ hnone ↦ by cases hnone
    exact iff_of_false hnever fun hlate ↦ Bool.noConfusion hlate.1
  | some promise =>
    rw [hnote] at hknown
    simp only [promises, Option.mem_def, Option.some.injEq, exists_eq_left', forall_eq',
      Promise.move_deadline, Promise.move_first, true_and]
    exact yieldFits_iff hbits hknown time

/-- After a step with the law the records store what was promised. -/
theorem Noted.of_driftFree (hm : Noted (Stored platform) m) {label : Op × ℕ}
    (hstep : nextTimed (promises platform) platform m label = some later)
    (hlaw : DriftFree platform later) : Noted (Stored platform) later := by
  obtain ⟨op, time⟩ := label
  obtain ⟨-, -, -, hyielded, hnotes⟩ := nextTimed_eq_some hstep
  refine hm.step (fun _ ↦ rfl) hstep fun t hyield _ ↦ ?_
  obtain ⟨promise, hpromise, hpunctual⟩ := hlaw t (hyielded.trans hyield)
  obtain ⟨pid, now, rfl, hfound⟩ := yieldedBy_eq_some hyield
  rw [hnotes, Option.mem_def, Notebook.after_yeild_self hfound] at hpromise
  rw [hpromise]
  exact ((punctual_yeild_iff hstep hfound promise).mp hpunctual).1

end Step

/-! ### Whole runs -/

/-- Assumes: at most 64 bits in an `unsigned long`. In a run that starts at any time, the law holds
after every step if and only if every later yield fits. -/
theorem always_driftFree_iff {platform : Platform} (hbits : platform.longBits ≤ 64)
    (slab : Addr → Mp2TaskStruct) (time : ℕ) (labels : List (Op × ℕ)) :
    Always (nextTimed (promises platform) platform) (DriftFree platform)
        (startTimed (promises platform) slab time) labels ↔
      Meets (nextTimed (promises platform) platform) (DeadlineFits platform)
        (startTimed (promises platform) slab time) labels := by
  refine always_iff_meets (fun m ↦ Noted (Stored platform) m ∧ DriftFree platform m)
    (fun m hm ↦ hm.2) ?_ ?_ ⟨noted_startTimed _ _ slab time, fun t ht ↦ by cases ht⟩ labels
  · rintro m label later ⟨hm, -⟩ hstep hfits
    have hlaw := (driftFree_iff_deadlineFits hbits hm hstep).mpr hfits
    exact ⟨hm.of_driftFree hstep hlaw, hlaw⟩
  · rintro m label later ⟨hm, -⟩ hstep hnot hlaw
    exact hnot ((driftFree_iff_deadlineFits hbits hm hstep).mp hlaw)

/-- A task with a period of 1000 jiffies that yields at the given times. -/
def yieldsAt (platform : Platform) (start : ℕ) (times : List ℕ) : List (Op × ℕ) :=
  (.register 1 1000 10 (some 1), start) ::
    times.map fun time ↦ (.yeild 1 (platform.jiffies time), time)

/-- A task that yields early, and then after its deadline. -/
theorem always_driftFree_late :
    Always (nextTimed (promises platformHz1000) platformHz1000) (DriftFree platformHz1000)
      (startTimed (promises platformHz1000) zeroSlab 0)
      (yieldsAt platformHz1000 0 [10, 900, 2000, 6000]) :=
  (always_driftFree_iff (by decide) zeroSlab 0 _).mpr (by decide)

/-- A 32-bit kernel with `HZ` 1000. -/
def platform32 : Platform where
  longBits := 32
  msecsToJiffies := fun msecs ↦ if msecs.toNat < 2 ^ 31 then msecs.toUInt64 else 2 ^ 30 - 2

/-- Once the counter has wrapped, a deadline from before it is never found missed. -/
theorem not_always_driftFree_wrapped :
    ¬ Always (nextTimed (promises platform32) platform32) (DriftFree platform32)
      (startTimed (promises platform32) zeroSlab (2 ^ 32 - 3000))
      (yieldsAt platform32 (2 ^ 32 - 3000) [2 ^ 32 - 2000, 2 ^ 32 + 50000]) :=
  not_always_of_run (by decide)

/-! ### What the record holds -/

/-- What `next_ddl` holds of a deadline: the counter at the first deadline and the periods since
then, as a number of 64 bits. -/
def storedDdl (turn origin deadline : ℕ) : ℕ := (origin % turn + (deadline - origin)) % 2 ^ 64

/-- The deadline is stored up to whole turns of the counter. -/
theorem storedDdl_modEq {bits : ℕ} (hbits : bits ≤ 64) (promise : Promise) :
    storedDdl (2 ^ bits) promise.origin promise.deadline ≡ promise.deadline [MOD 2 ^ bits] := by
  have hdrop : storedDdl (2 ^ bits) promise.origin promise.deadline ≡
      promise.origin % 2 ^ bits + (promise.deadline - promise.origin) [MOD 2 ^ bits] :=
    (Nat.mod_modEq _ _).of_dvd (pow_dvd_pow 2 hbits)
  have hturns : promise.origin % 2 ^ bits + (promise.deadline - promise.origin) ≡
      promise.origin + (promise.deadline - promise.origin) [MOD 2 ^ bits] :=
    (Nat.mod_modEq _ _).add_right _
  rw [Nat.add_sub_cancel' promise.origin_le] at hturns
  exact hdrop.trans hturns

/-- A deadline that is a period later is stored as the sum on 64 bits. -/
theorem storedDdl_move (turn : ℕ) (promise : Promise) (period : ℕ) :
    storedDdl turn promise.origin (promise.deadline + period) =
      (storedDdl turn promise.origin promise.deadline + period) % 2 ^ 64 := by
  unfold storedDdl
  rw [Nat.sub_add_comm promise.origin_le, ← Nat.add_assoc, Nat.mod_add_mod]

/-- `msecs_to_jiffies` returns an `unsigned long`. -/
def Platform.ReturnsLong (platform : Platform) : Prop :=
  ∀ msecs, (platform.msecsToJiffies msecs).toNat < 2 ^ platform.longBits

/-- What the record knows of the promise: no deadline is 0, and a promised one is stored. -/
def Exact (platform : Platform) (_ ddl : UInt64) : Option Promise → Prop
  | none => ddl = 0
  | some promise =>
    ddl.toNat = storedDdl (2 ^ platform.longBits) promise.origin promise.deadline

section Exact

variable {platform : Platform} {m later : Timed (Option Promise)}

/-- Records that hold what was promised store it up to whole turns. -/
theorem Noted.stored (hbits : platform.longBits ≤ 64) (hm : Noted (Exact platform) m) :
    Noted (Stored platform) m := by
  intro a ha
  have hknown := hm a ha
  cases hnote : m.notes a with
  | none =>
    rw [hnote] at hknown
    exact hknown
  | some promise =>
    rw [hnote] at hknown
    have hexact : (m.result.state.slab a).nextDdl.toNat =
        storedDdl (2 ^ platform.longBits) promise.origin promise.deadline := hknown
    change platform.ulong (m.result.state.slab a).nextDdl = platform.jiffies promise.deadline
    rw [ulong_eq_jiffies, jiffies_eq_iff hbits, hexact]
    exact storedDdl_modEq hbits promise

/-- A yield that starts the deadlines stores the first one. -/
theorem toNat_firstDeadline (hbits : platform.longBits ≤ 64) {task : Mp2TaskStruct}
    (hzero : task.nextDdl = 0) (time : ℕ) :
    (task.nextDeadline platform (platform.jiffies time)).toNat =
      (time + (task.periodJiffies platform).toNat) % 2 ^ platform.longBits := by
  rw [Mp2TaskStruct.nextDeadline, if_pos hzero, ulong_add_eq_jiffies hbits,
    platform.toNat_jiffies hbits, platform.toNat_jiffies hbits, Nat.mod_add_mod]
  rfl

/-- A first yield stores its deadline. -/
theorem exact_begin (hbits : platform.longBits ≤ 64) {task : Mp2TaskStruct}
    (hzero : task.nextDdl = 0) (time : ℕ) :
    Exact platform task.period (task.nextDeadline platform (platform.jiffies time))
      (some (.begin (time + (task.periodJiffies platform).toNat))) := by
  have hlt : (time + (task.periodJiffies platform).toNat) % 2 ^ platform.longBits < 2 ^ 64 :=
    (Nat.mod_lt _ (Nat.two_pow_pos _)).trans_le (Nat.pow_le_pow_right (by decide) hbits)
  change _ = storedDdl _ (time + _) (time + _)
  rw [toNat_firstDeadline hbits hzero, storedDdl, Nat.sub_self, Nat.add_zero]
  exact (Nat.mod_eq_of_lt hlt).symm

/-- A later yield that fits stores the deadline it moves. -/
theorem exact_move (hbits : platform.longBits ≤ 64) (hlong : platform.ReturnsLong)
    {task : Mp2TaskStruct} {promise : Promise}
    (hexact : Exact platform task.period task.nextDdl (some promise)) {time : ℕ}
    (hfits : YieldFits platform task promise time) :
    Exact platform task.period (task.nextDeadline platform (platform.jiffies time))
      (some (promise.move (task.periodJiffies platform).toNat)) := by
  have hstored : task.nextDdl.toNat =
      storedDdl (2 ^ platform.longBits) promise.origin promise.deadline := hexact
  change _ = storedDdl _ promise.origin (promise.deadline + _)
  rw [storedDdl_move, ← hstored]
  unfold YieldFits at hfits
  split_ifs at hfits with hzero
  · -- the counter is 0, as is the deadline that the yield should move
    have hperiod : (task.periodJiffies platform).toNat < 2 ^ platform.longBits := hlong _
    rw [toNat_firstDeadline hbits hzero, ← Nat.mod_add_mod, hfits.1, hzero, UInt64.toNat_zero,
      Nat.zero_add, Nat.mod_eq_of_lt hperiod]
    exact (Nat.mod_eq_of_lt (UInt64.toNat_lt _)).symm
  · rw [Mp2TaskStruct.nextDeadline, if_neg hzero]
    exact UInt64.toNat_add _ _

/-- A step that fits keeps what the records hold. -/
theorem Noted.exact (hbits : platform.longBits ≤ 64) (hlong : platform.ReturnsLong)
    (hm : Noted (Exact platform) m) {label : Op × ℕ}
    (hstep : nextTimed (promises platform) platform m label = some later)
    (hfits : DeadlineFits platform m label) : Noted (Exact platform) later := by
  obtain ⟨op, time⟩ := label
  refine hm.step (fun _ ↦ rfl) hstep fun t hyield hlisted ↦ ?_
  have hknown := hm t hlisted
  cases hnote : m.notes t with
  | none =>
    rw [hnote] at hknown
    exact exact_begin hbits hknown time
  | some promise =>
    rw [hnote] at hknown
    exact exact_move hbits hlong hknown (hfits t hyield promise hnote)

end Exact

/-! ### The condition in true times -/

/-- A condition on every later yield: on the period of the task, what it was promised before, and
the time. -/
def AtLaterYields (fits : ℕ → Promise → ℕ → Prop) (platform : Platform)
    (m : Timed (Option Promise)) (label : Op × ℕ) : Prop :=
  ∀ t ∈ yieldedBy m.result.state label.1, ∀ promise ∈ m.notes t,
    fits ((m.result.state.slab t).periodJiffies platform).toNat promise label.2

/-- `YieldFits` in true times. -/
def TimesFit (turn period : ℕ) (promise : Promise) (time : ℕ) : Prop :=
  let deadline := promise.deadline + period
  if storedDdl turn promise.origin promise.deadline = 0 then RestartFits turn deadline time
  else TurnsFit turn (storedDdl turn promise.origin deadline) deadline time

section TimesFit

variable {platform : Platform} {m : Timed (Option Promise)}

/-- The record and the true times say the same of a yield. -/
theorem yieldFits_iff_timesFit {task : Mp2TaskStruct} {promise : Promise}
    (hexact : Exact platform task.period task.nextDdl (some promise)) (time : ℕ) :
    YieldFits platform task promise time ↔
      TimesFit (2 ^ platform.longBits) (task.periodJiffies platform).toNat promise time := by
  have hstored : task.nextDdl.toNat =
      storedDdl (2 ^ platform.longBits) promise.origin promise.deadline := hexact
  dsimp only [YieldFits, TimesFit]
  rw [storedDdl_move, ← hstored, ← UInt64.toNat_add]
  refine iff_of_eq (if_congr ?_ rfl rfl)
  rw [← UInt64.toNat_inj, UInt64.toNat_zero]

/-- The records and the true times say the same of a step. -/
theorem deadlineFits_iff_timesFit (hm : Noted (Exact platform) m) (label : Op × ℕ) :
    DeadlineFits platform m label ↔
      AtLaterYields (TimesFit (2 ^ platform.longBits)) platform m label := by
  obtain ⟨op, time⟩ := label
  refine forall_congr' fun t ↦ forall_congr' fun hyield ↦ forall_congr' fun promise ↦
    forall_congr' fun hnote ↦ ?_
  obtain ⟨pid, now, rfl, hfound⟩ := yieldedBy_eq_some hyield
  have hknown := hm t (mem_of_yeildLookup hfound).1
  rw [Option.mem_def.mp hnote] at hknown
  exact yieldFits_iff_timesFit hknown time

/-- The runs that keep the law, told from the first deadlines, the periods and the times of the
yields. -/
theorem always_driftFree_iff_timesFit (hbits : platform.longBits ≤ 64)
    (hlong : platform.ReturnsLong) (slab : Addr → Mp2TaskStruct) (time : ℕ)
    (labels : List (Op × ℕ)) :
    Always (nextTimed (promises platform) platform) (DriftFree platform)
        (startTimed (promises platform) slab time) labels ↔
      Meets (nextTimed (promises platform) platform)
        (AtLaterYields (TimesFit (2 ^ platform.longBits)) platform)
        (startTimed (promises platform) slab time) labels := by
  refine always_iff_meets (fun m ↦ Noted (Exact platform) m ∧ DriftFree platform m)
    (fun m hm ↦ hm.2) ?_ ?_ ⟨noted_startTimed _ _ slab time, fun t ht ↦ by cases ht⟩ labels
  · rintro m label later ⟨hm, -⟩ hstep htimes
    have hfits := (deadlineFits_iff_timesFit hm label).mpr htimes
    exact ⟨hm.exact hbits hlong hstep hfits,
      (driftFree_iff_deadlineFits hbits (hm.stored hbits) hstep).mpr hfits⟩
  · rintro m label later ⟨hm, -⟩ hstep hnot hlaw
    have hfits := (driftFree_iff_deadlineFits hbits (hm.stored hbits) hstep).mp hlaw
    exact hnot ((deadlineFits_iff_timesFit hm label).mp hfits)

end TimesFit

/-! ### 64 and 32 bits -/

/-- A deadline and a time in different turns are in the same order without them. -/
def InTurnOrder (turn deadline time : ℕ) : Prop :=
  (deadline / turn < time / turn → deadline % turn < time % turn) ∧
    (time / turn < deadline / turn → time % turn ≤ deadline % turn)

/-- On 64 bits, at a later yield the turns do not hide the order of deadline and time, or a deadline
of 0 starts anew in time. -/
def FitsLongBits64 (period : ℕ) (promise : Promise) (time : ℕ) : Prop :=
  let deadline := promise.deadline + period
  if promise.deadline % 2 ^ 64 = 0 then RestartFits (2 ^ 64) deadline time
  else InTurnOrder (2 ^ 64) deadline time

/-- On 32 bits, the same in the turn of the first deadline, which alone can be 0. In later turns a
yield is not late. -/
def FitsLongBits32 (period : ℕ) (promise : Promise) (time : ℕ) : Prop :=
  let deadline := promise.deadline + period
  if promise.deadline = promise.origin ∧ promise.deadline % 2 ^ 32 = 0 then
    RestartFits (2 ^ 32) deadline time
  else if deadline / 2 ^ 32 = promise.origin / 2 ^ 32 then InTurnOrder (2 ^ 32) deadline time
  else time ≤ deadline

section LongBits

variable {platform : Platform} {turn stored deadline time : ℕ}

/-- For a deadline that is stored in one turn, the turns fit when they do not hide the order. -/
theorem turnsFit_iff_of_lt (hstored : stored < turn) :
    TurnsFit turn stored deadline time ↔ InTurnOrder turn deadline time := by
  simp only [TurnsFit, InTurnOrder, hstored, true_or, implies_true, true_and, hstored.not_ge,
    false_or]

/-- For a deadline that is stored beyond one turn, the turns fit when the time is not late. -/
theorem turnsFit_iff_of_le (hstored : turn ≤ stored) :
    TurnsFit turn stored deadline time ↔ time ≤ deadline := by
  simp only [TurnsFit, hstored, true_or, implies_true, and_true, hstored.not_gt, false_or,
    false_and, imp_false, Nat.not_lt]
  constructor
  · rintro ⟨hsame, hturns⟩
    rcases hturns.lt_or_eq with hbefore | heq
    · exact (Nat.lt_of_div_lt_div hbefore).le
    · exact hsame heq.symm
  · exact fun hle ↦ ⟨fun _ ↦ hle, Nat.div_le_div_right hle⟩

/-- On 64 bits the deadline is stored without its turns. -/
theorem storedDdl_longBits64 (promise : Promise) :
    storedDdl (2 ^ 64) promise.origin promise.deadline = promise.deadline % 2 ^ 64 :=
  (Nat.mod_mod _ _).symm.trans (storedDdl_modEq le_rfl promise)

/-- On 64 bits, in true times. -/
theorem timesFit_longBits64 (period : ℕ) (promise : Promise) (time : ℕ) :
    TimesFit (2 ^ 64) period promise time ↔ FitsLongBits64 period promise time := by
  have hlt : storedDdl (2 ^ 64) promise.origin (promise.deadline + period) < 2 ^ 64 :=
    Nat.mod_lt _ (by decide)
  unfold TimesFit FitsLongBits64
  rw [storedDdl_longBits64]
  exact iff_of_eq (if_congr Iff.rfl rfl (propext (turnsFit_iff_of_lt hlt)))

/-- A run on 64 bits keeps the law if and only if every later yield fits in true times. -/
theorem always_driftFree_longBits64 (hbits : platform.longBits = 64)
    (slab : Addr → Mp2TaskStruct) (time : ℕ) (labels : List (Op × ℕ)) :
    Always (nextTimed (promises platform) platform) (DriftFree platform)
        (startTimed (promises platform) slab time) labels ↔
      Meets (nextTimed (promises platform) platform) (AtLaterYields FitsLongBits64 platform)
        (startTimed (promises platform) slab time) labels := by
  have hlong : platform.ReturnsLong := fun msecs ↦ by
    rw [hbits]
    exact UInt64.toNat_lt _
  have htimes : TimesFit (2 ^ platform.longBits) = FitsLongBits64 := by
    funext period promise time
    rw [hbits]
    exact propext (timesFit_longBits64 period promise time)
  rw [always_driftFree_iff_timesFit hbits.le hlong, htimes]

/-- A run on 64 bits keeps the law as long as the promised deadlines and the times are in the first
turn of the counter and no promised deadline is 0. -/
theorem always_driftFree_before_turn (hbits : platform.longBits = 64)
    {slab : Addr → Mp2TaskStruct} {time : ℕ} {labels : List (Op × ℕ)}
    (hbefore : Meets (nextTimed (promises platform) platform)
      (AtLaterYields (fun period promise time ↦ 0 < promise.deadline ∧
        promise.deadline + period < 2 ^ 64 ∧ time < 2 ^ 64) platform)
      (startTimed (promises platform) slab time) labels) :
    Always (nextTimed (promises platform) platform) (DriftFree platform)
      (startTimed (promises platform) slab time) labels := by
  rw [always_driftFree_longBits64 hbits]
  refine (meets_congr (fun m label hlabel ↦ ?_) hbefore).mp hbefore
  refine iff_of_true hlabel fun t hyield promise hnote ↦ ?_
  obtain ⟨hpos, hdeadline, htime⟩ := hlabel t hyield promise hnote
  have hzero : ¬ promise.deadline % 2 ^ 64 = 0 := by
    rw [Nat.mod_eq_of_lt (by omega)]
    exact hpos.ne'
  dsimp only [FitsLongBits64]
  rw [if_neg hzero, InTurnOrder, Nat.div_eq_of_lt hdeadline, Nat.div_eq_of_lt htime]
  exact ⟨fun hlt ↦ absurd hlt (lt_irrefl 0), fun hlt ↦ absurd hlt (lt_irrefl 0)⟩

/-- What is stored of a deadline below the last turn of 64 bits. -/
theorem storedDdl_of_lt {turn : ℕ} {promise : Promise} (hroom : promise.deadline < 2 ^ 64) :
    storedDdl turn promise.origin promise.deadline =
      promise.origin % turn + (promise.deadline - promise.origin) := by
  have hle := Nat.mod_le promise.origin turn
  have horigin := promise.origin_le
  exact Nat.mod_eq_of_lt (by omega)

/-- A deadline is stored in one turn exactly when it is in the turn of the first deadline. -/
theorem storedDdl_lt_iff {turn : ℕ} (hturn : 0 < turn) {promise : Promise}
    (hroom : promise.deadline < 2 ^ 64) :
    storedDdl turn promise.origin promise.deadline < turn ↔
      promise.deadline / turn = promise.origin / turn := by
  have hsplit : promise.deadline = storedDdl turn promise.origin promise.deadline +
      turn * (promise.origin / turn) := by
    have horigin := Nat.div_add_mod promise.origin turn
    have hle := promise.origin_le
    rw [storedDdl_of_lt hroom]
    omega
  have hdiv : promise.deadline / turn =
      storedDdl turn promise.origin promise.deadline / turn + promise.origin / turn := by
    rw [← Nat.add_mul_div_left _ _ hturn, ← hsplit]
  rw [hdiv, Nat.add_eq_right, Nat.div_eq_zero_iff_lt hturn]

/-- On 32 bits, in true times. -/
theorem timesFit_longBits32 {period : ℕ} {promise : Promise}
    (hroom : promise.deadline + period < 2 ^ 64) (time : ℕ) :
    TimesFit (2 ^ 32) period promise time ↔ FitsLongBits32 period promise time := by
  have hzero : storedDdl (2 ^ 32) promise.origin promise.deadline = 0 ↔
      promise.deadline = promise.origin ∧ promise.deadline % 2 ^ 32 = 0 := by
    have hle := promise.origin_le
    rw [storedDdl_of_lt (by omega), Nat.add_eq_zero_iff, Nat.sub_eq_zero_iff_le]
    constructor
    · rintro ⟨hcounter, hback⟩
      have heq := hback.antisymm hle
      exact ⟨heq, heq ▸ hcounter⟩
    · rintro ⟨heq, hcounter⟩
      exact ⟨heq ▸ hcounter, heq.le⟩
  have hturn := @storedDdl_lt_iff (2 ^ 32) (by decide) (promise.move period) hroom
  unfold TimesFit FitsLongBits32
  refine iff_of_eq (if_congr hzero rfl (propext ?_))
  split_ifs with hsame
  · exact turnsFit_iff_of_lt (hturn.mpr hsame)
  · exact turnsFit_iff_of_le (Nat.not_lt.mp fun hlt ↦ hsame (hturn.mp hlt))

/-- A run on 32 bits keeps the law if and only if every later yield fits in true times. Assumes:
promised deadlines below `2 ^ 64`. -/
theorem always_driftFree_longBits32 (hbits : platform.longBits = 32)
    (hlong : platform.ReturnsLong) {slab : Addr → Mp2TaskStruct} {time : ℕ}
    {labels : List (Op × ℕ)}
    (hroom : Meets (nextTimed (promises platform) platform)
      (AtLaterYields (fun period promise _ ↦ promise.deadline + period < 2 ^ 64) platform)
      (startTimed (promises platform) slab time) labels) :
    Always (nextTimed (promises platform) platform) (DriftFree platform)
        (startTimed (promises platform) slab time) labels ↔
      Meets (nextTimed (promises platform) platform) (AtLaterYields FitsLongBits32 platform)
        (startTimed (promises platform) slab time) labels := by
  rw [always_driftFree_iff_timesFit (by omega) hlong, hbits]
  refine meets_congr (fun m label hlabel ↦ ?_) hroom
  refine forall_congr' fun t ↦ forall_congr' fun hyield ↦ forall_congr' fun promise ↦
    forall_congr' fun hnote ↦ ?_
  exact timesFit_longBits32 (hlabel t hyield promise hnote) label.2

end LongBits

end KernelModules.RateMonotonic
