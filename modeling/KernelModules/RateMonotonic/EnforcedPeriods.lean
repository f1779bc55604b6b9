import KernelModules.RateMonotonic.DriftFreeDeadlines

/-!
# The period that is enforced

Admission and priority use the period of a task on 64 bits, and `Task_yeild` hands it to
`msecs_to_jiffies`, which takes an `unsigned int`. The law: the deadlines that a task gets are at
least its period apart, in jiffies rounded up and up to the maximum offset, the record stores the
last of them, and the timer is armed for it (`Spaced`).

A period of 2^32 milliseconds or more loses its upper bits, and a deadline of 0 starts the deadlines
anew at the time of the yield. `always_spaced_iff` says that a run keeps the law exactly when no
yield meets one of these with too little room.
-/

set_option autoImplicit false
set_option relaxedAutoImplicit false

namespace KernelModules.RateMonotonic

open Foundation Scheduler

/-! ### Milliseconds in jiffies -/

/-- `MAX_JIFFY_OFFSET`, `(LONG_MAX >> 1) - 1`. -/
def Platform.maxJiffyOffset (platform : Platform) : ℕ := 2 ^ (platform.longBits - 2) - 2

/-- Milliseconds in jiffies, rounded up. -/
def ceilJiffies (hz msecs : ℕ) : ℕ := (msecs * hz + 999) / 1000

/-- What `msecs_to_jiffies` does at `hz` jiffies a second: it rounds up, and gives the maximum
offset for the numbers that are negative as an `int`. -/
structure Platform.Converts (platform : Platform) (hz : ℕ) : Prop where
  rounds : ∀ msecs : UInt32, msecs.toNat < 2 ^ 31 →
    (platform.msecsToJiffies msecs).toNat = ceilJiffies hz msecs.toNat
  clamps : ∀ msecs : UInt32, 2 ^ 31 ≤ msecs.toNat →
    (platform.msecsToJiffies msecs).toNat = platform.maxJiffyOffset

/-- The jiffies of a period, up to the maximum offset. -/
def Platform.exactJiffies (platform : Platform) (hz : ℕ) (period : UInt64) : ℕ :=
  min (ceilJiffies hz period.toNat) platform.maxJiffyOffset

/-- The lower 32 bits of the period are the whole period, or are enough for the maximum offset. -/
def PeriodFits (platform : Platform) (hz : ℕ) (period : UInt64) : Prop :=
  period.toNat < 2 ^ 32 ∨ 2 ^ 31 ≤ period.toNat % 2 ^ 32 ∨
    platform.maxJiffyOffset ≤ ceilJiffies hz (period.toNat % 2 ^ 32)

instance (platform : Platform) (hz : ℕ) (period : UInt64) :
    Decidable (PeriodFits platform hz period) :=
  inferInstanceAs (Decidable (_ ∨ _ ∨ _))

/-- A second more is a jiffy more. Assumes: at least one jiffy a second. -/
theorem ceilJiffies_lt {hz msecs more : ℕ} (hhz : 0 < hz) (hle : msecs + 1000 ≤ more) :
    ceilJiffies hz msecs < ceilJiffies hz more := by
  have hmul : msecs * hz + 1000 ≤ more * hz := by
    calc msecs * hz + 1000 ≤ msecs * hz + 1000 * hz := by omega
      _ = (msecs + 1000) * hz := (Nat.add_mul _ _ _).symm
      _ ≤ more * hz := Nat.mul_le_mul_right hz hle
  unfold ceilJiffies
  omega

/-- The jiffies that `Task_yeild` uses are as long as the period exactly when the period fits. -/
theorem exactJiffies_le_iff {platform : Platform} {hz : ℕ} (hhz : 0 < hz)
    (hconverts : platform.Converts hz) (task : Mp2TaskStruct) :
    platform.exactJiffies hz task.period ≤ (task.periodJiffies platform).toNat ↔
      PeriodFits platform hz task.period := by
  have hlow : task.period.toUInt32.toNat = task.period.toNat % 2 ^ 32 := by simp
  unfold Platform.exactJiffies PeriodFits Mp2TaskStruct.periodJiffies
  by_cases hnegative : 2 ^ 31 ≤ task.period.toNat % 2 ^ 32
  · rw [hconverts.clamps _ (hlow ▸ hnegative)]
    exact iff_of_true (min_le_right _ _) (Or.inr (Or.inl hnegative))
  · rw [hconverts.rounds _ (hlow ▸ Nat.not_le.mp hnegative), hlow, or_iff_right hnegative,
      min_le_iff]
    refine or_congr_left ?_
    constructor
    · intro hle
      by_contra hlarge
      have hlt : ceilJiffies hz (task.period.toNat % 2 ^ 32) < ceilJiffies hz task.period.toNat :=
        ceilJiffies_lt hhz (by omega)
      exact absurd hle (Nat.not_le.mpr hlt)
    · intro hsmall
      rw [Nat.mod_eq_of_lt hsmall]

/-! ### The deadlines of a task -/

/-- The deadlines that a task has got, as true times and the last first. A yield that finds 0 in
`next_ddl` sets a deadline a period from now, and any other moves the last one by a period. -/
def deadlines (platform : Platform) : Notebook (List ℕ) where
  blank := []
  write := fun task time note ↦
    (if task.nextDdl = 0 then time + (task.periodJiffies platform).toNat
      else note.headD 0 + (task.periodJiffies platform).toNat) :: note

/-- The law for a task with the given period: its deadlines are at least the period apart. -/
def SpacedBy (platform : Platform) (hz : ℕ) (period : UInt64) (note : List ℕ) : Prop :=
  note.IsChain fun later earlier ↦ earlier + platform.exactJiffies hz period ≤ later

/-- The last deadline is stored in the record up to whole turns of the counter. -/
def StoresLast (platform : Platform) (ddl : UInt64) : List ℕ → Prop
  | [] => ddl = 0
  | last :: _ => platform.ulong ddl = platform.jiffies last

/-- The timer of a task that has just yielded is armed for its last deadline, unless the yield was
rejected. -/
def ArmedForLast (platform : Platform) (m : Timed (List ℕ)) (t : Addr) : Prop :=
  m.result.outcome ≠ .returned (-1) →
    ∃ last ∈ (m.notes t).head?,
      (m.result.state.slab t).timer.expires = some (platform.jiffies last)

/-- The law: the deadlines of every listed task are at least its period apart and the record stores
the last one, and a yield arms the timer for it. -/
def Spaced (platform : Platform) (hz : ℕ) (m : Timed (List ℕ)) : Prop :=
  Noted (fun period ddl note ↦ SpacedBy platform hz period note ∧ StoresLast platform ddl note) m ∧
    ∀ t ∈ m.yielded, ArmedForLast platform m t

/-- A yield at a time leaves room after the last deadline: it moves the deadline by a period that
fits, or finds 0 in `next_ddl` and comes late enough for the deadline that it sets. -/
def RoomAfter (platform : Platform) (hz : ℕ) (task : Mp2TaskStruct) (time last : ℕ) : Prop :=
  if task.nextDdl = 0 then
    last + platform.exactJiffies hz task.period ≤ time + (task.periodJiffies platform).toNat
  else PeriodFits platform hz task.period

/-- If the step is a yield of a task that has a deadline, it leaves room after it. -/
def RoomFits (platform : Platform) (hz : ℕ) (m : Timed (List ℕ)) (label : Op × ℕ) : Prop :=
  ∀ t ∈ yieldedBy m.result.state label.1, ∀ last ∈ (m.notes t).head?,
    RoomAfter platform hz (m.result.state.slab t) label.2 last

instance (platform : Platform) (ddl : UInt64) : DecidablePred (StoresLast platform ddl)
  | [] => inferInstanceAs (Decidable (ddl = 0))
  | last :: _ => inferInstanceAs (Decidable (platform.ulong ddl = platform.jiffies last))

instance (platform : Platform) (m : Timed (List ℕ)) (t : Addr) :
    Decidable (ArmedForLast platform m t) :=
  inferInstanceAs (Decidable (_ → ∃ last ∈ (m.notes t).head?,
    (m.result.state.slab t).timer.expires = some (platform.jiffies last)))

instance (platform : Platform) (hz : ℕ) : DecidablePred (Spaced platform hz) := fun m ↦
  inferInstanceAs (Decidable ((∀ a ∈ m.result.state.tl,
    ((m.notes a).IsChain fun later earlier ↦
      earlier + platform.exactJiffies hz (m.result.state.slab a).period ≤ later) ∧
        StoresLast platform (m.result.state.slab a).nextDdl (m.notes a)) ∧
          ∀ t ∈ m.yielded, ArmedForLast platform m t))

instance (platform : Platform) (hz : ℕ) (task : Mp2TaskStruct) (time last : ℕ) :
    Decidable (RoomAfter platform hz task time last) :=
  inferInstanceAs (Decidable (ite _ _ _))

instance (platform : Platform) (hz : ℕ) (m : Timed (List ℕ)) (label : Op × ℕ) :
    Decidable (RoomFits platform hz m label) :=
  inferInstanceAs (Decidable (∀ t ∈ yieldedBy m.result.state label.1, ∀ last ∈ (m.notes t).head?,
    RoomAfter platform hz (m.result.state.slab t) label.2 last))

/-! ### The noted deadlines are the stored ones -/

section Stored

variable {platform : Platform}

/-- A yield stores the deadline that it sets. Assumes: the record stores the last one. -/
theorem StoresLast.write (hbits : platform.longBits ≤ 64) {task : Mp2TaskStruct} {note : List ℕ}
    (hnote : StoresLast platform task.nextDdl note) (time : ℕ) :
    StoresLast platform (task.nextDeadline platform (platform.jiffies time))
      ((deadlines platform).write task time note) := by
  simp only [deadlines, StoresLast]
  split_ifs with hzero
  · exact firstDeadline_eq hbits hzero time
  · cases note with
    | nil => exact absurd hnote hzero
    | cons last earlier => exact movedDeadline_eq hbits hzero hnote time

/-- After a step in which a task has yielded its timer is armed for its last deadline. Assumes: the
record stores the last one before the step. -/
theorem armedForLast_of_yielded (hbits : platform.longBits ≤ 64) {m later : Timed (List ℕ)}
    {op : Op} {time : ℕ} (hstep : nextTimed (deadlines platform) platform m (op, time) = some later)
    {t : Addr} (hyield : yieldedBy m.result.state op = some t)
    (hstored : StoresLast platform (m.result.state.slab t).nextDdl (m.notes t)) :
    ArmedForLast platform later t := by
  obtain ⟨hreads, hresult, -, -, hnotes⟩ := nextTimed_eq_some hstep
  obtain ⟨pid, now, rfl, hfound⟩ := yieldedBy_eq_some hyield
  have hnow : now = platform.jiffies time := hreads
  have hlast := hstored.write hbits time
  intro haccepted
  rw [hresult] at haccepted
  rw [hresult, hnotes, Notebook.after_yeild_self hfound]
  refine ⟨_, rfl, ?_⟩
  rw [exec, expires_taskYeild_self hfound haccepted, hnow]
  exact congrArg some hlast

end Stored

/-! ### Whole runs -/

section Runs

variable {platform : Platform} {hz : ℕ}

/-- The deadline that a yield sets is spaced exactly when the yield leaves room. Assumes: the
earlier deadlines are spaced. -/
theorem spacedBy_write_iff (hhz : 0 < hz) (hconverts : platform.Converts hz) {task : Mp2TaskStruct}
    {note : List ℕ} (hnote : SpacedBy platform hz task.period note) (time : ℕ) :
    SpacedBy platform hz task.period ((deadlines platform).write task time note) ↔
      ∀ last ∈ note.head?, RoomAfter platform hz task time last := by
  have hcons : ∀ deadline, SpacedBy platform hz task.period (deadline :: note) ↔
      ∀ last ∈ note.head?, last + platform.exactJiffies hz task.period ≤ deadline := fun deadline ↦
    List.isChain_cons.trans (and_iff_left hnote)
  rw [deadlines, hcons]
  refine forall_congr' fun last ↦ forall_congr' fun hlast ↦ ?_
  unfold RoomAfter
  split_ifs with hzero
  · rfl
  · rw [List.headD_eq_head?_getD, hlast, Option.getD_some, Nat.add_le_add_iff_left,
      exactJiffies_le_iff hhz hconverts]

/-- Assumes: at most 64 bits in an `unsigned long`, and a conversion as documented, with at least
one jiffy a second. In a run that starts at any time, the deadlines of every listed task are spaced
and stored in every state, and armed for, if and only if every yield leaves room. -/
theorem always_spaced_iff (hbits : platform.longBits ≤ 64) (hhz : 0 < hz)
    (hconverts : platform.Converts hz) (slab : Addr → Mp2TaskStruct) (time : ℕ)
    (labels : List (Op × ℕ)) :
    Always (nextTimed (deadlines platform) platform) (Spaced platform hz)
        (startTimed (deadlines platform) slab time) labels ↔
      Meets (nextTimed (deadlines platform) platform) (RoomFits platform hz)
        (startTimed (deadlines platform) slab time) labels := by
  refine always_iff_meets (Spaced platform hz) (fun m hm ↦ hm) ?_ ?_
    ⟨noted_startTimed _ _ slab time, fun t ht ↦ by cases ht⟩ labels
  · rintro m ⟨op, now⟩ later ⟨hm, -⟩ hstep hroom
    refine ⟨hm.step (fun _ ↦ ⟨List.isChain_nil, rfl⟩) hstep fun t hyield ht ↦ ?_,
      fun t hyielded ↦ ?_⟩
    · exact ⟨(spacedBy_write_iff hhz hconverts (hm t ht).1 now).mpr (hroom t hyield),
        (hm t ht).2.write hbits now⟩
    · obtain ⟨-, -, -, hyield, -⟩ := nextTimed_eq_some hstep
      rw [hyield] at hyielded
      obtain ⟨pid, jiffies, -, hfound⟩ := yieldedBy_eq_some hyielded
      exact armedForLast_of_yielded hbits hstep hyielded (hm t (mem_of_yeildLookup hfound).1).2
  · rintro m ⟨op, now⟩ later ⟨hm, -⟩ hstep hnot hlaw
    refine hnot fun t hyield ↦ ?_
    obtain ⟨-, hresult, -, -, hnotes⟩ := nextTimed_eq_some hstep
    obtain ⟨pid, jiffies, rfl, hfound⟩ := yieldedBy_eq_some hyield
    have hsame := sameTasks_taskYeild platform pid jiffies m.result.state
    have ht := (mem_of_yeildLookup hfound).1
    have hspaced := hlaw.1 t
    rw [hresult, hnotes, exec, hsame.tl, hsame.period, Notebook.after_yeild_self hfound] at hspaced
    exact (spacedBy_write_iff hhz hconverts (hm t ht).1 now).mp (hspaced ht).1

end Runs

/-- `msecs_to_jiffies` at 1000 jiffies a second. -/
theorem platformHz1000_converts : platformHz1000.Converts 1000 where
  rounds := fun msecs hsmall ↦ by
    have hvalue : platformHz1000.msecsToJiffies msecs = msecs.toUInt64 := if_pos hsmall
    have hcast : msecs.toUInt64.toNat = msecs.toNat := by simp
    rw [hvalue, hcast, ceilJiffies]
    omega
  clamps := fun msecs hlarge ↦ by
    have hvalue : platformHz1000.msecsToJiffies msecs = 2 ^ 62 - 2 :=
      if_neg (Nat.not_lt.mpr hlarge)
    have hoffset : (2 ^ 62 - 2 : UInt64).toNat = platformHz1000.maxJiffyOffset := by
      decide +kernel
    rw [hvalue, hoffset]

/-- A task with the given period that yields at the given times. -/
def yieldsWithPeriod (period : UInt64) (times : List ℕ) : List (Op × ℕ) :=
  (.register 1 period 1 (some 1), 0) ::
    times.map fun time ↦ (.yeild 1 (platformHz1000.jiffies time), time)

/-- A period of a second is kept. -/
theorem always_spaced_second :
    Always (nextTimed (deadlines platformHz1000) platformHz1000) (Spaced platformHz1000 1000)
      (startTimed (deadlines platformHz1000) zeroSlab 0)
      (yieldsWithPeriod 1000 [10, 1010, 5000]) :=
  (always_spaced_iff (by decide) (by decide) platformHz1000_converts zeroSlab 0 _).mpr (by decide)

/-- A period of 2^32 milliseconds is none. -/
theorem not_always_spaced_wide :
    ¬ Always (nextTimed (deadlines platformHz1000) platformHz1000) (Spaced platformHz1000 1000)
      (startTimed (deadlines platformHz1000) zeroSlab 0) (yieldsWithPeriod (2 ^ 32) [10, 20]) :=
  not_always_of_run (by decide)

end KernelModules.RateMonotonic
