import KernelModules.FaultProfiler.MonitorDrain
import KernelModules.Foundation.TransitionSystem

/-!
# Agreement of the profiler and the monitor

Pushes and runs of the monitor in any order, from the buffer of `TaskList_init`, as long as no more
than 12000 samples wait to be read. The rows that the monitor prints, followed by the samples pushed
since its last run, should be the pushed samples (`Agrees`).

The two sides keep different marks. The producer starts from zeros and wraps at `VMEM_SIZE`; the
monitor takes -1 for empty, looks at the first `BUFD_MAX` words and wraps there. A run prints all
12000 rows of a buffer that has not been read, samples or not; after it, the search always ends at
`BUFD_MAX`, where a run prints one row and takes its counters from the cleared start of the buffer.
`agrees_iff` says which runs of the monitor keep the agreement: a first run after exactly 12000
pushes, and later ones after exactly 12001 pushes, the last with three counter words -1.
-/

set_option autoImplicit false
set_option relaxedAutoImplicit false

namespace KernelModules.FaultProfiler

open Foundation

/-! ### Sessions -/

/-- A profiling session: the buffer, the samples pushed so far, those pushed since the last run of
the monitor, the rows all runs have printed, and the number of runs. -/
structure Session where
  profiler : Profiler
  pushed : List Sample
  waiting : List Sample
  printed : List Row
  runs : ℕ

/-- A step of a session. -/
inductive SessionLabel
  | push (sample : Sample)
  | monitor

/-- The start of a session. -/
def sessionStart : Session := ⟨taskListInit, [], [], [], 0⟩

/-- The step of a session. A push is of a pid other than -1, while fewer than 12000 samples wait. -/
def nextSession (s : Session) : SessionLabel → Option Session
  | .push sample =>
    if sample.pid = -1 ∨ bufdRows ≤ s.waiting.length then none
    else some { s with
      profiler := vmemBufPushNext s.profiler sample
      pushed := s.pushed ++ [sample]
      waiting := s.waiting ++ [sample] }
  | .monitor => some { s with
      profiler := { s.profiler with vmemBuf := (monitor s.profiler.vmemBuf).2 }
      waiting := []
      printed := s.printed ++ (monitor s.profiler.vmemBuf).1
      runs := s.runs + 1 }

/-- The printed rows and the samples pushed since the last run are the pushed samples. -/
def Agrees (s : Session) : Prop :=
  s.printed ++ s.waiting.map Sample.row = s.pushed.map Sample.row

/-- The row of the sample has three counter words -1. -/
def Sample.Blank (sample : Sample) : Prop := sample.row = ⟨sample.pid.toInt64, -1, -1, -1⟩

/-- A run of the monitor is the first one, after 12000 pushes, or a later one, after 12001 pushes
of which the last has three counter words -1. -/
def MonitorFits (s : Session) : SessionLabel → Prop
  | .push _ => True
  | .monitor => (s.runs = 0 ∧ s.pushed.length = bufdRows) ∨
      (s.runs ≠ 0 ∧ s.pushed.length = bufdRows + 1 ∧ ∀ sample ∈ s.pushed.getLast?, sample.Blank)

/-! ### The buffer along a session -/

/-- No run yet: the buffer holds the pushed rows and zeros after them. -/
structure Unread (s : Session) : Prop where
  runs : s.runs = 0
  printed : s.printed = []
  waiting : s.waiting = s.pushed
  length_le : s.pushed.length ≤ bufdRows
  idx : s.profiler.vmemIdx = s.pushed.length
  rows : ∀ slot, s.profiler.vmemBuf.rowAt slot = ((s.pushed[slot]?).map Sample.row).getD zeroRow
  pid_ne : ∀ sample ∈ s.pushed, sample.pid ≠ -1

/-- One run, after `bufdRows` pushes: the buffer is -1 below `BUFD_MAX`, and the row there is the
first one pushed since, or zero. -/
structure ReadOnce (s : Session) : Prop where
  runs : s.runs ≠ 0
  pushed : ∃ first : List Sample, first.length = bufdRows ∧ s.pushed = first ++ s.waiting ∧
    s.printed = first.map Sample.row
  length_le : s.waiting.length ≤ bufdRows
  idx : s.profiler.vmemIdx = bufdRows + s.waiting.length
  free : ∀ word < bufdMax, s.profiler.vmemBuf word = -1
  row : s.profiler.vmemBuf.rowAt bufdRows = (s.waiting.head?.map Sample.row).getD zeroRow
  pid_ne : ∀ sample ∈ s.waiting, sample.pid ≠ -1

/-- Two or more runs, the second after one more push: the buffer is -1 up to `BUFD_MAX`. -/
structure ReadTwice (s : Session) : Prop where
  runs : s.runs ≠ 0
  pushed : ∃ first : List Sample, first.length = bufdRows + 1 ∧ s.pushed = first ++ s.waiting ∧
    s.printed = first.map Sample.row ∧ ∀ sample ∈ first.getLast?, sample.Blank
  length_le : s.waiting.length ≤ bufdRows
  idx : s.profiler.vmemIdx = bufdRows + 1 + s.waiting.length
  free : ∀ word ≤ bufdMax, s.profiler.vmemBuf word = -1

/-- Where a session is whose runs all fit. -/
def InStep (s : Session) : Prop := Unread s ∨ ReadOnce s ∨ ReadTwice s

/-- A session agrees while its runs fit. -/
theorem InStep.agrees {s : Session} (hs : InStep s) : Agrees s := by
  unfold Agrees
  rcases hs with hs | hs | hs
  · rw [hs.printed, hs.waiting, List.nil_append]
  · obtain ⟨first, -, hpushed, hprinted⟩ := hs.pushed
    rw [hpushed, hprinted, List.map_append]
  · obtain ⟨first, -, hpushed, hprinted, -⟩ := hs.pushed
    rw [hpushed, hprinted, List.map_append]

/-- The row at `BUFD_MAX`. -/
theorem rowAt_bufdRows (buf : Buffer) : (buf.rowAt bufdRows).pid = buf bufdMax := rfl

/-- Clearing the words below `BUFD_MAX` leaves the row there. -/
theorem rowAt_clear (buf : Buffer) : (buf.clear bufdMax).rowAt bufdRows = buf.rowAt bufdRows := by
  have hword : ∀ word, ¬ 4 * bufdRows + word < bufdMax := by
    intro word
    simp only [bufdRows, bufdMax]
    omega
  have hstart : ¬ 4 * bufdRows < bufdMax := hword 0
  simp only [Buffer.rowAt, Buffer.clear, if_neg (hword _), if_neg hstart]

/-! ### Pushes -/

section Push

variable {s : Session} {sample : Sample}

/-- The session after a push. -/
def Session.push (s : Session) (sample : Sample) : Session :=
  { s with
    profiler := vmemBufPushNext s.profiler sample
    pushed := s.pushed ++ [sample]
    waiting := s.waiting ++ [sample] }

/-- A push moves `vmem_idx` on with the waiting samples. Assumes: a row before the end of the
buffer. -/
theorem Session.vmemIdx_push (base : ℕ) (hidx : s.profiler.vmemIdx = base + s.waiting.length)
    (hroom : 4 * (base + s.waiting.length + 1) < vmemSize) :
    (s.push sample).profiler.vmemIdx = base + (s.push sample).waiting.length := by
  have hnext : 4 * (s.profiler.vmemIdx + 1) < vmemSize := hidx ▸ hroom
  simp only [Session.push, vmemIdx_vmemBufPushNext _ _ hnext, hidx, List.length_append,
    List.length_singleton, Nat.add_assoc]

/-- A push clears no word and fills none before its row. -/
theorem Session.free_push {bound : ℕ} (hbound : bound ≤ 4 * s.profiler.vmemIdx)
    (hfree : ∀ word < bound, s.profiler.vmemBuf word = -1) :
    ∀ word < bound, (s.push sample).profiler.vmemBuf word = -1 := by
  intro word hword
  have hne : word / 4 ≠ s.profiler.vmemIdx := by omega
  simp only [Session.push]
  rw [vmemBuf_vmemBufPushNext_of_ne _ _ hne]
  exact hfree word hword

/-- The samples read first stay first after a push. -/
theorem Session.pushed_push {first : List Sample} (hpushed : s.pushed = first ++ s.waiting) :
    (s.push sample).pushed = first ++ (s.push sample).waiting := by
  simp only [Session.push, hpushed, List.append_assoc]

/-- A push leaves at most 12000 waiting samples. Assumes: fewer before. -/
theorem Session.length_push_le (hroom : s.waiting.length < bufdRows) :
    (s.push sample).waiting.length ≤ bufdRows := by
  simp only [Session.push, List.length_append, List.length_singleton]
  omega

/-- A push keeps a session without runs. -/
theorem Unread.push (hs : Unread s) (hpid : sample.pid ≠ -1)
    (hroom : s.waiting.length < bufdRows) : Unread (s.push sample) where
  runs := hs.runs
  printed := hs.printed
  waiting := congrArg (· ++ [sample]) hs.waiting
  length_le := by
    have hlength : (s.push sample).waiting.length ≤ bufdRows := Session.length_push_le hroom
    simp only [Session.push, hs.waiting] at hlength
    exact hlength
  idx := by
    have hidx : s.profiler.vmemIdx = 0 + s.waiting.length := by
      rw [hs.idx, hs.waiting, Nat.zero_add]
    rw [Session.vmemIdx_push 0 hidx, Nat.zero_add]
    · simp only [Session.push, hs.waiting]
    · simp only [bufdRows, bufdMax, vmemSize] at hroom ⊢
      omega
  rows := by
    intro slot
    simp only [Session.push]
    by_cases hslot : slot = s.profiler.vmemIdx
    · have hlast : slot = s.pushed.length := hslot.trans hs.idx
      rw [hslot, rowAt_vmemBufPushNext_self, ← hslot, hlast, List.getElem?_concat_length]
      rfl
    · have hne : slot ≠ s.pushed.length := fun heq ↦ hslot (heq.trans hs.idx.symm)
      rw [rowAt_vmemBufPushNext_of_ne _ _ hslot, hs.rows]
      rcases Nat.lt_or_gt_of_ne hne with hlt | hgt
      · rw [List.getElem?_append_left hlt]
      · rw [List.getElem?_eq_none hgt.le, List.getElem?_eq_none]
        rw [List.length_append, List.length_singleton]
        exact hgt
  pid_ne := by
    intro other hother
    rcases List.mem_append.mp hother with hold | hnew
    · exact hs.pid_ne other hold
    · rw [List.mem_singleton.mp hnew]
      exact hpid

/-- A push keeps a session after one run. -/
theorem ReadOnce.push (hs : ReadOnce s) (hpid : sample.pid ≠ -1)
    (hroom : s.waiting.length < bufdRows) : ReadOnce (s.push sample) where
  runs := hs.runs
  pushed := by
    obtain ⟨first, hlength, hpushed, hprinted⟩ := hs.pushed
    exact ⟨first, hlength, Session.pushed_push hpushed, hprinted⟩
  length_le := Session.length_push_le hroom
  idx := by
    refine Session.vmemIdx_push bufdRows hs.idx ?_
    simp only [bufdRows, bufdMax, vmemSize] at hroom ⊢
    omega
  free := by
    refine Session.free_push ?_ hs.free
    rw [hs.idx]
    simp only [bufdRows, bufdMax]
    omega
  row := by
    have hrow := hs.row
    simp only [Session.push]
    cases hwaiting : s.waiting with
    | nil =>
      have hidx : s.profiler.vmemIdx = bufdRows := by rw [hs.idx, hwaiting, List.length_nil]; rfl
      rw [← hidx, rowAt_vmemBufPushNext_self]
      rfl
    | cons first rest =>
      have hne : bufdRows ≠ s.profiler.vmemIdx := by
        rw [hs.idx, hwaiting, List.length_cons]
        omega
      rw [rowAt_vmemBufPushNext_of_ne _ _ hne, hrow, hwaiting]
      rfl
  pid_ne := by
    intro other hother
    rcases List.mem_append.mp hother with hold | hnew
    · exact hs.pid_ne other hold
    · rw [List.mem_singleton.mp hnew]
      exact hpid

/-- A push keeps a session after two runs. -/
theorem ReadTwice.push (hs : ReadTwice s) (hroom : s.waiting.length < bufdRows) :
    ReadTwice (s.push sample) where
  runs := hs.runs
  pushed := by
    obtain ⟨first, hlength, hpushed, hprinted, hblank⟩ := hs.pushed
    exact ⟨first, hlength, Session.pushed_push hpushed, hprinted, hblank⟩
  length_le := Session.length_push_le hroom
  idx := by
    refine Session.vmemIdx_push (bufdRows + 1) hs.idx ?_
    simp only [bufdRows, bufdMax, vmemSize] at hroom ⊢
    omega
  free := by
    intro word hword
    have hbound : bufdMax + 1 ≤ 4 * s.profiler.vmemIdx := by
      rw [hs.idx]
      simp only [bufdRows, bufdMax]
      omega
    exact Session.free_push hbound (fun other hother ↦ hs.free other (Nat.le_of_lt_succ hother))
      word (Nat.lt_succ_of_le hword)

/-- A push keeps a session in step. -/
theorem InStep.push (hs : InStep s) (hpid : sample.pid ≠ -1)
    (hroom : s.waiting.length < bufdRows) : InStep (s.push sample) := by
  rcases hs with hs | hs | hs
  · exact .inl (hs.push hpid hroom)
  · exact .inr (.inl (hs.push hpid hroom))
  · exact .inr (.inr (hs.push hroom))

end Push

/-! ### Runs of the monitor -/

section Drain

variable {s : Session}

/-- The session after a run of the monitor. -/
def Session.drain (s : Session) : Session :=
  { s with
    profiler := { s.profiler with vmemBuf := (monitor s.profiler.vmemBuf).2 }
    waiting := []
    printed := s.printed ++ (monitor s.profiler.vmemBuf).1
    runs := s.runs + 1 }

/-- After a run the agreement is between the printed and the pushed rows. -/
theorem agrees_drain_iff : Agrees s.drain ↔
    s.printed ++ (monitor s.profiler.vmemBuf).1 = s.pushed.map Sample.row := by
  unfold Agrees Session.drain
  rw [List.map_nil, List.append_nil]

/-- A run that agrees has printed as many rows as were pushed. -/
theorem length_of_agrees_drain (hagrees : Agrees s.drain) :
    s.printed.length + (monitor s.profiler.vmemBuf).1.length = s.pushed.length := by
  have hlength := congrArg List.length (agrees_drain_iff.mp hagrees)
  rwa [List.length_append, List.length_map] at hlength

/-- The first run prints the rows of all slots below `BUFD_MAX`. -/
theorem Unread.monitor_eq (hs : Unread s) :
    monitor s.profiler.vmemBuf =
      ((List.range bufdRows).map s.profiler.vmemBuf.rowAt, s.profiler.vmemBuf.clear bufdMax) := by
  refine monitor_of_full fun slot _ ↦ ?_
  have hword : s.profiler.vmemBuf (4 * slot) =
      (((s.pushed[slot]?).map Sample.row).getD zeroRow).pid := congrArg Row.pid (hs.rows slot)
  rw [hword]
  cases hsample : s.pushed[slot]? with
  | none => exact show (0 : Int64) ≠ -1 by decide
  | some sample => exact toInt64_ne_neg_one (hs.pid_ne sample (List.mem_of_getElem? hsample))

/-- The first run prints exactly the pushed rows when there are `bufdRows` of them. -/
theorem Unread.rows_eq (hs : Unread s) (hlength : s.pushed.length = bufdRows) :
    (List.range bufdRows).map s.profiler.vmemBuf.rowAt = s.pushed.map Sample.row := by
  refine List.ext_getElem (by simp [hlength]) fun slot hslot hslot' ↦ ?_
  have hpushed : slot < s.pushed.length := by rwa [List.length_map] at hslot'
  rw [List.getElem_map, List.getElem_map, List.getElem_range, hs.rows,
    List.getElem?_eq_getElem hpushed]
  rfl

/-- The first run keeps the session in step after `bufdRows` pushes. -/
theorem Unread.drain (hs : Unread s) (hlength : s.pushed.length = bufdRows) :
    ReadOnce s.drain where
  runs := Nat.succ_ne_zero _
  pushed := by
    refine ⟨s.pushed, hlength, (List.append_nil _).symm, ?_⟩
    simp only [Session.drain, hs.monitor_eq, hs.printed, List.nil_append, hs.rows_eq hlength]
  length_le := Nat.zero_le _
  idx := hs.idx.trans hlength
  free := by
    intro word hword
    simp only [Session.drain]
    rw [hs.monitor_eq]
    exact if_pos hword
  row := by
    have hrow : s.profiler.vmemBuf.rowAt bufdRows = zeroRow := by
      rw [hs.rows, List.getElem?_eq_none hlength.le]
      rfl
    simp only [Session.drain]
    rw [hs.monitor_eq, rowAt_clear, hrow]
    rfl
  pid_ne := fun _ hmem ↦ absurd hmem List.not_mem_nil

/-- The first run agrees only after `bufdRows` pushes. -/
theorem Unread.length_of_agrees (hs : Unread s) (hagrees : Agrees s.drain) :
    s.pushed.length = bufdRows := by
  have hlength := length_of_agrees_drain hagrees
  simp only [hs.monitor_eq, hs.printed, List.length_nil, List.length_map,
    List.length_range] at hlength
  omega

/-- The second run prints one row: the word at `BUFD_MAX`, and three words -1. -/
theorem ReadOnce.monitor_eq (hs : ReadOnce s) :
    monitor s.profiler.vmemBuf = ([⟨s.profiler.vmemBuf bufdMax, -1, -1, -1⟩],
      s.profiler.vmemBuf.clear (bufdMax + 1)) := by
  refine monitor_of_cleared hs.free ?_
  rw [← rowAt_bufdRows s.profiler.vmemBuf, hs.row]
  cases hsample : s.waiting.head? with
  | none => exact show (0 : Int64) ≠ -1 by decide
  | some sample => exact toInt64_ne_neg_one (hs.pid_ne sample (List.mem_of_head? hsample))

/-- The word at `BUFD_MAX` is the pid of the only waiting sample. -/
theorem ReadOnce.word_eq (hs : ReadOnce s) {sample : Sample} (hwaiting : s.waiting = [sample]) :
    s.profiler.vmemBuf bufdMax = sample.pid.toInt64 := by
  rw [← rowAt_bufdRows s.profiler.vmemBuf, hs.row, hwaiting]
  rfl

/-- The second run keeps the session in step when one sample waits whose counter words are -1. -/
theorem ReadOnce.drain (hs : ReadOnce s) {sample : Sample} (hwaiting : s.waiting = [sample])
    (hblank : sample.Blank) : ReadTwice s.drain where
  runs := Nat.succ_ne_zero _
  pushed := by
    obtain ⟨first, hlength, hpushed, hprinted⟩ := hs.pushed
    refine ⟨first ++ [sample], ?_, ?_, ?_, ?_⟩
    · rw [List.length_append, hlength, List.length_singleton]
    · simp only [Session.drain, hpushed, hwaiting, List.append_nil]
    · simp only [Session.drain]
      rw [hs.monitor_eq, hs.word_eq hwaiting, hprinted, List.map_append, List.map_singleton,
        show sample.row = _ from hblank]
    · intro last hlast
      rw [List.getLast?_concat] at hlast
      rwa [← Option.some.inj hlast]
  length_le := Nat.zero_le _
  idx := by
    have hidx := hs.idx
    rw [hwaiting] at hidx
    exact hidx
  free := by
    intro word hword
    simp only [Session.drain]
    rw [hs.monitor_eq]
    exact if_pos (Nat.lt_succ_of_le hword)

/-- The second run agrees only when one sample waits, whose counter words are -1. -/
theorem ReadOnce.blank_of_agrees (hs : ReadOnce s) (hagrees : Agrees s.drain) :
    ∃ sample, s.waiting = [sample] ∧ sample.Blank := by
  obtain ⟨first, hfirst, hpushed, hprinted⟩ := hs.pushed
  have hlength := length_of_agrees_drain hagrees
  rw [hs.monitor_eq, hprinted, hpushed, List.length_map, List.length_append,
    List.length_singleton] at hlength
  obtain ⟨sample, hwaiting⟩ := List.length_eq_one_iff.mp (show s.waiting.length = 1 by omega)
  refine ⟨sample, hwaiting, ?_⟩
  have hrows := agrees_drain_iff.mp hagrees
  rw [hs.monitor_eq, hs.word_eq hwaiting, hprinted, hpushed, hwaiting, List.map_append,
    List.append_cancel_left_eq, List.map_singleton] at hrows
  exact (List.cons.inj hrows).1.symm

/-- A later run prints nothing. -/
theorem ReadTwice.monitor_eq (hs : ReadTwice s) :
    monitor s.profiler.vmemBuf = ([], s.profiler.vmemBuf) := monitor_of_empty hs.free

/-- A later run keeps the session in step when no sample waits. -/
theorem ReadTwice.drain (hs : ReadTwice s) (hwaiting : s.waiting = []) : ReadTwice s.drain where
  runs := Nat.succ_ne_zero _
  pushed := by
    obtain ⟨first, hlength, hpushed, hprinted, hblank⟩ := hs.pushed
    rw [hwaiting] at hpushed
    refine ⟨first, hlength, hpushed, ?_, hblank⟩
    simp only [Session.drain]
    rw [hs.monitor_eq, List.append_nil, hprinted]
  length_le := Nat.zero_le _
  idx := by
    have hidx := hs.idx
    rw [hwaiting] at hidx
    exact hidx
  free := by
    simp only [Session.drain]
    rw [hs.monitor_eq]
    exact hs.free

/-- A later run agrees only when no sample waits. -/
theorem ReadTwice.waiting_of_agrees (hs : ReadTwice s) (hagrees : Agrees s.drain) :
    s.waiting = [] := by
  obtain ⟨first, -, hpushed, hprinted, -⟩ := hs.pushed
  have hlength := length_of_agrees_drain hagrees
  rw [hs.monitor_eq, hprinted, hpushed, List.length_map, List.length_append,
    List.length_nil] at hlength
  exact List.length_eq_zero_iff.mp (by omega)

/-- Along a session in step, a run fits exactly when the rows agree after it, and it is then in step
again. -/
theorem InStep.drain_iff (hs : InStep s) :
    (MonitorFits s .monitor → InStep s.drain) ∧ (Agrees s.drain → MonitorFits s .monitor) := by
  rcases hs with hs | hs | hs
  · constructor
    · rintro (⟨-, hlength⟩ | ⟨hruns, -⟩)
      · exact .inr (.inl (hs.drain hlength))
      · exact absurd hs.runs hruns
    · intro hagrees
      exact .inl ⟨hs.runs, hs.length_of_agrees hagrees⟩
  · obtain ⟨first, hfirst, hpushed, -⟩ := hs.pushed
    constructor
    · rintro (⟨hruns, -⟩ | ⟨-, hlength, hlast⟩)
      · exact absurd hruns hs.runs
      · rw [hpushed, List.length_append] at hlength
        obtain ⟨sample, hwaiting⟩ :=
          List.length_eq_one_iff.mp (show s.waiting.length = 1 by omega)
        rw [hpushed, hwaiting, List.getLast?_concat] at hlast
        exact .inr (.inr (hs.drain hwaiting (hlast sample rfl)))
    · intro hagrees
      obtain ⟨sample, hwaiting, hblank⟩ := hs.blank_of_agrees hagrees
      refine .inr ⟨hs.runs, ?_, ?_⟩
      · rw [hpushed, hwaiting, List.length_append, hfirst, List.length_singleton]
      · intro last hlast
        rw [hpushed, hwaiting, List.getLast?_concat] at hlast
        rwa [← Option.some.inj hlast]
  · obtain ⟨first, hfirst, hpushed, -, hblank⟩ := hs.pushed
    constructor
    · rintro (⟨hruns, -⟩ | ⟨-, hlength, -⟩)
      · exact absurd hruns hs.runs
      · rw [hpushed, List.length_append] at hlength
        exact .inr (.inr (hs.drain (List.length_eq_zero_iff.mp (by omega))))
    · intro hagrees
      rw [hs.waiting_of_agrees hagrees, List.append_nil] at hpushed
      refine .inr ⟨hs.runs, ?_, ?_⟩
      · rw [hpushed, hfirst]
      · rwa [hpushed]

end Drain

/-! ### The agreement -/

/-- What a step of a session is. -/
theorem nextSession_spec {s later : Session} {label : SessionLabel}
    (hnext : nextSession s label = some later) :
    (∃ sample, label = .push sample ∧ sample.pid ≠ -1 ∧ s.waiting.length < bufdRows ∧
      later = s.push sample) ∨ (label = .monitor ∧ later = s.drain) := by
  cases label with
  | push sample =>
    rw [nextSession] at hnext
    split_ifs at hnext with hrefused
    obtain ⟨hpid, hroom⟩ := not_or.mp hrefused
    exact .inl ⟨sample, rfl, hpid, Nat.not_le.mp hroom, (Option.some.inj hnext).symm⟩
  | monitor => exact .inr ⟨rfl, (Option.some.inj hnext).symm⟩

/-- The start of a session is in step. -/
theorem inStep_sessionStart : InStep sessionStart := by
  refine .inl ⟨rfl, rfl, rfl, Nat.zero_le _, rfl, fun _ ↦ rfl, ?_⟩
  exact fun _ hmem ↦ absurd hmem List.not_mem_nil

/-- Along a session the rows agree in every state if and only if every run of the monitor fits. -/
theorem agrees_iff (labels : List SessionLabel) :
    Always nextSession Agrees sessionStart labels ↔
      Meets nextSession MonitorFits sessionStart labels := by
  refine always_iff_meets InStep (fun _ hs ↦ hs.agrees) ?_ ?_ inStep_sessionStart labels
  · intro before label later hs hnext hfits
    rcases nextSession_spec hnext with ⟨sample, rfl, hpid, hroom, rfl⟩ | ⟨rfl, rfl⟩
    · exact hs.push hpid hroom
    · exact hs.drain_iff.1 hfits
  · intro before label later hs hnext hunfit hagrees
    rcases nextSession_spec hnext with ⟨sample, rfl, -⟩ | ⟨rfl, rfl⟩
    · exact hunfit trivial
    · exact hunfit (hs.drain_iff.2 hagrees)

/-- A run of the monitor before any push prints 12000 rows of zeros. -/
theorem agrees_lost : ¬ ∀ labels, Always nextSession Agrees sessionStart labels := by
  intro hall
  have hlater := (hall [.monitor]).2 sessionStart.drain rfl
  have hrows : (monitor sessionStart.profiler.vmemBuf).1 =
      (List.range bufdRows).map sessionStart.profiler.vmemBuf.rowAt := by
    rw [monitor_of_full fun _ _ ↦ show (0 : Int64) ≠ -1 by decide]
  have hprinted := length_of_agrees_drain hlater.head
  rw [hrows, List.length_map, List.length_range] at hprinted
  exact absurd hprinted (by decide)

end KernelModules.FaultProfiler
