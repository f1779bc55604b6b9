import KernelModules.FaultProfiler.BufferMapping
import KernelModules.FaultProfiler.MonitorDrain

/-!
# The loops of the monitor, step by step

The main function of `MP3/monitor.c` as a machine over any content of the mapping. A step is a
test of the search loop, a test of the read loop, or a word that is printed and cleared. Nothing
keeps `index` within the mapping but the tests themselves, and nothing but the words that are
cleared ends the read loop.

`exists_iterate_drain` and `exists_iterate_search` connect the machine to `monitor`, which is what
it has done when it stops. `monitorLaw` collects what holds at every step.
-/

set_option autoImplicit false
set_option relaxedAutoImplicit false

namespace KernelModules.FaultProfiler

/-! ### The machine -/

/-- `NPAGES`. -/
def npages : ℕ := 128

/-- The words that `buf_init` maps. -/
def mappedWords : ℕ := npages * pageSize.toNat / sizeofLong

/-- Where the function is: at the test of the search loop, at that of the read loop, at one of the
four words of a row, or behind the loops. -/
inductive MonitorPc
  | search
  | read
  | word (offset : Fin 4)
  | done
  deriving DecidableEq

/-- The mapping, `index`, the place in the code, the words printed so far, and the number `i` of
rows. -/
structure MonitorState where
  buf : Buffer
  index : ℕ
  pc : MonitorPc
  printed : List Int64
  rows : ℕ

namespace MonitorState

/-- Where the function is after a word of a row. -/
def afterWord (offset : Fin 4) : MonitorPc :=
  if offset = 3 then .read else .word (offset + 1)

/-- The step of the function. -/
def step (m : MonitorState) : MonitorState :=
  match m.pc with
  | .search =>
    if m.index < bufdMax then
      if m.buf m.index ≠ -1 then { m with pc := .read } else { m with index := m.index + 1 }
    else { m with pc := .read }
  | .read => if m.buf m.index ≠ -1 then { m with pc := .word 0 } else { m with pc := .done }
  | .word offset =>
    { buf := Function.update m.buf m.index (-1)
      index := if bufdMax ≤ m.index + 1 then 0 else m.index + 1
      pc := afterWord offset
      printed := m.printed ++ [m.buf m.index]
      rows := if offset = 3 then m.rows + 1 else m.rows }
  | .done => m

/-- The words that the step reads or writes. -/
def accesses (m : MonitorState) : List ℕ :=
  match m.pc with
  | .search => if m.index < bufdMax then [m.index] else []
  | .read => [m.index]
  | .word _ => [m.index]
  | .done => []

/-- The start of the function. -/
def start (buf : Buffer) : MonitorState := ⟨buf, 0, .search, [], 0⟩

end MonitorState

/-- The words of a row. -/
def Row.words (row : Row) : List Int64 := [row.pid, row.minor, row.major, row.util]

namespace Cursor

/-- The machine at a cursor. -/
def state (c : Cursor) (pc : MonitorPc) (printed : List Int64) (rows : ℕ) : MonitorState :=
  ⟨c.buf, c.index, pc, printed, rows⟩

open MonitorState

/-! ### The machine and the loops -/

/-- A step within a row prints and clears a word. -/
theorem step_word (c : Cursor) (offset : Fin 4) (printed : List Int64) (rows : ℕ) :
    step (c.state (.word offset) printed rows) =
      c.takeWord.2.state (afterWord offset) (printed ++ [c.takeWord.1])
        (if offset = 3 then rows + 1 else rows) := rfl

/-- Four steps print and clear a row. -/
theorem iterate_takeRow (c : Cursor) (printed : List Int64) (rows : ℕ) :
    step^[4] (c.state (.word 0) printed rows) =
      c.takeRow.2.state .read (printed ++ c.takeRow.1.words) (rows + 1) := by
  have hprinted : printed ++ c.takeRow.1.words =
      printed ++ [c.takeWord.1] ++ [c.takeWord.2.takeWord.1] ++
        [c.takeWord.2.takeWord.2.takeWord.1] ++
          [c.takeWord.2.takeWord.2.takeWord.2.takeWord.1] := by
    simp only [List.append_assoc]
    rfl
  have hzero : afterWord 0 = .word 1 := rfl
  have hone : afterWord 1 = .word 2 := rfl
  have htwo : afterWord 2 = .word 3 := rfl
  have hthree : afterWord 3 = .read := rfl
  rw [hprinted]
  simp only [Function.iterate_succ_apply, Function.iterate_zero_apply, step_word, hzero, hone, htwo,
    hthree, Fin.reduceEq, if_false, if_true]
  rfl

/-- A row that starts with a used word is printed and cleared in five steps. -/
theorem iterate_read_of_used {c : Cursor} (hused : c.buf c.index ≠ -1) (printed : List Int64)
    (rows : ℕ) :
    step^[5] (c.state .read printed rows) =
      c.takeRow.2.state .read (printed ++ c.takeRow.1.words) (rows + 1) := by
  have hstep : step (c.state .read printed rows) = c.state (.word 0) printed rows := if_pos hused
  rw [Function.iterate_succ_apply, hstep, iterate_takeRow]

/-- A row that starts with -1 ends the read loop in a step. -/
theorem iterate_read_of_free {c : Cursor} (hfree : c.buf c.index = -1) (printed : List Int64)
    (rows : ℕ) : step^[1] (c.state .read printed rows) = c.state .done printed rows :=
  if_neg (not_not.mpr hfree)

/-- The read loop comes to its end, and has done what `drain` does. -/
theorem exists_iterate_drain (c : Cursor) (printed : List Int64) (rows : ℕ) :
    ∃ count index, step^[count] (c.state .read printed rows) =
      ⟨c.drain.2, index, .done, printed ++ c.drain.1.flatMap Row.words,
        rows + c.drain.1.length⟩ := by
  induction c using drain.induct generalizing printed rows with
  | case1 c hfree =>
    refine ⟨1, c.index, ?_⟩
    rw [iterate_read_of_free hfree, drain_of_free hfree, List.flatMap_nil, List.append_nil,
      List.length_nil, Nat.add_zero, state]
  | case2 c hused _ ih =>
    obtain ⟨count, index, hrest⟩ := ih (printed ++ c.takeRow.1.words) (rows + 1)
    refine ⟨count + 5, index, ?_⟩
    rw [Function.iterate_add_apply, iterate_read_of_used hused, hrest, drain_of_used hused]
    simp only [List.flatMap_cons, List.append_assoc, List.length_cons]
    rw [Nat.add_assoc, Nat.add_comm 1]

end Cursor

namespace MonitorState

/-- The search loop comes to its end where `search` does. -/
theorem exists_iterate_search (buf : Buffer) (left : ℕ) (hleft : left ≤ bufdMax) :
    ∃ count, step^[count] ⟨buf, bufdMax - left, .search, [], 0⟩ =
      (search buf left hleft).state .read [] 0 := by
  induction left with
  | zero =>
    refine ⟨1, ?_⟩
    rw [Function.iterate_one, Nat.sub_zero]
    simp only [step, if_neg (lt_irrefl bufdMax)]
    rfl
  | succ left ih =>
    have hlt : bufdMax - (left + 1) < bufdMax := by omega
    by_cases hused : buf (bufdMax - (left + 1)) ≠ -1
    · refine ⟨1, ?_⟩
      rw [Function.iterate_one, search, if_pos hused]
      simp only [step, if_pos hlt, if_pos hused]
      rfl
    · obtain ⟨count, hrest⟩ := ih (Nat.le_of_succ_le hleft)
      have hnext : bufdMax - (left + 1) + 1 = bufdMax - left := by omega
      refine ⟨count + 1, ?_⟩
      rw [Function.iterate_succ_apply, search, if_neg hused, ← hrest]
      simp only [step, if_pos hlt, if_neg hused, hnext]

/-! ### Every step -/

/-- What holds at every step: `index` is within the bound, and the words behind it are as at the
start. -/
structure Within (buf : Buffer) (m : MonitorState) : Prop where
  index_le : m.index ≤ bufdMax
  frame : ∀ word, bufdMax < word → m.buf word = buf word

/-- A step stays within the bound. -/
theorem Within.step {buf : Buffer} {m : MonitorState} (hm : Within buf m) :
    Within buf m.step := by
  unfold MonitorState.step
  cases m.pc with
  | search =>
    dsimp only
    split_ifs with hlt hused
    · exact ⟨hm.index_le, hm.frame⟩
    · exact ⟨hlt, hm.frame⟩
    · exact ⟨hm.index_le, hm.frame⟩
  | read =>
    dsimp only
    split_ifs
    · exact ⟨hm.index_le, hm.frame⟩
    · exact ⟨hm.index_le, hm.frame⟩
  | word offset =>
    refine ⟨?_, fun word hword ↦ ?_⟩
    · dsimp only
      split_ifs <;> omega
    · have hne : word ≠ m.index := (hm.index_le.trans_lt hword).ne'
      exact (Function.update_of_ne hne ..).trans (hm.frame word hword)
  | done => exact hm

/-- All steps stay within the bound. -/
theorem within_iterate (buf : Buffer) (count : ℕ) : Within buf (step^[count] (start buf)) := by
  induction count with
  | zero => exact ⟨Nat.zero_le _, fun _ _ ↦ rfl⟩
  | succ count ih =>
    rw [Function.iterate_succ_apply']
    exact ih.step

/-- The step accesses the word at `index`, or none. -/
theorem mem_accesses {m : MonitorState} {word : ℕ} (hword : word ∈ m.accesses) :
    word = m.index := by
  unfold accesses at hword
  cases hpc : m.pc with
  | search =>
    simp only [hpc] at hword
    split_ifs at hword
    · exact List.mem_singleton.mp hword
    · cases hword
  | read =>
    simp only [hpc] at hword
    exact List.mem_singleton.mp hword
  | word offset =>
    simp only [hpc] at hword
    exact List.mem_singleton.mp hword
  | done =>
    simp only [hpc] at hword
    cases hword

/-- From a used word at the test of the read loop, five steps print a row. They clear a used word,
and no word becomes used. -/
theorem exists_iterate_row {m : MonitorState} (hle : m.index ≤ bufdMax) (hpc : m.pc = .read)
    (hused : m.buf m.index ≠ -1) :
    ∃ row later, step^[5] m = later ∧ later.pc = .read ∧
      later.printed = m.printed ++ Row.words row ∧ later.rows = m.rows + 1 ∧
        (∃ word, m.buf word ≠ -1 ∧ later.buf word = -1) ∧
          ∀ word, m.buf word = -1 → later.buf word = -1 := by
  obtain ⟨buf, index, pc, printed, rows⟩ := m
  dsimp only at hle hpc hused ⊢
  have hrow := Cursor.iterate_read_of_used (c := ⟨buf, index, hle⟩) hused printed rows
  have hself := Cursor.takeRow_self ⟨buf, index, hle⟩
  rw [hpc]
  refine ⟨_, _, hrow, rfl, rfl, rfl, ⟨index, hused, hself⟩, fun word hfree ↦ ?_⟩
  exact Cursor.free_takeRow (c := ⟨buf, index, hle⟩) hfree

end MonitorState

/-! ### The law of the monitor -/

/-- What the machine does from a content of the mapping on. -/
structure MonitorLaw (buf : Buffer) : Prop where
  ends : ∃ count, (MonitorState.step^[count] (.start buf)).pc = .done
  inside : ∀ count, ∀ word ∈ (MonitorState.step^[count] (.start buf)).accesses,
    word ≤ bufdMax ∧ word < mappedWords
  clears : ∀ count (m : MonitorState), MonitorState.step^[count] (.start buf) = m →
    m.pc = .read → m.buf m.index ≠ -1 → ∃ row later,
      MonitorState.step^[count + 5] (.start buf) = later ∧ later.pc = .read ∧
        later.printed = m.printed ++ Row.words row ∧ later.rows = m.rows + 1 ∧
          (∃ word, m.buf word ≠ -1 ∧ later.buf word = -1) ∧
            ∀ word, m.buf word = -1 → later.buf word = -1
  frame : ∀ count word, bufdMax < word →
    (MonitorState.step^[count] (.start buf)).buf word = buf word

/-- When the machine stops it has printed the rows of `monitor` and left its buffer. -/
theorem exists_iterate_monitor (buf : Buffer) :
    ∃ count index, MonitorState.step^[count] (.start buf) =
      ⟨(monitor buf).2, index, .done, (monitor buf).1.flatMap Row.words,
        (monitor buf).1.length⟩ := by
  obtain ⟨before, hsearch⟩ := MonitorState.exists_iterate_search buf bufdMax le_rfl
  obtain ⟨count, index, hread⟩ := (search buf bufdMax le_rfl).exists_iterate_drain [] 0
  refine ⟨count + before, index, ?_⟩
  rw [Nat.sub_self] at hsearch
  rw [Function.iterate_add_apply, MonitorState.start, hsearch, hread, List.nil_append, Nat.zero_add,
    monitor]

/-- For every content of the mapping the loops come to an end. Every word that is read or written is
one up to `BUFD_MAX` and within the mapping; every printed row clears a word that was not -1, and no
word becomes other than -1; the words behind `BUFD_MAX` are never changed. -/
theorem monitorLaw (buf : Buffer) : MonitorLaw buf := by
  have hmapped : bufdMax < mappedWords := by decide
  constructor
  · obtain ⟨count, index, hend⟩ := exists_iterate_monitor buf
    exact ⟨count, by rw [hend]⟩
  · intro count word hword
    have hle := (MonitorState.within_iterate buf count).index_le
    rw [← MonitorState.mem_accesses hword] at hle
    exact ⟨hle, hle.trans_lt hmapped⟩
  · intro count m hm hpc hused
    have hwithin := MonitorState.within_iterate buf count
    rw [hm] at hwithin
    obtain ⟨row, later, hlater, hrow⟩ :=
      MonitorState.exists_iterate_row hwithin.index_le hpc hused
    refine ⟨row, later, ?_, hrow⟩
    rw [Nat.add_comm, Function.iterate_add_apply, hm, hlater]
  · intro count word hword
    exact (MonitorState.within_iterate buf count).frame word hword

end KernelModules.FaultProfiler
