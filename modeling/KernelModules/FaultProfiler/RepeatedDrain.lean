import KernelModules.FaultProfiler.ProfilerAgreement
import Mathlib.Data.Nat.Find

/-!
# A second run of the monitor

Pushes and complete runs of the monitor in any order, from the buffer of `TaskList_init` on, with no
bound on the samples that wait. A second run with no push in between should print nothing and
change nothing (`DrainsOnce`).

In every state that is reached, a row below `BUFD_MAX` either starts with a used word or is cleared
(`Slotted`), so that a run clears the rows from the first used one to the next hole, and nothing
else. What it leaves is a second run's: the rows behind a hole, and the word at `BUFD_MAX`, which
the search stops at when it finds nothing. `drainsOnce_iff` says that a second run does nothing
exactly when neither is there.
-/

set_option autoImplicit false
set_option relaxedAutoImplicit false

namespace KernelModules.FaultProfiler

open Foundation

/-! ### Pushes and runs -/

/-- The step of the buffer: a push of a pid other than -1, or a run of the monitor. -/
def nextProfiler (p : Profiler) : SessionLabel → Option Profiler
  | .push sample => if sample.pid = -1 then none else some (vmemBufPushNext p sample)
  | .monitor => some { p with vmemBuf := (monitor p.vmemBuf).2 }

/-- A run of the monitor is always enabled, and changes the buffer alone. -/
theorem exists_nextProfiler_monitor (p : Profiler) :
    ∃ later, nextProfiler p .monitor = some later ∧ later.vmemBuf = (monitor p.vmemBuf).2 :=
  ⟨_, rfl, rfl⟩

/-- The law: after a run of the monitor, a second one prints nothing and leaves the buffer. -/
def DrainsOnce (buf : Buffer) : Prop := monitor (monitor buf).2 = ([], (monitor buf).2)

/-- The words below `BUFD_MAX` are -1. -/
def Buffer.Cleared (buf : Buffer) : Prop := ∀ word < bufdMax, buf word = -1

/-- The word at `BUFD_MAX` is -1, and below it the used rows have no hole between them. -/
def Buffer.InOnePiece (buf : Buffer) : Prop :=
  buf bufdMax = -1 ∧ ∀ first hole later, first < hole → hole < later → later < bufdRows →
    buf (4 * first) ≠ -1 → buf (4 * hole) = -1 → buf (4 * later) = -1

/-! ### Rows that are used or cleared -/

/-- A row below `BUFD_MAX` that starts with -1 is cleared. -/
def Buffer.Slotted (buf : Buffer) : Prop :=
  ∀ word < bufdMax, buf (4 * (word / 4)) = -1 → buf word = -1

/-- A buffer that is cleared up to a row has rows that are used or cleared. Assumes: the buffer had
them before. -/
theorem Buffer.Slotted.clear {buf : Buffer} (hbuf : buf.Slotted) (stop : ℕ) :
    (buf.clear (4 * stop)).Slotted := by
  intro word hword hstart
  unfold Buffer.clear at hstart ⊢
  by_cases hbelow : word < 4 * stop
  · exact if_pos hbelow
  · have hrow : ¬ 4 * (word / 4) < 4 * stop := by omega
    rw [if_neg hrow] at hstart
    rw [if_neg hbelow]
    exact hbuf word hword hstart

/-- A push keeps the rows used or cleared. -/
theorem Buffer.Slotted.push {p : Profiler} (hp : p.vmemBuf.Slotted) {sample : Sample}
    (hpid : sample.pid ≠ -1) : (vmemBufPushNext p sample).vmemBuf.Slotted := by
  intro word hword hstart
  by_cases hrow : word / 4 = p.vmemIdx
  · -- the row that is written starts with a pid
    have hself : (vmemBufPushNext p sample).vmemBuf (4 * p.vmemIdx) = sample.pid.toInt64 :=
      congrArg Row.pid (rowAt_vmemBufPushNext_self p sample)
    rw [hrow, hself] at hstart
    exact absurd hstart (toInt64_ne_neg_one hpid)
  · have hother : 4 * (word / 4) / 4 ≠ p.vmemIdx := by
      rwa [Nat.mul_div_cancel_left _ (by decide)]
    rw [vmemBuf_vmemBufPushNext_of_ne p sample hother] at hstart
    rw [vmemBuf_vmemBufPushNext_of_ne p sample hrow]
    exact hp word hword hstart

/-- A buffer that is not cleared has a first used word. -/
theorem Buffer.exists_first_used {buf : Buffer} (hnot : ¬ buf.Cleared) :
    ∃ word < bufdMax, buf word ≠ -1 ∧ ∀ earlier < word, buf earlier = -1 := by
  unfold Buffer.Cleared at hnot
  push Not at hnot
  obtain ⟨hlt, hused⟩ := Nat.find_spec hnot
  refine ⟨Nat.find hnot, hlt, hused, fun earlier hearlier ↦ ?_⟩
  by_contra hne
  exact Nat.find_min hnot hearlier ⟨hearlier.trans hlt, hne⟩

/-- A run over a buffer that is not cleared clears it up to the first hole behind its first used
row. Assumes: rows that are used or cleared. -/
theorem Buffer.Slotted.exists_monitor {buf : Buffer} (hbuf : buf.Slotted) (hnot : ¬ buf.Cleared) :
    ∃ first stop, first < stop ∧ stop ≤ bufdRows ∧ (∀ word < 4 * first, buf word = -1) ∧
      (∀ row, first ≤ row → row < stop → buf (4 * row) ≠ -1) ∧
        (stop = bufdRows ∨ buf (4 * stop) = -1) ∧ (monitor buf).2 = buf.clear (4 * stop) := by
  obtain ⟨word, hword, hused, hearlier⟩ := Buffer.exists_first_used hnot
  have hstart : buf (4 * (word / 4)) ≠ -1 := fun hfree ↦ hused (hbuf word hword hfree)
  have hrow : word / 4 < bufdRows := by
    simp only [bufdRows, bufdMax] at hword ⊢
    omega
  -- the first used word starts its row
  have hbefore : ∀ earlier < 4 * (word / 4), buf earlier = -1 := fun earlier hlt ↦
    hearlier earlier (by omega)
  obtain ⟨stop, hlt, hle, hrows, hstop, hmonitor⟩ := exists_monitor_eq hrow hbefore hstart
  exact ⟨word / 4, stop, hlt, hle, hbefore, hrows, hstop, congrArg Prod.snd hmonitor⟩

/-- Over a cleared buffer a run leaves -1 up to `BUFD_MAX`. -/
theorem Buffer.Cleared.monitor_eq {buf : Buffer} (hbuf : buf.Cleared) :
    ∀ word ≤ bufdMax, (monitor buf).2 word = -1 := by
  intro word hword
  by_cases hlast : buf bufdMax = -1
  · have hfree : ∀ word ≤ bufdMax, buf word = -1 := fun word hword ↦
      (Nat.lt_or_eq_of_le hword).elim (hbuf word) fun heq ↦ heq ▸ hlast
    rw [monitor_of_empty hfree]
    exact hfree word hword
  · rw [monitor_of_cleared hbuf hlast]
    exact if_pos (Nat.lt_succ_of_le hword)

/-- A run keeps the rows used or cleared. -/
theorem Buffer.Slotted.monitor {buf : Buffer} (hbuf : buf.Slotted) :
    (monitor buf).2.Slotted := by
  by_cases hcleared : buf.Cleared
  · exact fun word hword _ ↦ hcleared.monitor_eq word hword.le
  · obtain ⟨_, stop, -, -, -, -, -, hmonitor⟩ := hbuf.exists_monitor hcleared
    rw [hmonitor]
    exact hbuf.clear stop

/-- In every state that is reached the rows are used or cleared. -/
theorem slotted_of_reachable {p : Profiler} (hreach : Reachable nextProfiler taskListInit p) :
    p.vmemBuf.Slotted := by
  have hstart : taskListInit.vmemBuf.Slotted := by
    intro word hword hzero
    change (0 : Int64) = -1 at hzero
    exact absurd hzero (by decide)
  refine hreach.invariant (fun p ↦ p.vmemBuf.Slotted) hstart ?_
  intro before label later hbefore _ hnext
  cases label with
  | push sample =>
    rw [nextProfiler] at hnext
    split_ifs at hnext with hpid
    rw [← Option.some.inj hnext]
    exact hbefore.push hpid
  | monitor =>
    rw [← Option.some.inj hnext]
    exact hbefore.monitor

/-! ### The second run -/

/-- A run that prints nothing finds -1 up to `BUFD_MAX`. -/
theorem free_of_monitor {buf : Buffer} (hnone : (monitor buf).1 = []) :
    ∀ word ≤ bufdMax, buf word = -1 := by
  have hcleared : buf.Cleared := by
    by_contra hnot
    obtain ⟨word, hword, hused, hbefore⟩ := Buffer.exists_first_used hnot
    -- the search stops at the first used word, and its row is printed
    rw [monitor, search_eq buf hword.le hbefore (.inr hused), Cursor.drain_of_used hused] at hnone
    exact List.cons_ne_nil _ _ hnone
  intro word hword
  rcases Nat.lt_or_eq_of_le hword with hlt | rfl
  · exact hcleared word hlt
  · by_contra hused
    rw [monitor_of_cleared hcleared hused] at hnone
    exact List.cons_ne_nil _ _ hnone

/-- A second run does nothing exactly when the first one leaves -1 up to `BUFD_MAX`. -/
theorem drainsOnce_iff_free (buf : Buffer) :
    DrainsOnce buf ↔ ∀ word ≤ bufdMax, (monitor buf).2 word = -1 :=
  ⟨fun honce ↦ free_of_monitor (congrArg Prod.fst honce), monitor_of_empty⟩

/-- The rows that a run leaves below `BUFD_MAX` are cleared exactly when the used ones have no hole
between them. Assumes: rows that are used or cleared, a first used row, and a hole or the end behind
the used rows that follow it. -/
theorem Buffer.Slotted.free_iff {buf : Buffer} (hbuf : buf.Slotted) {first stop : ℕ}
    (hlt : first < stop) (hle : stop ≤ bufdRows) (hbefore : ∀ word < 4 * first, buf word = -1)
    (hrows : ∀ row, first ≤ row → row < stop → buf (4 * row) ≠ -1)
    (hstop : stop = bufdRows ∨ buf (4 * stop) = -1) :
    (∀ word ≤ bufdMax, buf.clear (4 * stop) word = -1) ↔ buf.InOnePiece := by
  have hend : 4 * bufdRows = bufdMax := by decide
  have hkept : ∀ {word}, 4 * stop ≤ word → buf.clear (4 * stop) word = buf word := fun hword ↦
    if_neg (Nat.not_lt.mpr hword)
  constructor
  · intro hfree
    refine ⟨(hkept (by omega)).symm.trans (hfree bufdMax le_rfl), ?_⟩
    intro start hole later hhole hlater hrow hstart hgap
    -- the hole is behind the rows that the run clears
    have hle : first ≤ start := by
      by_contra hbelow
      exact hstart (hbefore _ (by omega))
    have hbehind : stop ≤ hole := by
      by_contra hwithin
      exact hrows hole (by omega) (by omega) hgap
    exact (hkept (by omega)).symm.trans (hfree (4 * later) (by omega))
  · rintro ⟨hlast, hpiece⟩ word hword
    by_cases hcleared : word < 4 * stop
    · exact if_pos hcleared
    · rw [hkept (Nat.not_lt.mp hcleared)]
      rcases Nat.lt_or_eq_of_le hword with hbelow | rfl
      · -- the row of the word is the hole, or behind it
        refine hbuf word hbelow ?_
        have hgap : buf (4 * stop) = -1 := hstop.resolve_left (by omega)
        rcases Nat.lt_or_eq_of_le (show stop ≤ word / 4 by omega) with hbehind | hat
        · exact hpiece first stop (word / 4) hlt hbehind (by omega) (hrows first le_rfl hlt) hgap
        · rwa [← hat]
      · exact hlast

/-- A second run does nothing if and only if the buffer is cleared, or its used rows are in one
piece and the word at `BUFD_MAX` is -1. Assumes: rows that are used or cleared. -/
theorem Buffer.Slotted.drainsOnce_iff_inOnePiece {buf : Buffer} (hbuf : buf.Slotted) :
    DrainsOnce buf ↔ buf.Cleared ∨ buf.InOnePiece := by
  rw [drainsOnce_iff_free]
  by_cases hcleared : buf.Cleared
  · exact iff_of_true hcleared.monitor_eq (Or.inl hcleared)
  · obtain ⟨first, stop, hlt, hle, hbefore, hrows, hstop, hmonitor⟩ := hbuf.exists_monitor hcleared
    rw [hmonitor, or_iff_right hcleared]
    exact hbuf.free_iff hlt hle hbefore hrows hstop

/-- In every state reached by pushes of pids other than -1 and runs of the monitor, a second run of
the monitor prints nothing and leaves the buffer if and only if the words below `BUFD_MAX` are -1
before the first, or the word at `BUFD_MAX` is -1 and the used rows have no hole between them. -/
theorem drainsOnce_iff {p : Profiler} (hreach : Reachable nextProfiler taskListInit p) :
    DrainsOnce p.vmemBuf ↔ p.vmemBuf.Cleared ∨ p.vmemBuf.InOnePiece :=
  (slotted_of_reachable hreach).drainsOnce_iff_inOnePiece

/-- A run of the monitor on the buffer of `TaskList_init` clears the words below `BUFD_MAX`. -/
theorem cleared_monitor_taskListInit : (monitor taskListInit.vmemBuf).2.Cleared := by
  intro word hword
  have hrows : ∀ slot < bufdRows, taskListInit.vmemBuf (4 * slot) ≠ -1 := by
    intro slot _
    show (0 : Int64) ≠ -1
    decide
  rw [monitor_of_full hrows]
  exact if_pos hword

/-- After a run of the monitor on the buffer of `TaskList_init`, two more are as good as one. -/
theorem drainsOnce_after_monitor :
    ∃ p, nextProfiler taskListInit .monitor = some p ∧ DrainsOnce p.vmemBuf := by
  obtain ⟨p, hnext, hbuf⟩ := exists_nextProfiler_monitor taskListInit
  have hcleared : p.vmemBuf.Cleared := by
    rw [hbuf]
    exact cleared_monitor_taskListInit
  exact ⟨p, hnext, (drainsOnce_iff (.step .refl trivial hnext)).mpr (.inl hcleared)⟩

/-- On the buffer of `TaskList_init`, which holds zeros, the second run prints the word at
`BUFD_MAX`. -/
theorem drainsOnce_not_always :
    ¬ ∀ p, Reachable nextProfiler taskListInit p → DrainsOnce p.vmemBuf := by
  intro halways
  have hslotted := slotted_of_reachable (.refl)
  rcases hslotted.drainsOnce_iff_inOnePiece.mp (halways taskListInit .refl) with hcleared | hpiece
  · have hword : (0 : Int64) = -1 := hcleared 0 (by decide)
    exact absurd hword (by decide)
  · have hword : (0 : Int64) = -1 := hpiece.1
    exact absurd hword (by decide)

end KernelModules.FaultProfiler
