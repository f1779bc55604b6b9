import KernelModules.FaultProfiler.ProfilerBuffer
import Mathlib.Data.Finset.Card

/-!
# The read loop of the monitor

The main function of `MP3/monitor.c` over the mapped buffer. It looks for the first word other than
-1 below `BUFD_MAX`, and from there prints rows of four words and sets them to -1, until the next
row starts with -1. The index wraps to 0 at `BUFD_MAX`, so that it is `BUFD_MAX` itself only at the
start, when the search finds nothing.

The loop ends since every row clears a word that was not -1 (`Cursor.used_takeRow_lt`). What it does
is worked out for the buffers that a producer leaves: below `BUFD_MAX` either every row starts with
a word other than -1 (`monitor_of_full`), or all words are -1 (`monitor_of_cleared`,
`monitor_of_empty`).
-/

set_option autoImplicit false
set_option relaxedAutoImplicit false

namespace KernelModules.FaultProfiler

/-! ### The loops -/

/-- `BUFD_MAX`, in words. -/
def bufdMax : ℕ := 48000

/-- The buffer with the index of the read loop. -/
structure Cursor where
  buf : Buffer
  index : ℕ
  index_le : index ≤ bufdMax

/-- The search loop, with the number of words that are left to look at. -/
def search (buf : Buffer) : (left : ℕ) → left ≤ bufdMax → Cursor
  | 0, _ => ⟨buf, bufdMax, le_rfl⟩
  | left + 1, hleft =>
    if buf (bufdMax - (left + 1)) ≠ -1 then ⟨buf, bufdMax - (left + 1), Nat.sub_le _ _⟩
    else search buf left (Nat.le_of_succ_le hleft)

namespace Cursor

/-- Prints a word: the word at the index, which is set to -1 while the index moves on. -/
def takeWord (c : Cursor) : Int64 × Cursor :=
  (c.buf c.index,
    { buf := Function.update c.buf c.index (-1)
      index := if bufdMax ≤ c.index + 1 then 0 else c.index + 1
      index_le := by split_ifs <;> omega })

/-- Prints a row, the body of the read loop. -/
def takeRow (c : Cursor) : Row × Cursor :=
  let pid := c.takeWord
  let minor := pid.2.takeWord
  let major := minor.2.takeWord
  let util := major.2.takeWord
  (⟨pid.1, minor.1, major.1, util.1⟩, util.2)

/-- The words up to `BUFD_MAX` that are not -1. -/
def used (buf : Buffer) : Finset ℕ := (Finset.range (bufdMax + 1)).filter fun word ↦ buf word ≠ -1

/-- A word that is -1 stays so when a word is printed. -/
theorem free_takeWord {c : Cursor} {word : ℕ} (hfree : c.buf word = -1) :
    c.takeWord.2.buf word = -1 := by
  by_cases heq : word = c.index
  · rw [heq]
    exact Function.update_self ..
  · exact (Function.update_of_ne heq ..).trans hfree

/-- A word that is -1 stays so when a row is printed. -/
theorem free_takeRow {c : Cursor} {word : ℕ} (hfree : c.buf word = -1) :
    c.takeRow.2.buf word = -1 :=
  free_takeWord (free_takeWord (free_takeWord (free_takeWord hfree)))

/-- The word at the index is cleared with its row. -/
theorem takeRow_self (c : Cursor) : c.takeRow.2.buf c.index = -1 := by
  have hcleared : c.takeWord.2.buf c.index = -1 := Function.update_self ..
  exact free_takeWord (free_takeWord (free_takeWord hcleared))

/-- Clearing a row uses no new words. -/
theorem used_takeRow_subset (c : Cursor) : used c.takeRow.2.buf ⊆ used c.buf := by
  intro word hword
  obtain ⟨hrange, hused⟩ := Finset.mem_filter.mp hword
  exact Finset.mem_filter.mpr ⟨hrange, fun hfree ↦ hused (free_takeRow hfree)⟩

/-- A row that starts with a used word uses fewer words when it is printed. -/
theorem used_takeRow_lt (c : Cursor) (hused : c.buf c.index ≠ -1) :
    (used c.takeRow.2.buf).card < (used c.buf).card := by
  have hmem : c.index ∈ used c.buf :=
    Finset.mem_filter.mpr ⟨Finset.mem_range.mpr (Nat.lt_succ_of_le c.index_le), hused⟩
  have hgone : c.index ∉ used c.takeRow.2.buf := fun hstay ↦
    (Finset.mem_filter.mp hstay).2 c.takeRow_self
  exact Finset.card_lt_card ⟨c.used_takeRow_subset, fun hsuperset ↦ hgone (hsuperset hmem)⟩

/-- The read loop: the rows it prints, and the buffer it leaves. -/
def drain (c : Cursor) : List Row × Buffer :=
  if hused : c.buf c.index = -1 then ([], c.buf)
  else
    have := used_takeRow_lt c hused
    let rest := c.takeRow.2.drain
    (c.takeRow.1 :: rest.1, rest.2)
termination_by (used c.buf).card

/-- The read loop stops at a row that starts with -1. -/
theorem drain_of_free {c : Cursor} (hfree : c.buf c.index = -1) : c.drain = ([], c.buf) := by
  unfold drain
  exact dif_pos hfree

/-- The read loop prints a row that starts with a used word, and goes on. -/
theorem drain_of_used {c : Cursor} (hused : c.buf c.index ≠ -1) :
    c.drain = (c.takeRow.1 :: c.takeRow.2.drain.1, c.takeRow.2.drain.2) := by
  conv_lhs => unfold drain
  exact dif_neg hused

end Cursor

/-- A run of the monitor: the rows it prints, and the buffer it leaves. -/
def monitor (buf : Buffer) : List Row × Buffer := (search buf bufdMax le_rfl).drain

/-! ### The search -/

/-- The search stops at the first used word. Assumes: words before it that are all -1. -/
theorem search_eq (buf : Buffer) {index : ℕ} (hindex : index ≤ bufdMax)
    (hbefore : ∀ word < index, buf word = -1) (hstop : index = bufdMax ∨ buf index ≠ -1) :
    search buf bufdMax le_rfl = ⟨buf, index, hindex⟩ := by
  suffices hgeneral : ∀ left (hleft : left ≤ bufdMax), bufdMax - left ≤ index →
      search buf left hleft = ⟨buf, index, hindex⟩ from
    hgeneral bufdMax le_rfl (by omega)
  intro left
  induction left with
  | zero =>
    intro hleft hpast
    have hlast : index = bufdMax := by omega
    subst hlast
    rfl
  | succ left ih =>
    intro hleft hpast
    by_cases hhere : bufdMax - (left + 1) = index
    · have hused : buf (bufdMax - (left + 1)) ≠ -1 := by
        rw [hhere]
        exact hstop.resolve_left (by omega)
      rw [search, if_pos hused]
      congr 1
    · rw [search, if_neg (not_not.mpr (hbefore _ (by omega)))]
      exact ih (by omega) (by omega)

/-! ### A full buffer -/

/-- The buffer with the words below a bound set to -1. -/
def Buffer.clear (buf : Buffer) (bound : ℕ) : Buffer := fun word ↦
  if word < bound then -1 else buf word

/-- Words that are -1 already are cleared. -/
theorem Buffer.clear_of_free {buf : Buffer} {bound : ℕ} (hfree : ∀ word < bound, buf word = -1) :
    buf.clear bound = buf := by
  funext word
  rw [Buffer.clear]
  split_ifs with hword
  · exact (hfree word hword).symm
  · rfl

/-- The number of rows below `BUFD_MAX`. -/
def bufdRows : ℕ := bufdMax / 4

/-- The index after a word: 0 from `BUFD_MAX` on. -/
def wrap (index : ℕ) : ℕ := if bufdMax ≤ index then 0 else index

namespace Cursor

/-- Printing the next word of a buffer that is cleared up to it. -/
theorem takeWord_clear {buf : Buffer} {c : Cursor} {index : ℕ} (hbuf : c.buf = buf.clear index)
    (hindex : c.index = index) :
    c.takeWord.1 = buf index ∧ c.takeWord.2.buf = buf.clear (index + 1) ∧
      c.takeWord.2.index = wrap (index + 1) := by
  subst hindex
  refine ⟨?_, ?_, rfl⟩
  · change c.buf c.index = buf c.index
    rw [hbuf]
    exact if_neg (lt_irrefl _)
  · change Function.update c.buf c.index (-1) = buf.clear (c.index + 1)
    funext word
    by_cases heq : word = c.index
    · rw [heq, Function.update_self]
      exact (if_pos (Nat.lt_succ_self _)).symm
    · rw [Function.update_of_ne heq, hbuf, Buffer.clear, Buffer.clear]
      refine if_congr ?_ rfl rfl
      omega

/-- Printing the next row of a buffer that is cleared up to it. -/
theorem takeRow_clear {buf : Buffer} {c : Cursor} {slot : ℕ} (hslot : 4 * slot < bufdMax)
    (hbuf : c.buf = buf.clear (4 * slot)) (hindex : c.index = 4 * slot) :
    c.takeRow.1 = buf.rowAt slot ∧ c.takeRow.2.buf = buf.clear (4 * (slot + 1)) ∧
      c.takeRow.2.index = wrap (4 * (slot + 1)) := by
  -- no index within a row wraps
  have hwrap : ∀ k < 4, wrap (4 * slot + k) = 4 * slot + k := by
    intro k hk
    refine if_neg ?_
    simp only [bufdMax] at hslot ⊢
    omega
  obtain ⟨hpid, hbuf, hindex⟩ := takeWord_clear hbuf hindex
  obtain ⟨hminor, hbuf, hindex⟩ := takeWord_clear hbuf (hindex.trans (hwrap 1 (by omega)))
  obtain ⟨hmajor, hbuf, hindex⟩ := takeWord_clear hbuf (hindex.trans (hwrap 2 (by omega)))
  obtain ⟨hutil, hbuf, hindex⟩ := takeWord_clear hbuf (hindex.trans (hwrap 3 (by omega)))
  refine ⟨?_, hbuf, hindex⟩
  rw [takeRow, Buffer.rowAt, hpid, hminor, hmajor, hutil]

/-- The loop over a buffer that is cleared up to a row prints and clears the rows from there on, up
to the end or to a row that starts with -1. -/
theorem exists_drain_clear {buf : Buffer} (left : ℕ) {c : Cursor} {slot : ℕ}
    (hslot : slot + left = bufdRows) (hbuf : c.buf = buf.clear (4 * slot))
    (hindex : c.index = wrap (4 * slot)) :
    ∃ count ≤ left, (∀ row, slot ≤ row → row < slot + count → buf (4 * row) ≠ -1) ∧
      (count = left ∨ buf (4 * (slot + count)) = -1) ∧
        c.drain = ((List.range' slot count).map buf.rowAt, buf.clear (4 * (slot + count))) := by
  induction left generalizing c slot with
  | zero =>
    have hend : 4 * slot = bufdMax := by
      simp only [bufdRows, bufdMax] at hslot ⊢
      omega
    have hfree : c.buf c.index = -1 := by
      rw [hbuf, hindex, hend]
      rfl
    refine ⟨0, le_rfl, fun row hle hlt ↦ absurd hlt (by omega), Or.inl rfl, ?_⟩
    rw [drain_of_free hfree, hbuf, List.range'_zero, List.map_nil, Nat.add_zero]
  | succ left ih =>
    have hlt : 4 * slot < bufdMax := by
      simp only [bufdRows, bufdMax] at hslot ⊢
      omega
    have hindex' : c.index = 4 * slot := hindex.trans (if_neg (Nat.not_le.mpr hlt))
    have hword : c.buf c.index = buf (4 * slot) := by
      rw [hbuf, hindex', Buffer.clear, if_neg (lt_irrefl _)]
    by_cases hfree : buf (4 * slot) = -1
    · refine ⟨0, Nat.zero_le _, fun row hle hlt ↦ absurd hlt (by omega), Or.inr hfree, ?_⟩
      rw [drain_of_free (hword.trans hfree), hbuf, List.range'_zero, List.map_nil, Nat.add_zero]
    · obtain ⟨hrow, hlaterBuf, hlaterIndex⟩ := takeRow_clear hlt hbuf hindex'
      have hend : slot + 1 + left = bufdRows := by omega
      obtain ⟨count, hcount, hused, hstop, hrest⟩ := ih hend hlaterBuf hlaterIndex
      have hnext : slot + 1 + count = slot + (count + 1) := by omega
      rw [hnext] at hused hstop hrest
      refine ⟨count + 1, Nat.succ_le_succ hcount, fun row hle hrow ↦ ?_,
        hstop.imp (congrArg (· + 1)) id, ?_⟩
      · rcases Nat.eq_or_lt_of_le hle with rfl | hlater
        · exact hfree
        · exact hused row hlater hrow
      · rw [drain_of_used (hword ▸ hfree), hrow, hrest, List.range'_succ, List.map_cons]

end Cursor

/-- Over a buffer that is -1 before a row that starts with a used word, the monitor prints and
clears the rows from there on, up to `BUFD_MAX` or to a row that starts with -1. -/
theorem exists_monitor_eq {buf : Buffer} {slot : ℕ} (hslot : slot < bufdRows)
    (hbefore : ∀ word < 4 * slot, buf word = -1) (hused : buf (4 * slot) ≠ -1) :
    ∃ stop, slot < stop ∧ stop ≤ bufdRows ∧
      (∀ row, slot ≤ row → row < stop → buf (4 * row) ≠ -1) ∧
        (stop = bufdRows ∨ buf (4 * stop) = -1) ∧
          monitor buf = ((List.range' slot (stop - slot)).map buf.rowAt, buf.clear (4 * stop)) := by
  have hlt : 4 * slot < bufdMax := by
    simp only [bufdRows, bufdMax] at hslot ⊢
    omega
  have hclear := Buffer.clear_of_free hbefore
  have hsearch := search_eq buf hlt.le hbefore (.inr hused)
  have hwrap : 4 * slot = wrap (4 * slot) := (if_neg (Nat.not_le.mpr hlt)).symm
  obtain ⟨count, hcount, hrows, hstop, hdrain⟩ :=
    Cursor.exists_drain_clear (bufdRows - slot) (c := ⟨buf, 4 * slot, hlt.le⟩) (by omega)
      hclear.symm hwrap
  have hpos : 0 < count := by
    refine Nat.pos_of_ne_zero fun hzero ↦ ?_
    rw [hzero, Nat.add_zero] at hstop
    exact hstop.elim (fun hend ↦ absurd hend (by omega)) hused
  have hcancel : slot + count - slot = count := Nat.add_sub_cancel_left slot count
  refine ⟨slot + count, by omega, by omega, hrows, hstop.imp (fun hend ↦ by omega) id, ?_⟩
  rw [hcancel, monitor, hsearch, hdrain]

/-- Over a buffer whose rows below `BUFD_MAX` all start with a used word, the monitor prints these
rows and clears them. -/
theorem monitor_of_full {buf : Buffer} (hrows : ∀ slot < bufdRows, buf (4 * slot) ≠ -1) :
    monitor buf = ((List.range bufdRows).map buf.rowAt, buf.clear bufdMax) := by
  obtain ⟨stop, -, hle, -, hstop, hmonitor⟩ := exists_monitor_eq (by decide : 0 < bufdRows)
    (fun word hword ↦ absurd hword word.not_lt_zero) (hrows 0 (by decide))
  have hend : stop = bufdRows := by
    by_contra hne
    exact hrows stop (Nat.lt_of_le_of_ne hle hne) (hstop.resolve_left hne)
  have hwords : 4 * bufdRows = bufdMax := by decide
  rw [hmonitor, hend, hwords, Nat.sub_zero, List.range_eq_range']

/-! ### A cleared buffer -/

namespace Cursor

/-- Printing a word that is -1 already changes nothing but the index. -/
theorem takeWord_of_free {buf : Buffer} {c : Cursor} {index : ℕ}
    (hfree : ∀ word < bufdMax, buf word = -1) (hlt : index + 1 < bufdMax) (hbuf : c.buf = buf)
    (hindex : c.index = index) :
    c.takeWord.1 = -1 ∧ c.takeWord.2.buf = buf ∧ c.takeWord.2.index = index + 1 := by
  subst hbuf hindex
  have hword : c.buf c.index = -1 := hfree c.index (by omega)
  refine ⟨hword, ?_, if_neg (Nat.not_le.mpr hlt)⟩
  change Function.update c.buf c.index (-1) = c.buf
  rw [← hword, Function.update_eq_self]

/-- The row that starts at `BUFD_MAX` goes on at the start of the buffer. Assumes: a buffer that is
-1 below `BUFD_MAX`. -/
theorem takeRow_wrap {buf : Buffer} {c : Cursor} (hfree : ∀ word < bufdMax, buf word = -1)
    (hbuf : c.buf = buf) (hindex : c.index = bufdMax) :
    c.takeRow.1 = ⟨buf bufdMax, -1, -1, -1⟩ ∧ c.takeRow.2.buf = buf.clear (bufdMax + 1) ∧
      c.takeRow.2.index = 3 := by
  have hclear := Buffer.clear_of_free hfree
  have hfree' : ∀ word < bufdMax, buf.clear (bufdMax + 1) word = -1 := fun word hword ↦
    if_pos (Nat.lt_succ_of_lt hword)
  obtain ⟨hpid, hbuf, hindex⟩ := takeWord_clear (hbuf.trans hclear.symm) hindex
  have hzero : c.takeWord.2.index = 0 := hindex
  obtain ⟨hminor, hbuf, hindex⟩ := takeWord_of_free hfree' (by decide) hbuf hzero
  obtain ⟨hmajor, hbuf, hindex⟩ := takeWord_of_free hfree' (by decide) hbuf hindex
  obtain ⟨hutil, hbuf, hindex⟩ := takeWord_of_free hfree' (by decide) hbuf hindex
  refine ⟨?_, hbuf, hindex⟩
  rw [takeRow, hpid, hminor, hmajor, hutil]

end Cursor

/-- Over a buffer that is -1 below `BUFD_MAX` and not at `BUFD_MAX`, the monitor prints that word
with three words -1 from the start of the buffer, and clears it. -/
theorem monitor_of_cleared {buf : Buffer} (hfree : ∀ word < bufdMax, buf word = -1)
    (hused : buf bufdMax ≠ -1) :
    monitor buf = ([⟨buf bufdMax, -1, -1, -1⟩], buf.clear (bufdMax + 1)) := by
  rw [monitor, search_eq buf le_rfl hfree (.inl rfl)]
  generalize hcursor : (⟨buf, bufdMax, le_rfl⟩ : Cursor) = c
  have hbuf : c.buf = buf := by rw [← hcursor]
  have hindex : c.index = bufdMax := by rw [← hcursor]
  obtain ⟨hrow, hbuf', hindex'⟩ := Cursor.takeRow_wrap hfree hbuf hindex
  have hstop : c.takeRow.2.buf c.takeRow.2.index = -1 := by
    rw [hbuf', hindex']
    exact if_pos (by decide)
  have hstart : c.buf c.index ≠ -1 := by rwa [hbuf, hindex]
  rw [Cursor.drain_of_used hstart, Cursor.drain_of_free hstop, hrow, hbuf']

/-- Over a buffer that is -1 up to `BUFD_MAX`, the monitor prints nothing and changes nothing. -/
theorem monitor_of_empty {buf : Buffer} (hfree : ∀ word ≤ bufdMax, buf word = -1) :
    monitor buf = ([], buf) := by
  rw [monitor, search_eq buf le_rfl (fun word hword ↦ hfree word hword.le) (.inl rfl)]
  exact Cursor.drain_of_free (hfree bufdMax le_rfl)

end KernelModules.FaultProfiler
