import KernelModules.FaultProfiler.ProfilerBuffer
import KernelModules.Foundation.Ring

/-!
# The profiler buffer as a ring

`vmem_buf_push_next` counts `vmem_idx` in rows and compares it with a bound in words. Here the
buffer is a ring of `VMEM_SIZE / 4` rows (`Represents`), whatever is pushed: a push writes the row
at `vmem_idx` and no word outside it or outside the buffer, and a row is that of its latest push
(`bufferLaw_foldl`).
-/

set_option autoImplicit false
set_option relaxedAutoImplicit false

namespace KernelModules.FaultProfiler

open Foundation

/-- The rows of the buffer. -/
def vmemRows : ℕ := vmemSize / 4

/-- The stores of a push, in the order of the code: the index of the word and the value. -/
def vmemBufStores (p : Profiler) (sample : Sample) : List (ℕ × Int64) :=
  [(4 * p.vmemIdx, sample.row.pid), (4 * p.vmemIdx + 1, sample.row.minor),
    (4 * p.vmemIdx + 2, sample.row.major), (4 * p.vmemIdx + 3, sample.row.util)]

/-- A push makes its stores and nothing else. -/
theorem vmemBuf_eq_stores (p : Profiler) (sample : Sample) :
    (vmemBufPushNext p sample).vmemBuf = (vmemBufStores p sample).foldl
      (fun buf store ↦ Function.update buf store.1 store.2) p.vmemBuf := rfl

/-! ### The ring of rows -/

/-- The buffer holds the rows of a ring, and `vmem_idx` is its next slot. -/
structure Profiler.Represents (p : Profiler) (ring : Ring Row vmemRows) : Prop where
  idx : p.vmemIdx = ring.next
  rows : ∀ slot, p.vmemBuf.rowAt slot = ring.slot slot

/-- `TaskList_init` leaves an empty ring. -/
theorem represents_taskListInit :
    taskListInit.Represents (Ring.start (by decide) zeroRow) := ⟨rfl, fun _ ↦ rfl⟩

/-- A push is a write to the ring. -/
theorem Profiler.Represents.push {p : Profiler} {ring : Ring Row vmemRows}
    (hp : p.Represents ring) (sample : Sample) :
    (vmemBufPushNext p sample).Represents (ring.write sample.row) where
  idx := by
    rw [vmemBufPushNext, Ring.next_write, ← hp.idx, Ring.after]
    refine if_congr ?_ rfl rfl
    -- the bound in words is that in rows
    rw [vmemRows, vmemSize]
    omega
  rows := by
    intro slot
    by_cases hslot : slot = p.vmemIdx
    · rw [hslot, rowAt_vmemBufPushNext_self, hp.idx, Ring.slot_write_self]
    · rw [rowAt_vmemBufPushNext_of_ne _ _ hslot, hp.rows,
        Ring.slot_write_of_ne _ _ (hp.idx ▸ hslot)]

/-- Pushes are writes to the ring. -/
theorem Profiler.Represents.pushAll {p : Profiler} {ring : Ring Row vmemRows}
    (hp : p.Represents ring) (samples : List Sample) :
    (samples.foldl vmemBufPushNext p).Represents (ring.writeAll (samples.map Sample.row)) := by
  induction samples generalizing p ring with
  | nil => exact hp
  | cons sample rest ih => exact ih (hp.push sample)

/-- A push stores within the buffer. -/
theorem Profiler.Represents.word_lt {p : Profiler} {ring : Ring Row vmemRows}
    (hp : p.Represents ring) {sample : Sample} {store : ℕ × Int64}
    (hstore : store ∈ vmemBufStores p sample) : store.1 < vmemSize := by
  have hidx : p.vmemIdx < vmemRows := hp.idx ▸ ring.next_lt
  simp only [vmemRows, vmemSize] at hidx ⊢
  simp only [vmemBufStores, List.mem_cons, List.not_mem_nil, or_false] at hstore
  rcases hstore with rfl | rfl | rfl | rfl
  all_goals
    dsimp only
    omega

/-! ### The law of the buffer -/

/-- What the buffer is after pushes from `TaskList_init` on. -/
structure BufferLaw (samples : List Sample) (p : Profiler) : Prop where
  idx : p.vmemIdx = samples.length % vmemRows
  inside : ∀ sample, ∀ store ∈ vmemBufStores p sample, store.1 < vmemSize
  stores : ∀ sample, (vmemBufPushNext p sample).vmemBuf = (vmemBufStores p sample).foldl
    (fun buf store ↦ Function.update buf store.1 store.2) p.vmemBuf
  latest : ∀ slot number, LatestPush vmemRows samples.length slot number →
    (samples[number]?).map Sample.row = some (p.vmemBuf.rowAt slot)
  untouched : ∀ slot, (∀ number < samples.length, number % vmemRows ≠ slot) →
    p.vmemBuf.rowAt slot = zeroRow
  frame : ∀ sample, ∀ slot ≠ p.vmemIdx,
    (vmemBufPushNext p sample).vmemBuf.rowAt slot = p.vmemBuf.rowAt slot

/-- After any pushes from `TaskList_init` on, `vmem_idx` is their number up to whole turns, the next
push stores within the buffer and in one row, and every row is that of its latest push, or zero if
there is none. -/
theorem bufferLaw_foldl (samples : List Sample) :
    BufferLaw samples (samples.foldl vmemBufPushNext taskListInit) := by
  have hring := represents_taskListInit.pushAll samples
  have hlength : (samples.map Sample.row).length = samples.length := List.length_map _
  constructor
  · rw [hring.idx, Ring.next_writeAll, hlength]
  · intro sample store hstore
    exact hring.word_lt hstore
  · exact vmemBuf_eq_stores _
  · intro slot number hlatest
    rw [← hlength] at hlatest
    rw [hring.rows, ← List.getElem?_map]
    exact Ring.slot_writeAll_of_latest _ _ hlatest
  · intro slot hnone
    rw [hring.rows]
    refine Ring.slot_writeAll_of_none _ _ ?_
    rwa [hlength]
  · intro sample slot hslot
    exact rowAt_vmemBufPushNext_of_ne _ _ hslot

end KernelModules.FaultProfiler
