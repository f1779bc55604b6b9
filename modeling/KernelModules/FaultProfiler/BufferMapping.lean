import KernelModules.FaultProfiler.ProfilerBuffer
import Mathlib

/-!
# Mapping the profiler buffer

`cdev_mmap_callback` of `MP3/mp3_main.c`, which maps the pages of a request one by one to the pages
of `vmem_buf`. A mapping should show the requested pages of the buffer and nothing behind it
(`ExposesOnlyBuffer`). The function looks neither at `vm_pgoff` nor at the size of the buffer:
`exposesOnlyBuffer_iff` says that it keeps the law exactly for the requests that fail, that are
empty, or that start at the first page and end within the buffer.

Addresses are machine words. What the function uses of the memory management is the structure `Mm`.
-/

set_option autoImplicit false
set_option relaxedAutoImplicit false

namespace KernelModules.FaultProfiler

/-! ### Pages -/

/-- `PAGE_SIZE`. -/
def pageSize : UInt64 := 4096

/-- `EAGAIN`. -/
def eagain : ℤ := 11

/-- `sizeof(unsigned long)`. -/
def sizeofLong : ℕ := 8

/-- The pages that `TaskList_init` allocates. -/
def bufferPages : ℕ := vmemSize * sizeofLong / pageSize.toNat

/-- The address of a page behind another. -/
def pageAt (base : UInt64) (i : ℕ) : UInt64 := base + UInt64.ofNat (4096 * i)

@[simp] theorem pageAt_zero (base : UInt64) : pageAt base 0 = base := by
  simp [pageAt]

/-- The pages behind the next page. -/
theorem pageAt_succ (base : UInt64) (i : ℕ) : pageAt base (i + 1) = pageAt (base + pageSize) i := by
  rw [pageAt, pageAt, Nat.mul_succ, Nat.add_comm, UInt64.ofNat_add, ← UInt64.add_assoc]
  rfl

/-- Pages within the words are different. -/
theorem pageAt_inj {base : UInt64} {i j : ℕ} (hi : 4096 * i < 2 ^ 64) (hj : 4096 * j < 2 ^ 64) :
    pageAt base i = pageAt base j ↔ i = j := by
  constructor
  · intro heq
    have hoffset := congrArg UInt64.toNat (UInt64.add_right_inj base |>.mp heq)
    rw [UInt64.toNat_ofNat_of_lt' hi, UInt64.toNat_ofNat_of_lt' hj] at hoffset
    omega
  · intro heq
    rw [heq]

/-! ### The memory management -/

/-- The frame number of each mapped page of a process, by the address of the page. -/
abbrev PageTable := UInt64 → Option ℕ

/-- What the callback uses of the kernel: the address of `vmem_buf`, `vmalloc_to_pfn`, and the
number that `remap_pfn_range` returns for a page and a frame. -/
structure Mm where
  vmemBuf : UInt64
  vmallocToPfn : UInt64 → ℕ
  remapPfnRange : UInt64 → ℕ → ℤ

/-- The frame of a page of the buffer. -/
def Mm.bufferPfn (mm : Mm) (i : ℕ) : ℕ := mm.vmallocToPfn (pageAt mm.vmemBuf i)

/-- `struct vm_area_struct`: a request for whole pages, from the page `vmPgoff` of the device on. -/
structure VmAreaStruct where
  vmStart : UInt64
  vmEnd : UInt64
  vmPgoff : UInt64
  start_le_end : vmStart ≤ vmEnd
  start_aligned : 4096 ∣ vmStart.toNat
  end_aligned : 4096 ∣ vmEnd.toNat

/-- The number of requested pages. -/
def VmAreaStruct.pages (vma : VmAreaStruct) : ℕ := (vma.vmEnd - vma.vmStart).toNat / 4096

/-- The size of a request is that of its pages. -/
theorem VmAreaStruct.toNat_size (vma : VmAreaStruct) :
    (vma.vmEnd - vma.vmStart).toNat = 4096 * vma.pages := by
  have hdvd : 4096 ∣ (vma.vmEnd - vma.vmStart).toNat := by
    rw [UInt64.toNat_sub_of_le _ _ vma.start_le_end]
    exact Nat.dvd_sub vma.end_aligned vma.start_aligned
  exact (Nat.mul_div_cancel' hdvd).symm

/-! ### The callback -/

/-- The size that is left after a page. -/
def sizeAfter (size : UInt64) : UInt64 := if pageSize < size then size - pageSize else 0

/-- A page makes the size smaller. -/
theorem toNat_sizeAfter (size : UInt64) : (sizeAfter size).toNat = size.toNat - 4096 := by
  unfold sizeAfter
  split_ifs with hlarge
  · exact UInt64.toNat_sub_of_le _ _ (UInt64.le_of_lt hlarge)
  · have hle : size.toNat ≤ 4096 := UInt64.le_iff_toNat_le.mp (UInt64.not_lt.mp hlarge)
    rw [Nat.sub_eq_zero_of_le hle]
    rfl

/-- The loop of `cdev_mmap_callback`: the returned number, and the page table after it. The loop
ends since the size gets smaller. -/
def mmapLoop (mm : Mm) (start pos size : UInt64) (table : PageTable) : ℤ × PageTable :=
  if 0 < size then
    if mm.remapPfnRange start (mm.vmallocToPfn pos) ≠ 0 then (-eagain, table)
    else
      mmapLoop mm (start + pageSize) (pos + pageSize) (sizeAfter size)
        (Function.update table start (some (mm.vmallocToPfn pos)))
  else (0, table)
termination_by size.toNat
decreasing_by
  rename_i hsize _
  have hpos : 0 < size.toNat := UInt64.lt_iff_toNat_lt.mp hsize
  rw [toNat_sizeAfter]
  omega

/-- `cdev_mmap_callback`. -/
def cdevMmapCallback (mm : Mm) (vma : VmAreaStruct) (table : PageTable) : ℤ × PageTable :=
  mmapLoop mm vma.vmStart mm.vmemBuf (vma.vmEnd - vma.vmStart) table

/-- `remap_pfn_range` succeeds for the first pages. -/
def Mm.Remaps (mm : Mm) (start pos : UInt64) (pages : ℕ) : Prop :=
  ∀ i < pages, mm.remapPfnRange (pageAt start i) (mm.vmallocToPfn (pageAt pos i)) = 0

/-- Of the pages of a request, the first is mapped, and then the others. -/
theorem Mm.remaps_succ_iff (mm : Mm) (start pos : UInt64) (pages : ℕ) :
    mm.Remaps start pos (pages + 1) ↔
      mm.remapPfnRange start (mm.vmallocToPfn pos) = 0 ∧
        mm.Remaps (start + pageSize) (pos + pageSize) pages := by
  unfold Remaps
  rw [Nat.forall_lt_succ_left]
  simp only [pageAt_zero, pageAt_succ]

/-- One step of the loop, with at least a page to go. -/
theorem mmapLoop_succ {mm : Mm} {size : UInt64} {pages : ℕ}
    (hsize : size.toNat = 4096 * (pages + 1)) (start pos : UInt64) (table : PageTable) :
    mmapLoop mm start pos size table =
      if mm.remapPfnRange start (mm.vmallocToPfn pos) ≠ 0 then (-eagain, table)
      else mmapLoop mm (start + pageSize) (pos + pageSize) (sizeAfter size)
        (Function.update table start (some (mm.vmallocToPfn pos))) := by
  have hpos : 0 < size := UInt64.lt_iff_toNat_lt.mpr (by rw [hsize]; exact Nat.succ_pos _)
  rw [mmapLoop, if_pos hpos]

/-- A loop over no page returns at once. -/
theorem mmapLoop_zero {mm : Mm} {size : UInt64} (hsize : size.toNat = 0) (start pos : UInt64)
    (table : PageTable) : mmapLoop mm start pos size table = (0, table) := by
  have hzero : ¬ 0 < size := by
    rw [UInt64.lt_iff_toNat_lt, hsize]
    exact Nat.lt_irrefl 0
  rw [mmapLoop, if_neg hzero]

/-- Where a page cannot be mapped, the loop fails. -/
theorem mmapLoop_of_not_remaps {mm : Mm} {start pos size : UInt64} {pages : ℕ} {table : PageTable}
    (hsize : size.toNat = 4096 * pages) (hfails : ¬ mm.Remaps start pos pages) :
    (mmapLoop mm start pos size table).1 = -eagain := by
  induction pages generalizing start pos size table with
  | zero => exact absurd (fun i hi ↦ absurd hi (Nat.not_lt_zero i)) hfails
  | succ pages ih =>
    rw [mmapLoop_succ hsize]
    split_ifs with hfirst
    · rfl
    · rw [Mm.remaps_succ_iff, and_iff_right (not_not.mp hfirst)] at hfails
      refine ih ?_ hfails
      rw [toNat_sizeAfter, hsize, Nat.mul_succ, Nat.add_sub_cancel]

/-- Where all pages can be mapped, the loop returns 0, maps each page of the request to the page of
the buffer as far behind `pos`, and changes no other. -/
theorem mmapLoop_of_remaps {mm : Mm} {start pos size : UInt64} {pages : ℕ}
    (hsize : size.toNat = 4096 * pages) (hremaps : mm.Remaps start pos pages) (table : PageTable) :
    ∃ table', mmapLoop mm start pos size table = (0, table') ∧
      (∀ i < pages, table' (pageAt start i) = some (mm.vmallocToPfn (pageAt pos i))) ∧
      ∀ addr, (∀ i < pages, addr ≠ pageAt start i) → table' addr = table addr := by
  induction pages generalizing start pos size table with
  | zero =>
    exact ⟨table, mmapLoop_zero hsize start pos table, fun i hi ↦ absurd hi (Nat.not_lt_zero i),
      fun _ _ ↦ rfl⟩
  | succ pages ih =>
    obtain ⟨hfirst, hrest⟩ := (mm.remaps_succ_iff start pos pages).mp hremaps
    have hafter : (sizeAfter size).toNat = 4096 * pages := by
      rw [toNat_sizeAfter, hsize, Nat.mul_succ, Nat.add_sub_cancel]
    obtain ⟨table', hloop, hmapped, hothers⟩ :=
      ih hafter hrest (Function.update table start (some (mm.vmallocToPfn pos)))
    refine ⟨table', ?_, ?_, ?_⟩
    · rw [mmapLoop_succ hsize, if_neg (not_not.mpr hfirst), hloop]
    · rw [Nat.forall_lt_succ_left]
      constructor
      · -- The later pages are at other addresses.
        have hlater : ∀ i < pages, start ≠ pageAt (start + pageSize) i := by
          intro i hi heq
          have hword := size.toNat_lt
          have hzero : pageAt start 0 = pageAt start (i + 1) := by
            rw [pageAt_zero, pageAt_succ]
            exact heq
          rw [pageAt_inj (by omega) (by omega)] at hzero
          exact absurd hzero (Nat.succ_ne_zero i).symm
        rw [pageAt_zero, pageAt_zero, hothers start hlater, Function.update_self]
      · intro i hi
        rw [pageAt_succ, pageAt_succ]
        exact hmapped i hi
    · intro addr haddr
      rw [Nat.forall_lt_succ_left, pageAt_zero] at haddr
      rw [hothers addr fun i hi ↦ pageAt_succ start i ▸ haddr.2 i hi,
        Function.update_of_ne haddr.1]

/-! ### What a mapping shows -/

/-- The law of a request. Where the callback returns 0, the pages of the request are mapped to the
pages of the buffer from `vm_pgoff` on; a request that reaches past the buffer is refused. -/
structure ExposesOnlyBuffer (mm : Mm) (vma : VmAreaStruct) (table : PageTable) : Prop where
  mapped : (cdevMmapCallback mm vma table).1 = 0 → ∀ i < vma.pages,
    vma.vmPgoff.toNat + i < bufferPages ∧
      (cdevMmapCallback mm vma table).2 (pageAt vma.vmStart i) =
        some (mm.bufferPfn (vma.vmPgoff.toNat + i))
  refused : (∃ i < vma.pages, bufferPages ≤ vma.vmPgoff.toNat + i) →
    (cdevMmapCallback mm vma table).1 ≠ 0

/-- Assumes: the pages of the buffer have different frames. The callback keeps the law if and only
if a page of the request cannot be mapped, there is none, or the request is for the first pages of
the buffer and for no more than it has. -/
theorem exposesOnlyBuffer_iff {mm : Mm} (hdistinct : Set.InjOn mm.bufferPfn (Set.Iio bufferPages))
    (vma : VmAreaStruct) (table : PageTable) :
    ExposesOnlyBuffer mm vma table ↔
      ¬ mm.Remaps vma.vmStart mm.vmemBuf vma.pages ∨ vma.pages = 0 ∨
        (vma.vmPgoff = 0 ∧ vma.pages ≤ bufferPages) := by
  by_cases hremaps : mm.Remaps vma.vmStart mm.vmemBuf vma.pages
  · obtain ⟨table', hloop, hmapped, -⟩ := mmapLoop_of_remaps vma.toNat_size hremaps table
    have hcall : cdevMmapCallback mm vma table = (0, table') := hloop
    rw [or_iff_right (not_not.mpr hremaps)]
    constructor
    · intro hlaw
      have hpages := hlaw.mapped (by rw [hcall])
      rw [hcall] at hpages
      cases hcount : vma.pages with
      | zero => exact Or.inl rfl
      | succ last =>
        rw [hcount] at hpages hmapped
        obtain ⟨hinside, hfirst⟩ := hpages 0 (Nat.succ_pos last)
        have hpfn : mm.bufferPfn (vma.vmPgoff.toNat + 0) = mm.bufferPfn 0 :=
          Option.some.inj (hfirst.symm.trans (hmapped 0 (Nat.succ_pos last)))
        have hzero : vma.vmPgoff.toNat = 0 :=
          hdistinct hinside (Nat.lt_of_le_of_lt (Nat.zero_le _) hinside) hpfn
        have hlast := (hpages last (Nat.lt_succ_self last)).1
        rw [hzero, Nat.zero_add] at hlast
        exact Or.inr ⟨UInt64.toNat_inj.mp hzero, hlast⟩
    · rintro (hnone | ⟨hpgoff, hpages⟩)
      · have hno : ∀ i, ¬ i < vma.pages := fun i ↦ by
          rw [hnone]
          exact Nat.not_lt_zero i
        exact ⟨fun _ i hi ↦ absurd hi (hno i), fun ⟨i, hi, _⟩ ↦ absurd hi (hno i)⟩
      · have hzero : ∀ i, vma.vmPgoff.toNat + i = i := fun i ↦ by
          rw [hpgoff]
          exact Nat.zero_add i
        constructor
        · intro _ i hi
          rw [hzero, hcall]
          exact ⟨hi.trans_le hpages, hmapped i hi⟩
        · rintro ⟨i, hi, hpast⟩
          rw [hzero] at hpast
          exact absurd (hi.trans_le hpages) (Nat.not_lt.mpr hpast)
  · have hcall : (cdevMmapCallback mm vma table).1 = -eagain :=
      mmapLoop_of_not_remaps vma.toNat_size hremaps
    have hne : (cdevMmapCallback mm vma table).1 ≠ 0 := by
      rw [hcall]
      decide
    exact iff_of_true ⟨fun hzero ↦ absurd hzero hne, fun _ ↦ hne⟩ (Or.inl hremaps)

/-- A kernel in which the frames follow the addresses, and every page can be mapped. -/
def linearMm : Mm where
  vmemBuf := 0
  vmallocToPfn := fun pos ↦ pos.toNat / 4096
  remapPfnRange := fun _ _ ↦ 0

/-- The pages of its buffer have different frames. -/
theorem linearMm_injOn : Set.InjOn linearMm.bufferPfn (Set.Iio bufferPages) := by
  have hpfn : ∀ i < bufferPages, linearMm.bufferPfn i = i := by
    intro i hi
    have hsmall : i < 1024 := hi
    have hword : 4096 * i < UInt64.size := by
      rw [UInt64.size]
      omega
    calc linearMm.bufferPfn i = (UInt64.ofNat (4096 * i)).toNat / 4096 := by
          rw [Mm.bufferPfn, pageAt]
          simp [linearMm]
      _ = i := by
          rw [UInt64.toNat_ofNat_of_lt' hword]
          omega
  intro i hi j hj heq
  rwa [hpfn i hi, hpfn j hj] at heq

/-- A request for one page of the buffer. -/
def onePage (vmPgoff : UInt64) : VmAreaStruct where
  vmStart := 4096
  vmEnd := 8192
  vmPgoff := vmPgoff
  start_le_end := by decide
  start_aligned := by decide
  end_aligned := by decide

/-- The first page of the buffer is mapped as requested. -/
theorem exposesOnlyBuffer_first : ExposesOnlyBuffer linearMm (onePage 0) fun _ ↦ none := by
  have hpages : (onePage 0).pages ≤ bufferPages := by decide
  exact (exposesOnlyBuffer_iff linearMm_injOn (onePage 0) _).mpr (Or.inr (Or.inr ⟨rfl, hpages⟩))

/-- A request for the second page of the buffer gets the first. -/
theorem not_exposesOnlyBuffer_second : ¬ ExposesOnlyBuffer linearMm (onePage 1) fun _ ↦ none := by
  intro hlaw
  obtain ⟨table', hloop, hmapped, -⟩ := mmapLoop_of_remaps (onePage 1).toNat_size
    (fun i _ ↦ (rfl : linearMm.remapPfnRange _ _ = 0)) fun _ ↦ none
  have hcall : cdevMmapCallback linearMm (onePage 1) (fun _ ↦ none) = (0, table') := hloop
  have hsecond := (hlaw.mapped (by rw [hcall]) 0 (by decide)).2
  rw [hcall] at hsecond
  have hfirst := hmapped 0 (by decide)
  exact absurd (hsecond.symm.trans hfirst) (by decide)

end KernelModules.FaultProfiler
