import Mathlib.Data.List.Basic
import Mathlib.Logic.Function.Basic

/-!
# The profiler buffer

The buffer of `MP3/profiler.c` as `TaskList_init` leaves it, and `vmem_buf_push_next`. The buffer is
`VMEM_SIZE` words of type `long`, read in rows of four; a push fills the row at `vmem_idx`, which
then moves on and returns to 0 at the end. The last argument of a push, `last_jiffies`, is not used
by the code and left out.
-/

set_option autoImplicit false
set_option relaxedAutoImplicit false

namespace KernelModules.FaultProfiler

/-! ### Rows and samples -/

/-- `VMEM_SIZE`, in words. -/
def vmemSize : ℕ := 128 * 4 * 1024

/-- Four words of the buffer, at the offsets `PID`, `MINOR`, `MAJOR` and `UTIL`. -/
structure Row where
  pid : Int64
  minor : Int64
  major : Int64
  util : Int64
  deriving DecidableEq

/-- The arguments of a push. -/
structure Sample where
  pid : Int32
  minFlt : UInt64
  majFlt : UInt64
  util : UInt64
  deriving DecidableEq

/-- The words a push stores: the casts to `long`, and `(long) util * 100 / 20`, where the product
wraps and the division truncates towards zero. -/
def Sample.row (sample : Sample) : Row where
  pid := sample.pid.toInt64
  minor := sample.minFlt.toInt64
  major := sample.majFlt.toInt64
  util := sample.util.toInt64 * 100 / 20

/-- The words of a buffer by their index. -/
abbrev Buffer := ℕ → Int64

/-- The row at a slot of the buffer. -/
def Buffer.rowAt (buf : Buffer) (slot : ℕ) : Row :=
  ⟨buf (4 * slot), buf (4 * slot + 1), buf (4 * slot + 2), buf (4 * slot + 3)⟩

/-- The row of a zeroed slot. -/
def zeroRow : Row := ⟨0, 0, 0, 0⟩

/-! ### The producer -/

/-- `vmem_buf` and `vmem_idx`. -/
structure Profiler where
  vmemBuf : Buffer
  vmemIdx : ℕ

/-- The buffer that `TaskList_init` allocates and fills with zeros. -/
def taskListInit : Profiler where
  vmemBuf := fun _ ↦ 0
  vmemIdx := 0

/-- `vmem_buf_push_next`. -/
def vmemBufPushNext (p : Profiler) (sample : Sample) : Profiler :=
  let buf := Function.update p.vmemBuf (4 * p.vmemIdx) sample.row.pid
  let buf := Function.update buf (4 * p.vmemIdx + 1) sample.row.minor
  let buf := Function.update buf (4 * p.vmemIdx + 2) sample.row.major
  let buf := Function.update buf (4 * p.vmemIdx + 3) sample.row.util
  let idx := p.vmemIdx + 1
  ⟨buf, if vmemSize ≤ 4 * idx then 0 else idx⟩

/-- A push fills the row at `vmem_idx`. -/
theorem rowAt_vmemBufPushNext_self (p : Profiler) (sample : Sample) :
    (vmemBufPushNext p sample).vmemBuf.rowAt p.vmemIdx = sample.row := by
  simp [vmemBufPushNext, Buffer.rowAt]

/-- A push changes no word outside its row. -/
theorem vmemBuf_vmemBufPushNext_of_ne (p : Profiler) (sample : Sample) {word : ℕ}
    (hword : word / 4 ≠ p.vmemIdx) : (vmemBufPushNext p sample).vmemBuf word = p.vmemBuf word := by
  have hne : ∀ k < 4, word ≠ 4 * p.vmemIdx + k := by
    intro k hk heq
    omega
  have hzero := hne 0 (by omega)
  have hone := hne 1 (by omega)
  have htwo := hne 2 (by omega)
  have hthree := hne 3 (by omega)
  simp only [vmemBufPushNext, Function.update_apply, if_neg hthree, if_neg htwo, if_neg hone]
  exact if_neg hzero

/-- A push changes no other row. -/
theorem rowAt_vmemBufPushNext_of_ne (p : Profiler) (sample : Sample) {slot : ℕ}
    (hslot : slot ≠ p.vmemIdx) :
    (vmemBufPushNext p sample).vmemBuf.rowAt slot = p.vmemBuf.rowAt slot := by
  have hword : ∀ k < 4, (vmemBufPushNext p sample).vmemBuf (4 * slot + k) =
      p.vmemBuf (4 * slot + k) := by
    intro k hk
    refine vmemBuf_vmemBufPushNext_of_ne p sample ?_
    omega
  rw [Buffer.rowAt, Buffer.rowAt, hword 1 (by omega), hword 2 (by omega), hword 3 (by omega)]
  rw [show 4 * slot = 4 * slot + 0 from rfl, hword 0 (by omega)]

/-- A push away from the end of the buffer moves `vmem_idx` to the next row. -/
theorem vmemIdx_vmemBufPushNext (p : Profiler) (sample : Sample)
    (hidx : 4 * (p.vmemIdx + 1) < vmemSize) :
    (vmemBufPushNext p sample).vmemIdx = p.vmemIdx + 1 :=
  if_neg (Nat.not_le.mpr hidx)

/-- The word of a pid other than -1 is not -1. -/
theorem toInt64_ne_neg_one {pid : Int32} (hpid : pid ≠ -1) : pid.toInt64 ≠ -1 := by
  intro heq
  refine hpid (Int32.toInt_inj.mp ?_)
  rw [← Int32.toInt_toInt64, heq]
  rfl

end KernelModules.FaultProfiler
