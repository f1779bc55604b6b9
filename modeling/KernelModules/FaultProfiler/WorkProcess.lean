import KernelModules.Foundation.CommandText
import KernelModules.Foundation.ProgramLoops

/-!
# The work process

`work.c`, the process that is profiled, as a program over its memory: the registration, the
allocation of the blocks, the accesses of its policy, the release of the blocks and the
deregistration, with every `malloc`, `free` and store. The commands it hands to `system` are part of
its result. The answers of `malloc` and `rand` are arguments.

The program is stuck where C leaves the behaviour undefined: at a store outside of a block, an index
outside of `buffer`, an overflow of `int`, a second `free`. A process that is not stuck comes to its
end with its result, and leaves the memory as it was (`ensures_work`). With up to 359110 accesses in
each iteration, or with the random policy, it is never stuck; with more, `addr` may overflow
(`endsWithResult_iff`). Out of memory, it ends without its deregistration.
-/

set_option autoImplicit false
set_option relaxedAutoImplicit false

namespace KernelModules.FaultProfiler

open Foundation

/-! ### The memory of the process -/

/-- A block that `malloc` gave, with its size. -/
structure Chunk where
  size : ℕ
  bytes : ℕ → UInt8

/-- A pointer of `buffer` that is NULL has been followed. -/
inductive WorkFault
  | nullBlock
  deriving DecidableEq

/-- A program of the process. -/
abbrev WorkProgram := Program Chunk Empty WorkFault

/-- The block after a store, none where it lies outside. -/
def Chunk.store (chunk : Chunk) (offset : ℤ) (c : UInt8) : Option Chunk :=
  if 0 ≤ offset ∧ offset < chunk.size then
    some { chunk with bytes := Function.update chunk.bytes offset.toNat c }
  else none

/-- The variables of the process: `buffer` and `addr`, and how often `rand` was called. -/
structure WorkState where
  buffer : ℕ → Option ℕ
  addr : ℤ
  calls : ℕ

/-- The variables at the start. -/
def WorkState.start : WorkState := ⟨fun _ ↦ none, 0, 0⟩

/-! ### Operations of C -/

/-- The result of an operation on `int`, which may not overflow. -/
def checkInt (value : ℤ) : WorkProgram ℤ :=
  if -2 ^ 31 ≤ value ∧ value < 2 ^ 31 then return value else .stuck

/-- The remainder, which may not be one by 0. -/
def remInt (a b : ℤ) : WorkProgram ℤ := if b = 0 then .stuck else return a.tmod b

/-- `buffer[index]`. -/
def elementAt (s : WorkState) (index : ℤ) : WorkProgram (Option ℕ) :=
  if 0 ≤ index ∧ index < 1024 then return s.buffer index.toNat else .stuck

/-- `buffer[index] = pointer`. -/
def setElement (s : WorkState) (index : ℕ) (pointer : Option ℕ) : WorkProgram WorkState :=
  if index < 1024 then return { s with buffer := Function.update s.buffer index pointer }
  else .stuck

/-- `pointer[offset] = c`. -/
def storeByte (pointer : Option ℕ) (offset : ℤ) (c : UInt8) : WorkProgram Unit :=
  .update .nullBlock pointer (fun chunk ↦ chunk.store offset c) (.done ())

/-- `free`. -/
def freeBlock (pointer : Option ℕ) : WorkProgram Unit := .free pointer (.done ())

/-- `if(target<0) target *= -1`. -/
def withoutSign (target : ℤ) : WorkProgram ℤ :=
  if target < 0 then checkInt (target * -1) else return target

/-- `rand()`, the next of the numbers it gives. -/
def draw (rand : ℕ → ℤ) (s : WorkState) : ℤ × WorkState :=
  (rand s.calls, { s with calls := s.calls + 1 })

/-! ### The functions of the process -/

/-- `rand_access`. -/
def randAccess (rand : ℕ → ℤ) (msize : ℤ) (s : WorkState) : WorkProgram WorkState := do
  let (drawn, s) := draw rand s
  let span ← checkInt ((← checkInt (msize * 1024)) * 1024)
  let target ← remInt drawn span
  let target ← withoutSign target
  let blk := (target.tdiv 1024).tdiv 1024
  let start ← checkInt ((← checkInt (blk * 1024)) * 1024)
  let offset ← checkInt (target - start)
  storeByte (← elementAt s blk) offset (byte '*')
  return s

/-- `local_access`. -/
def localAccess (rand : ℕ → ℤ) (s : WorkState) : WorkProgram WorkState := do
  let (drawn, s) := draw rand s
  if drawn < 0 then
    let addr ← checkInt (s.addr + 1)
    return { s with addr := addr }
  else
    let (drawn, s) := draw rand s
    let addr ← checkInt (s.addr + drawn.tmod 300)
    return { s with addr := addr }

/-- One access of the policy. -/
def access (rand : ℕ → ℤ) (random : Bool) (msize : ℤ) (s : WorkState) : WorkProgram WorkState :=
  if random then randAccess rand msize s
  else
    let (drawn, s) := draw rand s
    if -2 < drawn.tmod 10 ∧ drawn.tmod 10 < 2 then randAccess rand msize s
    else localAccess rand s

/-- The release of the blocks before `i`, from the last one to the first. -/
def freeBack (s : WorkState) (i : ℕ) : WorkProgram Unit :=
  (List.range i).reverse.forM fun j ↦ freeBlock (s.buffer j)

/-- The release of the first `msize` blocks. -/
def freeBlocks (s : WorkState) (msize : ℕ) : WorkProgram Unit :=
  (List.range msize).forM fun j ↦ freeBlock (s.buffer j)

/-- The allocation of `blocks` blocks from index `i` on, and whether all were given. At the first
that is not given the others are released. -/
def allocBlocks (malloc : ℕ → Option (ℕ → UInt8)) : ℕ → ℕ → WorkState →
    WorkProgram (WorkState × Bool)
  | 0, _, s => return (s, true)
  | blocks + 1, i, s => do
    let pointer ← .alloc ((malloc i).map fun bytes ↦ ⟨1024 * 1024, bytes⟩) .done
    let s ← setElement s i pointer
    if pointer.isNone then
      freeBack s i
      return (s, false)
    else allocBlocks malloc blocks (i + 1) s

/-! ### The main function -/

/-- The arguments of the process: their number, and of the arguments the numbers that `atoi` reads,
and the first character of the second one. -/
structure WorkArgs where
  argc : ℕ
  msize : ℤ
  policy : UInt8
  naccess : ℤ

/-- What the process returns, and the commands that it has handed to `system`. -/
structure WorkResult where
  ret : ℤ
  commands : List Text
  deriving DecidableEq

/-- `N_ITERATION`. -/
def nIteration : ℕ := 20

/-- The command that writes a letter and a pid to the status file. -/
def statusCommand (letter : String) (pid : UInt32) : Text :=
  bytes "echo '" ++ bytes letter ++ bytes " " ++ decimal pid.toNat ++ bytes "'>//proc/mp3/status"

/-- `main`. -/
def work (malloc : ℕ → Option (ℕ → UInt8)) (rand : ℕ → ℤ) (pid : UInt32) (args : WorkArgs) :
    WorkProgram WorkResult :=
  if args.argc < 4 then return ⟨-1, []⟩
  else if 1024 < args.msize ∨ args.msize < 1 then return ⟨-1, []⟩
  else if args.naccess < 1 then return ⟨-1, []⟩
  else do
    let (s, allocated) ← allocBlocks malloc args.msize.toNat 0 .start
    if allocated then
      let iteration := Program.loop (access rand (args.policy = byte 'R') args.msize)
        args.naccess.toNat
      let s ← Program.loop iteration nIteration s
      freeBlocks s args.msize.toNat
      return ⟨0, [statusCommand "R" pid, statusCommand "U" pid]⟩
    else return ⟨-1, [statusCommand "R" pid]⟩

/-! ### The blocks of the process -/

/-- The pointers at the indices lead to different blocks of the process, and the other blocks are
the ones before. -/
structure Holds (buffer : ℕ → Option ℕ) (base : ℕ → Option Chunk) (live : List ℕ)
    (own : Owned Chunk Empty) : Prop where
  nodup : live.Nodup
  block : ∀ i ∈ live, ∃ a chunk, buffer i = some a ∧ base a = none ∧ own.blocks a = some chunk ∧
    chunk.size = 1024 * 1024
  apart : ∀ i ∈ live, ∀ j ∈ live, buffer i = buffer j → i = j
  others : ∀ a, (∀ i ∈ live, buffer i ≠ some a) → own.blocks a = base a

namespace Holds

variable {buffer : ℕ → Option ℕ} {base : ℕ → Option Chunk} {live : List ℕ}
  {own : Owned Chunk Empty}

/-- Before the first allocation. -/
theorem nil (buffer : ℕ → Option ℕ) (own : Owned Chunk Empty) : Holds buffer own.blocks [] own :=
  ⟨List.nodup_nil, fun _ hi ↦ absurd hi List.not_mem_nil,
    fun _ hi ↦ absurd hi List.not_mem_nil, fun _ _ ↦ rfl⟩

/-- Without blocks of the process, the memory is the one before. -/
theorem blocks_eq (hholds : Holds buffer base [] own) : own.blocks = base :=
  funext fun a ↦ hholds.others a fun _ hi ↦ absurd hi List.not_mem_nil

/-- The order of the indices does not matter. -/
theorem perm (hholds : Holds buffer base live own) {other : List ℕ} (hperm : live.Perm other) :
    Holds buffer base other own where
  nodup := hperm.nodup_iff.mp hholds.nodup
  block i hi := hholds.block i (hperm.mem_iff.mpr hi)
  apart i hi j hj := hholds.apart i (hperm.mem_iff.mpr hi) j (hperm.mem_iff.mpr hj)
  others a ha := hholds.others a fun i hi ↦ ha i (hperm.mem_iff.mp hi)

/-- Only the pointers at the indices matter. -/
theorem congr (hholds : Holds buffer base live own) {other : ℕ → Option ℕ}
    (hother : ∀ i ∈ live, other i = buffer i) : Holds other base live own where
  nodup := hholds.nodup
  block i hi := hother i hi ▸ hholds.block i hi
  apart i hi j hj heq := hholds.apart i hi j hj ((hother i hi).symm.trans (heq.trans (hother j hj)))
  others a ha := hholds.others a fun i hi ↦ hother i hi ▸ ha i hi

/-- A block is allocated. -/
theorem alloc {n a : ℕ} (hholds : Holds buffer base (List.range n) own) (ha : own.blocks a = none)
    (bytes : ℕ → UInt8) : Holds (Function.update buffer n (some a)) base (List.range (n + 1))
      (own.set a (some ⟨1024 * 1024, bytes⟩)) := by
  have hold : ∀ i ∈ List.range n, Function.update buffer n (some a) i = buffer i := fun i hi ↦
    Function.update_of_ne (List.mem_range.mp hi).ne _ _
  have hnew : ∀ i ∈ List.range n, buffer i ≠ some a := by
    intro i hi heq
    obtain ⟨b, chunk, hb, -, hblock, -⟩ := hholds.block i hi
    rw [heq] at hb
    rw [← Option.some.inj hb, ha] at hblock
    cases hblock
  have hcases : ∀ i ∈ List.range (n + 1), i ∈ List.range n ∨ i = n := by
    intro i hi
    rw [List.mem_range] at hi ⊢
    omega
  constructor
  · exact List.nodup_range
  · intro i hi
    rcases hcases i hi with hi | rfl
    · obtain ⟨b, chunk, hb, hbase, hblock, hsize⟩ := hholds.block i hi
      have hne : b ≠ a := fun heq ↦ hnew i hi (heq ▸ hb)
      refine ⟨b, chunk, (hold i hi).trans hb, hbase, ?_, hsize⟩
      rw [Owned.blocks_set, Function.update_of_ne hne, hblock]
    · refine ⟨a, ⟨1024 * 1024, bytes⟩, Function.update_self .., ?_, Owned.blocks_set_self .., rfl⟩
      rw [← hholds.others a hnew, ha]
  · intro i hi j hj heq
    rcases hcases i hi with hi | rfl
    · rcases hcases j hj with hj | rfl
      · rw [hold i hi, hold j hj] at heq
        exact hholds.apart i hi j hj heq
      · rw [hold i hi, Function.update_self] at heq
        exact absurd heq (hnew i hi)
    · rcases hcases j hj with hj | rfl
      · rw [hold j hj, Function.update_self] at heq
        exact absurd heq.symm (hnew j hj)
      · rfl
  · intro b hb
    have hne : b ≠ a := by
      rintro rfl
      exact hb n (List.mem_range.mpr n.lt_succ_self) (Function.update_self ..)
    rw [Owned.blocks_set, Function.update_of_ne hne]
    refine hholds.others b fun i hi heq ↦ ?_
    refine hb i ?_ ((hold i hi).trans heq)
    rw [List.mem_range] at hi ⊢
    omega

/-- A block is freed. -/
theorem free {i : ℕ} (hholds : Holds buffer base (i :: live) own) :
    ∃ a chunk, buffer i = some a ∧ own.blocks a = some chunk ∧
      Holds buffer base live (own.set a none) := by
  obtain ⟨a, chunk, ha, hbase, hblock, -⟩ := hholds.block i List.mem_cons_self
  obtain ⟨hi, hnodup⟩ := List.nodup_cons.mp hholds.nodup
  have hne : ∀ j ∈ live, buffer j ≠ some a := by
    intro j hj heq
    have hij := hholds.apart i List.mem_cons_self j (List.mem_cons_of_mem i hj)
      (ha.trans heq.symm)
    exact hi (hij ▸ hj)
  refine ⟨a, chunk, ha, hblock, hnodup, fun j hj ↦ ?_, fun j hj k hk ↦ ?_, fun b hb ↦ ?_⟩
  · obtain ⟨b, other, hb, hfree, hother, hsize⟩ := hholds.block j (List.mem_cons_of_mem i hj)
    have hba : b ≠ a := fun heq ↦ hne j hj (heq ▸ hb)
    refine ⟨b, other, hb, hfree, ?_, hsize⟩
    rw [Owned.blocks_set, Function.update_of_ne hba, hother]
  · exact hholds.apart j (List.mem_cons_of_mem i hj) k (List.mem_cons_of_mem i hk)
  · by_cases hba : b = a
    · rw [hba, Owned.blocks_set_self, hbase]
    · rw [Owned.blocks_set, Function.update_of_ne hba]
      refine hholds.others b fun j hj heq ↦ ?_
      rcases List.mem_cons.mp hj with rfl | hj
      · exact hba (Option.some.inj (heq.symm.trans ha))
      · exact hb j hj heq

/-- The bytes of a block are changed. -/
theorem store {i : ℕ} (hholds : Holds buffer base live own) (hi : i ∈ live) :
    ∃ a chunk, buffer i = some a ∧ own.blocks a = some chunk ∧ chunk.size = 1024 * 1024 ∧
      ∀ bytes, Holds buffer base live (own.set a (some ⟨chunk.size, bytes⟩)) := by
  obtain ⟨a, chunk, ha, hbase, hblock, hsize⟩ := hholds.block i hi
  refine ⟨a, chunk, ha, hblock, hsize, fun bytes ↦ ?_⟩
  refine ⟨hholds.nodup, fun j hj ↦ ?_, hholds.apart, fun b hb ↦ ?_⟩
  · obtain ⟨b, other, hb, hfree, hother, hothers⟩ := hholds.block j hj
    by_cases hba : b = a
    · exact ⟨a, _, hba ▸ hb, hbase, Owned.blocks_set_self .., hsize⟩
    · refine ⟨b, other, hb, hfree, ?_, hothers⟩
      rw [Owned.blocks_set, Function.update_of_ne hba, hother]
  · have hba : b ≠ a := fun heq ↦ hb i hi (heq ▸ ha)
    rw [Owned.blocks_set, Function.update_of_ne hba]
    exact hholds.others b hb

end Holds

/-! ### What the functions ensure -/

/-- With what is left of `turns` accesses, each of which moves `addr` by `stride` at most, `addr`
stays an `int`. The blocks are those of the process. -/
structure Working (buffer : ℕ → Option ℕ) (base : ℕ → Option Chunk) (msize : ℕ) (stride : ℤ)
    (turns : ℕ) (s : WorkState) (own : Owned Chunk Empty) : Prop where
  buffer_eq : s.buffer = buffer
  holds : Holds buffer base (List.range msize) own
  addr_le : |s.addr| + stride * turns ≤ 2 ^ 31 - 1

section Functions

variable {view : ℕ → Option Chunk} {buffer : ℕ → Option ℕ} {base : ℕ → Option Chunk}
  {own : Owned Chunk Empty} {s : WorkState} {rand : ℕ → ℤ}

/-- An operation whose result is an `int` gives it. -/
theorem checkInt_eq {value : ℤ} (hvalue : -2 ^ 31 ≤ value ∧ value < 2 ^ 31) :
    checkInt value = .done value := if_pos hvalue

/-- The place that `rand_access` computes is in a block. -/
theorem place_of_target {msize target : ℤ} (hzero : 0 ≤ target)
    (htarget : target < msize * 1024 * 1024) :
    0 ≤ (target.tdiv 1024).tdiv 1024 ∧ (target.tdiv 1024).tdiv 1024 < msize ∧
      0 ≤ target - (target.tdiv 1024).tdiv 1024 * 1024 * 1024 ∧
        target - (target.tdiv 1024).tdiv 1024 * 1024 * 1024 < 1024 * 1024 := by
  rw [Int.tdiv_eq_ediv_of_nonneg hzero, Int.tdiv_eq_ediv_of_nonneg (by omega)]
  omega

/-- `rand_access` stores in a block of the process. -/
theorem ensures_randAccess {msize : ℤ} (hlow : 1 ≤ msize) (hhigh : msize ≤ 1024)
    (hholds : Holds s.buffer base (List.range msize.toNat) own) :
    (randAccess rand msize s).Ensures view (fun result later ↦ ∃ t, result = .ok t ∧
      t.buffer = s.buffer ∧ t.addr = s.addr ∧
        Holds s.buffer base (List.range msize.toNat) later) own := by
  have hspan : checkInt (msize * 1024 * 1024) = .done (msize * 1024 * 1024) :=
    checkInt_eq (by omega)
  have hkib : checkInt (msize * 1024) = .done (msize * 1024) := checkInt_eq (by omega)
  have hrem : remInt (rand s.calls) (msize * 1024 * 1024) =
      .done ((rand s.calls).tmod (msize * 1024 * 1024)) := if_neg (by omega)
  have hlarge : (rand s.calls).tmod (msize * 1024 * 1024) < msize * 1024 * 1024 :=
    Int.tmod_lt_of_pos _ (by omega)
  have hsmall : -(msize * 1024 * 1024) < (rand s.calls).tmod (msize * 1024 * 1024) :=
    Int.lt_tmod_of_pos _ (by omega)
  generalize (rand s.calls).tmod (msize * 1024 * 1024) = drawn at hrem hlarge hsmall
  obtain ⟨target, htarget, hzero, hlt⟩ : ∃ target : ℤ, withoutSign drawn = .done target ∧
      0 ≤ target ∧ target < msize * 1024 * 1024 := by
    unfold withoutSign
    split_ifs with hneg
    · exact ⟨drawn * -1, checkInt_eq (by omega), by omega, by omega⟩
    · exact ⟨drawn, rfl, by omega, hlarge⟩
  obtain ⟨hblk, hblklt, hoffset, hoffsetlt⟩ := place_of_target hzero hlt
  have hmember : ((target.tdiv 1024).tdiv 1024).toNat ∈ List.range msize.toNat := by
    rw [List.mem_range]
    omega
  obtain ⟨a, chunk, ha, hchunk, hsize, hstored⟩ := hholds.store hmember
  have hfirst : checkInt ((target.tdiv 1024).tdiv 1024 * 1024) =
      .done ((target.tdiv 1024).tdiv 1024 * 1024) := checkInt_eq (by omega)
  have hstart : checkInt ((target.tdiv 1024).tdiv 1024 * 1024 * 1024) =
      .done ((target.tdiv 1024).tdiv 1024 * 1024 * 1024) := checkInt_eq (by omega)
  have hdiff : checkInt (target - (target.tdiv 1024).tdiv 1024 * 1024 * 1024) =
      .done (target - (target.tdiv 1024).tdiv 1024 * 1024 * 1024) := checkInt_eq (by omega)
  have helement : elementAt { s with calls := s.calls + 1 } ((target.tdiv 1024).tdiv 1024) =
      .done (some a) := by
    rw [elementAt, if_pos ⟨hblk, by omega⟩, ha]
    rfl
  have hstore : chunk.store (target - (target.tdiv 1024).tdiv 1024 * 1024 * 1024) (byte '*') =
      some ⟨chunk.size, Function.update chunk.bytes
        (target - (target.tdiv 1024).tdiv 1024 * 1024 * 1024).toNat (byte '*')⟩ := by
    refine if_pos ⟨hoffset, ?_⟩
    rw [hsize]
    exact hoffsetlt
  have hrun : randAccess rand msize s = (storeByte (some a)
      (target - (target.tdiv 1024).tdiv 1024 * 1024 * 1024) (byte '*') >>= fun _ ↦
        (.done { s with calls := s.calls + 1 } : WorkProgram WorkState)) := by
    unfold randAccess draw
    simp only [hkib, Program.done_bind, hspan, hrem, htarget, hfirst, hstart, hdiff, helement]
    rfl
  rw [hrun]
  exact ⟨chunk, _, hchunk, hstore, _, rfl, rfl, rfl, hstored _⟩

/-- `local_access` moves `addr`. -/
theorem ensures_localAccess {msize turns : ℕ}
    (hs : Working buffer base msize 299 (turns + 1) s own) :
    (localAccess rand s).Ensures view (fun result later ↦ ∃ t, result = .ok t ∧
      Working buffer base msize 299 turns t later) own := by
  obtain ⟨hbuffer, hholds, haddr⟩ := hs
  have hbounds := abs_le.mp (le_sub_iff_add_le.mpr haddr)
  push_cast at hbounds haddr
  have hmove : ∀ moved calls, |moved| ≤ 299 → (checkInt (s.addr + moved) >>= fun addr ↦
      (.done ⟨s.buffer, addr, calls⟩ : WorkProgram WorkState)).Ensures view
        (fun result later ↦ ∃ t, result = .ok t ∧ Working buffer base msize 299 turns t later)
          own := by
    intro moved calls hmoved
    have hle := abs_le.mp hmoved
    rw [checkInt_eq (by omega)]
    refine ⟨_, rfl, hbuffer, hholds, ?_⟩
    have htriangle := abs_add_le s.addr moved
    dsimp only
    linarith
  unfold localAccess draw
  dsimp only
  split_ifs with hneg
  · exact hmove 1 _ (by norm_num)
  · refine hmove _ _ (abs_le.mpr ?_)
    have hlarge : (rand (s.calls + 1)).tmod 300 < 300 := Int.tmod_lt_of_pos _ (by norm_num)
    have hsmall : -300 < (rand (s.calls + 1)).tmod 300 := Int.lt_tmod_of_pos _ (by norm_num)
    omega

/-- How far one access moves `addr` at most. -/
def stride (random : Bool) : ℤ := if random then 0 else 299

/-- An access of either policy. -/
theorem ensures_access {msize : ℤ} {random : Bool} {turns : ℕ} (hlow : 1 ≤ msize)
    (hhigh : msize ≤ 1024)
    (hs : Working buffer base msize.toNat (stride random) (turns + 1) s own) :
    (access rand random msize s).Ensures view (fun result later ↦ ∃ t, result = .ok t ∧
      Working buffer base msize.toNat (stride random) turns t later) own := by
  have hrandom : ∀ t : WorkState, t.buffer = s.buffer → t.addr = s.addr →
      (randAccess rand msize t).Ensures view (fun result later ↦ ∃ t, result = .ok t ∧
        Working buffer base msize.toNat (stride random) turns t later) own := by
    intro t hbuffer haddr
    have hholds : Holds t.buffer base (List.range msize.toNat) own := by
      rw [hbuffer, hs.buffer_eq]
      exact hs.holds
    refine (ensures_randAccess hlow hhigh hholds).mono fun result later hresult ↦ ?_
    obtain ⟨last, hlast, hsame, hmoved, hlater⟩ := hresult
    rw [hbuffer, hs.buffer_eq] at hsame hlater
    refine ⟨last, hlast, hsame, hlater, ?_⟩
    have hstride : 0 ≤ stride random := by
      unfold stride
      split_ifs <;> norm_num
    have hbound := hs.addr_le
    push_cast at hbound
    rw [hmoved, haddr]
    linarith
  cases random with
  | true => exact hrandom s rfl rfl
  | false =>
    unfold access draw
    rw [if_neg Bool.false_ne_true]
    dsimp only
    split_ifs with hnear
    · exact hrandom _ rfl rfl
    · have hlocal : Working buffer base msize.toNat 299 (turns + 1)
          { s with calls := s.calls + 1 } own := ⟨hs.buffer_eq, hs.holds, hs.addr_le⟩
      exact ensures_localAccess hlocal

/-- The accesses of all iterations. -/
theorem ensures_iterations {msize : ℤ} {random : Bool} {naccess iterations : ℕ} (hlow : 1 ≤ msize)
    (hhigh : msize ≤ 1024)
    (hs : Working buffer base msize.toNat (stride random) (iterations * naccess) s own) :
    (Program.loop (Program.loop (access rand random msize) naccess) iterations s).Ensures view
      (fun result later ↦ ∃ t, result = .ok t ∧
        Working buffer base msize.toNat (stride random) 0 t later) own := by
  have hiteration : ∀ left (t : WorkState) (owned : Owned Chunk Empty),
      Working buffer base msize.toNat (stride random) ((left + 1) * naccess) t owned →
        (Program.loop (access rand random msize) naccess t).Ensures view (fun result later ↦
          ∃ next, result = .ok next ∧
            Working buffer base msize.toNat (stride random) (left * naccess) next later) owned := by
    intro left t owned ht
    rw [Nat.succ_mul] at ht
    exact Program.Ensures.loop
      (fun turns ↦ Working buffer base msize.toNat (stride random) (left * naccess + turns))
      (fun _ _ _ hturn ↦ ensures_access hlow hhigh hturn) ht
  have hloop := Program.Ensures.loop
    (fun left ↦ Working buffer base msize.toNat (stride random) (left * naccess)) hiteration hs
  rwa [Nat.zero_mul] at hloop

/-- The blocks at the indices are freed. -/
theorem ensures_freeAll {live : List ℕ} (hholds : Holds buffer base live own) :
    (live.forM fun j ↦ freeBlock (buffer j)).Ensures view (fun result later ↦ result = .ok () ∧
      Holds buffer base [] later) own := by
  refine Program.Ensures.forM (Holds buffer base) (fun i rest owned hi ↦ ?_) hholds
  obtain ⟨a, chunk, ha, hchunk, hrest⟩ := hi.free
  rw [ha]
  exact ⟨⟨chunk, hchunk⟩, rfl, hrest⟩

/-- What the allocation comes to: all blocks, or none after the first `malloc` that gives NULL. -/
def Allocated (malloc : ℕ → Option (ℕ → UInt8)) (base : ℕ → Option Chunk) (first blocks : ℕ)
    (result : WorkState × Bool) (later : Owned Chunk Empty) : Prop :=
  if ∀ j < blocks, (malloc (first + j)).isSome then
    result.2 = true ∧ Holds result.1.buffer base (List.range (first + blocks)) later
  else result.2 = false ∧ later.blocks = base

/-- The blocks are allocated, or no block is left. -/
theorem ensures_allocBlocks {malloc : ℕ → Option (ℕ → UInt8)} {blocks first : ℕ}
    (hbound : first + blocks ≤ 1024) (hholds : Holds s.buffer base (List.range first) own) :
    (allocBlocks malloc blocks first s).Ensures view (fun result later ↦ ∃ t, result = .ok t ∧
      t.1.addr = s.addr ∧ Allocated malloc base first blocks t later) own := by
  induction blocks generalizing first s own with
  | zero =>
    refine ⟨_, rfl, rfl, ?_⟩
    rw [Allocated, if_pos (fun j hj ↦ absurd hj j.not_lt_zero)]
    exact ⟨rfl, hholds⟩
  | succ blocks ih =>
    have hset : ∀ pointer, setElement s first pointer =
        .done { s with buffer := Function.update s.buffer first pointer } := fun pointer ↦
      if_pos (by omega)
    unfold allocBlocks
    cases hfirst : malloc first with
    | none =>
      have hfailed : ¬ ∀ j < blocks + 1, (malloc (first + j)).isSome := by
        intro hall
        have hzero := hall 0 blocks.succ_pos
        rw [Nat.add_zero, hfirst] at hzero
        cases hzero
      have hkept : Holds (Function.update s.buffer first none) base (List.range first).reverse
          own := (hholds.congr fun i hi ↦ Function.update_of_ne (List.mem_range.mp hi).ne _ _).perm
          (List.reverse_perm _).symm
      change (setElement s first none >>= _).Ensures view _ own
      rw [hset, Program.done_bind]
      refine (ensures_freeAll hkept).bind (fun _ later hlater ↦ ?_) fun _ _ hfault ↦ ?_
      · refine ⟨_, rfl, rfl, ?_⟩
        rw [Allocated, if_neg hfailed]
        exact ⟨rfl, hlater.2.blocks_eq⟩
      · cases hfault.1
    | some bytes =>
      intro a ha _
      change (setElement s first (some a) >>= _).Ensures view _ _
      rw [hset, Program.done_bind]
      refine (ih (by omega) (hholds.alloc ha bytes)).mono fun result later hresult ↦ ?_
      obtain ⟨t, ht, haddr, hallocated⟩ := hresult
      have hiff : (∀ j < blocks + 1, (malloc (first + j)).isSome) ↔
          ∀ j < blocks, (malloc (first + 1 + j)).isSome := by
        rw [Nat.forall_lt_succ_left, Nat.add_zero, hfirst, Option.isSome_some, eq_self, true_and]
        simp only [Nat.add_assoc, Nat.add_comm 1]
      refine ⟨t, ht, haddr, ?_⟩
      unfold Allocated at hallocated ⊢
      rw [if_congr hiff rfl rfl, show first + (blocks + 1) = first + 1 + blocks by omega]
      exact hallocated

end Functions

/-! ### The whole process -/

/-- The arguments pass the checks of the process. -/
def WorkArgs.Valid (args : WorkArgs) : Prop :=
  4 ≤ args.argc ∧ (1 ≤ args.msize ∧ args.msize ≤ 1024) ∧ 1 ≤ args.naccess

instance (args : WorkArgs) : Decidable args.Valid :=
  inferInstanceAs (Decidable (_ ∧ (_ ∧ _) ∧ _))

/-- The result of the process. It deregisters only when all of its memory was given. -/
def workResult (malloc : ℕ → Option (ℕ → UInt8)) (pid : UInt32) (args : WorkArgs) : WorkResult :=
  if args.Valid then
    if ∀ j < args.msize.toNat, (malloc j).isSome then
      ⟨0, [statusCommand "R" pid, statusCommand "U" pid]⟩
    else ⟨-1, [statusCommand "R" pid]⟩
  else ⟨-1, []⟩

/-- The accesses of an iteration move `addr` so little that it stays an `int` in all iterations. -/
def WorkArgs.Fits (args : WorkArgs) : Prop := args.policy = byte 'R' ∨ args.naccess ≤ 359110

/-- The main function with arguments that pass the checks. -/
theorem work_of_valid {malloc : ℕ → Option (ℕ → UInt8)} {rand : ℕ → ℤ} {pid : UInt32}
    {args : WorkArgs} (hvalid : args.Valid) :
    work malloc rand pid args = (allocBlocks malloc args.msize.toNat 0 .start >>= fun allocated ↦
      if allocated.2 then
        Program.loop (Program.loop (access rand (args.policy = byte 'R') args.msize)
          args.naccess.toNat) nIteration allocated.1 >>= fun s ↦
            freeBlocks s args.msize.toNat >>= fun _ ↦
              .done ⟨0, [statusCommand "R" pid, statusCommand "U" pid]⟩
      else .done ⟨-1, [statusCommand "R" pid]⟩) := by
  obtain ⟨hargc, ⟨hlow, hhigh⟩, hnaccess⟩ := hvalid
  rw [work, if_neg (by omega), if_neg (by omega), if_neg (by omega)]
  rfl

/-- The process with arguments that do not pass the checks. -/
theorem work_of_not_valid {malloc : ℕ → Option (ℕ → UInt8)} {rand : ℕ → ℤ} {pid : UInt32}
    {args : WorkArgs} (hvalid : ¬ args.Valid) : work malloc rand pid args = .done ⟨-1, []⟩ := by
  unfold work
  unfold WorkArgs.Valid at hvalid
  split_ifs with hargc hmsize hnaccess
  · rfl
  · rfl
  · rfl
  · omega

/-- In all iterations `addr` stays an `int`. -/
theorem WorkArgs.Fits.stride_le {args : WorkArgs} (hfits : args.Fits) (hlow : 1 ≤ args.naccess) :
    stride (args.policy = byte 'R') * (nIteration * args.naccess.toNat : ℕ) ≤ 2 ^ 31 - 1 := by
  by_cases hrandom : args.policy = byte 'R'
  · rw [stride, if_pos (decide_eq_true hrandom), zero_mul]
    norm_num
  · have hle := hfits.resolve_left hrandom
    rw [stride, decide_eq_false hrandom, if_neg Bool.false_ne_true, nIteration]
    push_cast
    omega

/-- The process gives its result, and leaves the memory as it was. -/
theorem ensures_work {view : ℕ → Option Chunk} {own : Owned Chunk Empty}
    {malloc : ℕ → Option (ℕ → UInt8)} {rand : ℕ → ℤ} {pid : UInt32} {args : WorkArgs}
    (hfits : args.Valid → args.Fits) : (work malloc rand pid args).Ensures view (fun result later ↦
      result = .ok (workResult malloc pid args) ∧ later.blocks = own.blocks) own := by
  by_cases hvalid : args.Valid
  · have hstride := (hfits hvalid).stride_le hvalid.2.2
    rw [work_of_valid hvalid, workResult, if_pos hvalid]
    obtain ⟨hargc, ⟨hlow, hhigh⟩, hnaccess⟩ := hvalid
    refine (ensures_allocBlocks (by omega) (Holds.nil _ own)).bind
      (fun allocated later hallocated ↦ ?_) fun reason later hfault ↦ ?_
    · obtain ⟨t, ht, haddr, hlater⟩ := hallocated
      cases ht
      simp only [Allocated, Nat.zero_add] at hlater
      by_cases hall : ∀ j < args.msize.toNat, (malloc j).isSome
      · rw [if_pos hall] at hlater ⊢
        obtain ⟨hyes, hholds⟩ := hlater
        rw [if_pos hyes]
        have hworking : Working allocated.1.buffer own.blocks args.msize.toNat
            (stride (args.policy = byte 'R')) (nIteration * args.naccess.toNat) allocated.1
              later := by
          refine ⟨rfl, hholds, ?_⟩
          rw [haddr]
          simpa [WorkState.start] using hstride
        refine (ensures_iterations hlow hhigh hworking).bind (fun s third hthird ↦ ?_) ?_
        · obtain ⟨t, ht, hlast⟩ := hthird
          cases ht
          have hkept := hlast.holds
          rw [← hlast.buffer_eq] at hkept
          refine (ensures_freeAll hkept).bind (fun _ fourth hfourth ↦ ?_) fun _ _ hfault ↦ ?_
          · exact ⟨rfl, hfourth.2.blocks_eq⟩
          · cases hfault.1
        · intro _ _ hfault
          obtain ⟨t, ht, -⟩ := hfault
          cases ht
      · rw [if_neg hall] at hlater ⊢
        rw [hlater.1, if_neg Bool.false_ne_true]
        exact ⟨rfl, hlater.2⟩
    · obtain ⟨t, ht, -⟩ := hfault
      cases ht
  · rw [work_of_not_valid hvalid, workResult, if_neg hvalid]
    exact ⟨rfl, rfl⟩

/-! ### When the process overflows -/

/-- The variables after accesses that have moved `addr`. -/
def WorkState.moved (s : WorkState) (distance calls : ℕ) : WorkState :=
  { s with addr := s.addr + distance, calls := s.calls + calls }

/-- A program that moves `addr`, unless it overflows. -/
def Advances (body : WorkState → WorkProgram WorkState) (distance calls : ℕ) : Prop :=
  ∀ s : WorkState, 0 ≤ s.addr → s.addr < 2 ^ 31 →
    body s = if s.addr + distance < 2 ^ 31 then .done (s.moved distance calls) else .stuck

/-- A loop moves `addr` by the sum. -/
theorem Advances.loop {body : WorkState → WorkProgram WorkState} {distance calls : ℕ}
    (hbody : Advances body distance calls) (turns : ℕ) :
    Advances (Program.loop body turns) (distance * turns) (calls * turns) := by
  induction turns with
  | zero =>
    intro s _ hsmall
    rw [Nat.mul_zero, Nat.mul_zero, Nat.cast_zero, add_zero, if_pos hsmall]
    simp [Program.loop, WorkState.moved]
  | succ turns ih =>
    intro s hzero hsmall
    have hrest : (0 : ℤ) ≤ distance * turns := by positivity
    rw [Program.loop, hbody s hzero hsmall]
    by_cases hone : s.addr + distance < 2 ^ 31
    · have hnext : 0 ≤ (s.moved distance calls).addr := by
        unfold WorkState.moved
        positivity
      have haddr : s.addr + distance + (distance * turns : ℕ) =
          s.addr + (distance * (turns + 1) : ℕ) := by
        push_cast
        ring
      have hmoved : (s.moved distance calls).moved (distance * turns) (calls * turns) =
          s.moved (distance * (turns + 1)) (calls * (turns + 1)) := by
        rw [WorkState.moved, WorkState.moved, WorkState.moved, haddr, Nat.add_assoc,
          Nat.add_comm calls, ← Nat.mul_succ]
      rw [if_pos hone, Program.done_bind, ih _ hnext hone, hmoved]
      exact if_congr (by rw [WorkState.moved, haddr]) rfl rfl
    · have hall : ¬ s.addr + (distance * (turns + 1) : ℕ) < 2 ^ 31 := by
        push_cast
        linarith
      rw [if_neg hone, if_neg hall]
      rfl

/-- Where every number drawn is 299, the access of the policy of time moves `addr` by as much. -/
theorem advances_access (msize : ℤ) : Advances (access (fun _ ↦ 299) false msize) 299 3 := by
  intro s hzero hsmall
  have hrun : access (fun _ ↦ 299) false msize s =
      (checkInt (s.addr + 299) >>= fun addr ↦ .done ⟨s.buffer, addr, s.calls + 3⟩) := rfl
  rw [hrun, Nat.cast_ofNat]
  split_ifs with hfits
  · rw [checkInt_eq ⟨by omega, hfits⟩]
    rfl
  · rw [checkInt, if_neg fun hvalue ↦ hfits hvalue.2]
    rfl

/-- In the iterations `addr` overflows. -/
theorem iterations_eq_stuck {args : WorkArgs} (hfits : ¬ args.Fits) {s : WorkState}
    (hs : s.addr = 0) :
    Program.loop (Program.loop (access (fun _ ↦ 299) (args.policy = byte 'R') args.msize)
      args.naccess.toNat) nIteration s = .stuck := by
  obtain ⟨hpolicy, hlarge⟩ := not_or.mp hfits
  rw [decide_eq_false hpolicy]
  have hloops := ((advances_access args.msize).loop args.naccess.toNat).loop nIteration
  rw [hloops s (by omega) (by rw [hs]; norm_num), if_neg]
  rw [hs, nIteration]
  push_cast
  omega

/-- The process comes to its end, with its result and with the memory as it was, whatever `malloc`
and `rand` give. -/
def EndsWithResult (args : WorkArgs) : Prop :=
  ∀ malloc rand pid (heap : Heap Chunk Empty), heap.WellFormed →
    ∃ last, Program.Runs (work malloc rand pid args) heap (.ok (workResult malloc pid args)) last ∧
      last.blocks = heap.blocks

/-- A process that keeps `addr` in `int` comes to its end. -/
theorem endsWithResult_of_fits {args : WorkArgs} (hfits : args.Valid → args.Fits) :
    EndsWithResult args := by
  intro malloc rand pid heap hheap
  have hensures : (work malloc rand pid args).Ensures (fun _ ↦ none) _ ⟨heap.blocks, heap.refs⟩ :=
    ensures_work hfits
  obtain ⟨result, last, hruns, hresult, hblocks⟩ := hensures.exists_runs hheap
  cases hresult
  exact ⟨last, hruns, hblocks⟩

/-- The process always comes to its end, without anything that C leaves undefined, if and only if
its arguments do not pass the checks, its policy is random, or its accesses keep `addr` in `int`. -/
theorem endsWithResult_iff (args : WorkArgs) :
    EndsWithResult args ↔ (args.Valid → args.Fits) := by
  constructor
  · intro hends hvalid
    by_contra hfits
    let heap : Heap Chunk Empty := ⟨fun _ ↦ none, 0, fun _ ↦ 0⟩
    let malloc : ℕ → Option (ℕ → UInt8) := fun _ ↦ some fun _ ↦ 0
    have hheap : heap.WellFormed := fun _ _ ↦ rfl
    obtain ⟨last, hruns, -⟩ := hends malloc (fun _ ↦ 299) 0 heap hheap
    rw [work_of_valid hvalid] at hruns
    obtain ⟨middle, later, hfirst, hafter⟩ := hruns.of_bind
    have hblocks : 0 + args.msize.toNat ≤ 1024 := by
      have hmsize := hvalid.2.1.2
      omega
    have hensures : (allocBlocks malloc args.msize.toNat 0 .start).Ensures (fun _ ↦ none) _
        ⟨heap.blocks, heap.refs⟩ := ensures_allocBlocks hblocks (Holds.nil _ _)
    obtain ⟨result, allocated, halloc, t, ht, haddr, hallocated⟩ := hensures.exists_runs hheap
    obtain ⟨rfl, rfl⟩ := hfirst.unique halloc
    have hall : ∀ j < args.msize.toNat, (malloc (0 + j)).isSome := fun _ _ ↦ rfl
    rw [Allocated, if_pos hall] at hallocated
    have hstuck := hafter t ht
    rw [if_pos hallocated.1, iterations_eq_stuck hfits haddr] at hstuck
    cases hstuck with
    | ended houtcome => cases houtcome
    | step hstep _ => cases hstep
  · exact endsWithResult_of_fits

end KernelModules.FaultProfiler
