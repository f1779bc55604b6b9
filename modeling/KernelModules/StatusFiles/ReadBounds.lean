import KernelModules.Foundation.CommandText
import KernelModules.Foundation.Sprintf
import KernelModules.StatusFiles.StatusReaders

/-!
# The buffer of a read

A call of `mp1_read`, `mp2_read` or `mp3_read` that finds `finished` clear prints one line for each
entry of the list to a buffer of `kmalloc(count)`, `count` being what the caller asks for. The loop
does not compare what it has printed with `count`, and `sprintf` stores a NUL behind every line.

`readFits_iff` says which calls keep to the buffer and return a beginning of the listing: those that
find the flag set or no entry, and those whose buffer is larger than the listing.
-/

set_option autoImplicit false
set_option relaxedAutoImplicit false

namespace KernelModules.StatusFiles

open Foundation

/-! ### The calls -/

/-- What `kmalloc(count)` returns: a buffer or NULL, and the memory from there on. -/
structure Allocation where
  granted : Bool
  mem : ℤ → UInt8

/-- The size of the buffer, which is 0 for NULL. -/
def Allocation.room (buf : Allocation) (count : ℕ) : ℕ := if buf.granted then count else 0

/-- What a call does: the flag that it leaves, the stores to the buffer, the value that it returns,
and the bytes that it asks `copy_to_user` to copy. -/
structure ReadCall where
  finished : Bool
  stores : List Extent
  returned : Int64
  delivered : Text

/-- A call that prints one line for each entry. -/
def readEntries {α : Type*} (line : α → Text) (entries : List α) (finished : Bool)
    (buf : Allocation) : ReadCall :=
  if finished then ⟨false, [], 0, []⟩
  else
    let printed := (Printed.mk buf.mem 0 []).sprintfAll (entries.map line)
    { finished := true
      stores := printed.stores
      returned := printed.copied.toInt64
      -- the size that `copy_to_user` takes is unsigned
      delivered := printed.bytes printed.copied.toInt64.toUInt64.toNat }

/-- `mp1_read`. -/
def mp1Read (processes : List ProcessTimes.Process) : Bool → Allocation → ReadCall :=
  readEntries mp1Line processes

/-- `mp2_read`. -/
def mp2Read (tasks : List RateMonotonic.Mp2TaskStruct) : Bool → Allocation → ReadCall :=
  readEntries mp2Line tasks

/-- `mp3_read`. -/
def mp3Read (tasks : List FaultProfiler.Mp3TaskStruct) : Bool → Allocation → ReadCall :=
  readEntries mp3Line tasks

/-- The read function of a status file. -/
def StatusFile.read : StatusFile → Bool → Allocation → ReadCall
  | .mp1 processes => mp1Read processes
  | .mp2 tasks => mp2Read tasks
  | .mp3 tasks => mp3Read tasks

/-- The law: a call stores within its buffer, returns at most `count`, and delivers a beginning of
the listing. -/
structure ReadFits (listing : Text) (count : ℕ) (buf : Allocation) (call : ReadCall) : Prop where
  inside : ∀ extent ∈ call.stores, extent.Within (buf.room count)
  returned_le : call.returned.toInt ≤ count
  delivered : call.delivered <+: listing

/-! ### The lines -/

/-- The text of a signed number has one byte more than its digits at most. -/
theorem length_signedDecimal_le {value : ℤ} {count : ℕ} (hcount : 0 < count)
    (hvalue : value.natAbs < 10 ^ count) : (signedDecimal value).length ≤ count + 1 := by
  have hdigits := length_decimal_le hcount hvalue
  have hsign : (bytes "-").length = 1 := rfl
  rw [signedDecimal]
  split_ifs
  · rw [List.length_append, hsign]
    omega
  · omega

/-- The text of a 32-bit number has at most 10 digits. -/
theorem length_decimal_uint32 (value : UInt32) : (decimal value.toNat).length ≤ 10 :=
  length_decimal_le (by decide) (value.toNat_lt.trans (by decide))

/-- The text of a 64-bit number has at most 20 digits. -/
theorem length_decimal_uint64 (value : UInt64) : (decimal value.toNat).length ≤ 20 :=
  length_decimal_le (by decide) (value.toNat_lt.trans (by decide))

/-- A line of `mp1_read` is short. -/
theorem length_mp1Line_lt (process : ProcessTimes.Process) : (mp1Line process).length < 100 := by
  have hpid := length_decimal_uint32 process.pid
  have htime : (signedDecimal process.time.toInt).length ≤ 19 + 1 := by
    refine length_signedDecimal_le (by decide) ?_
    have hle := process.time.toInt_lt
    have hge := process.time.le_toInt
    omega
  have hliterals : (bytes ": ").length + (bytes "\n").length = 3 := rfl
  simp only [mp1Line, List.length_append]
  omega

/-- A line of `mp2_read` is short. -/
theorem length_mp2Line_lt (task : RateMonotonic.Mp2TaskStruct) : (mp2Line task).length < 100 := by
  have hpid := length_decimal_uint32 task.pid
  have hperiod := length_decimal_uint64 task.period
  have hprocTime := length_decimal_uint64 task.procTime
  have hstate : (decimal (stateNumber task.state)).length ≤ 1 :=
    length_decimal_le (by decide) (by cases task.state <;> decide)
  have hliterals : (bytes ": ").length + (bytes ", ").length + (bytes ", ").length +
      (bytes "\n").length = 7 := rfl
  simp only [mp2Line, List.length_append]
  omega

/-- A line of `mp3_read` is short. -/
theorem length_mp3Line_lt (task : FaultProfiler.Mp3TaskStruct) : (mp3Line task).length < 100 := by
  have hpid : (signedDecimal task.pid.toInt).length ≤ 10 + 1 := by
    refine length_signedDecimal_le (by decide) ?_
    have hle := task.pid.toInt_lt
    have hge := task.pid.le_toInt
    omega
  have hliteral : (bytes "\n").length = 1 := rfl
  simp only [mp3Line, List.length_append]
  omega

/-! ### Calls that fit -/

/-- The size that `copy_to_user` is called with. -/
theorem toNat_size (copied : Int32) : (copied.toInt64.toUInt64.toNat : ℤ) =
    if copied.toInt < 0 then 2 ^ 64 + copied.toInt else copied.toInt := by
  have hlt := copied.toInt64.toUInt64.toNat_lt
  have hsigned : copied.toInt64.toInt = Int.bmod copied.toInt64.toUInt64.toNat (2 ^ 64) :=
    BitVec.toInt_eq_toNat_bmod copied.toInt64.toBitVec
  rw [Int32.toInt_toInt64, Int.bmod_def] at hsigned
  split_ifs at hsigned ⊢ <;> omega

section Entries

variable {α : Type*} {line : α → Text} {entries : List α}

/-- A call over a listing that does not wrap returns its length, and delivers it whole. -/
theorem readEntries_of_lt (hlt : (entries.flatMap line).length < 2 ^ 31) (buf : Allocation) :
    (readEntries line entries false buf).returned.toInt = (entries.flatMap line).length ∧
      (readEntries line entries false buf).delivered = entries.flatMap line := by
  have hstart : (Printed.mk buf.mem 0 []).copied.toInt = (0 : ℕ) := rfl
  rw [List.flatMap_def, ← Nat.zero_add (List.length _)] at hlt
  have hcopied := Printed.toInt_copied_sprintfAll hstart hlt
  have hbytes := Printed.bytes_sprintfAll hstart hlt
  rw [Nat.zero_add, ← List.flatMap_def] at hcopied hbytes
  have hsize := toNat_size ((Printed.mk buf.mem 0 []).sprintfAll (entries.map line)).copied
  rw [hcopied, if_neg (by omega), Nat.cast_inj] at hsize
  refine ⟨(Int32.toInt_toInt64 _).trans hcopied, ?_⟩
  change Printed.bytes _ _ = _
  rw [hsize]
  exact hbytes

/-- A text is shorter than the buffer when there is one, and it is shorter than `count`. -/
theorem Allocation.lt_room_iff (buf : Allocation) {count size : ℕ} :
    size < buf.room count ↔ buf.granted = true ∧ size < count := by
  rw [Allocation.room]
  cases buf.granted with
  | true => simp
  | false => simp

/-- A call over a listing that does not wrap stores within the buffer exactly when it has no entry,
or the buffer is larger than the listing. -/
theorem inside_readEntries_iff (hlt : (entries.flatMap line).length < 2 ^ 31) (count : ℕ)
    (buf : Allocation) :
    (∀ extent ∈ (readEntries line entries false buf).stores, extent.Within (buf.room count)) ↔
      entries = [] ∨ (entries.flatMap line).length < buf.room count := by
  have hstart : (Printed.mk buf.mem 0 []).copied.toInt = (0 : ℕ) := rfl
  have hstores : ∀ extent ∈ (Printed.mk buf.mem 0 []).stores, extent.Within (buf.room count) :=
    List.forall_mem_nil _
  rw [List.flatMap_def, ← Nat.zero_add (List.length _)] at hlt
  have hiff := Printed.within_sprintfAll_iff hstart hlt hstores
  rwa [List.map_eq_nil_iff, Nat.zero_add, ← List.flatMap_def] at hiff

/-- A call that keeps to the law is over a listing that does not wrap. Assumes: lines of less than
2^31 bytes. -/
theorem ReadFits.length_lt (hline : ∀ entry, (line entry).length < 2 ^ 31) {count : ℕ}
    {buf : Allocation}
    (hfits : ReadFits (entries.flatMap line) count buf (readEntries line entries false buf)) :
    (entries.flatMap line).length < 2 ^ 31 := by
  have hstart : (Printed.mk buf.mem 0 []).copied.toInt = (0 : ℕ) := rfl
  have hwrap := Printed.lt_or_neg_of_start_nonneg hstart
    (List.forall_mem_map.mpr fun entry _ ↦ hline entry)
    fun extent hextent ↦ (hfits.inside extent hextent).1
  rw [Nat.zero_add, ← List.flatMap_def] at hwrap
  rcases hwrap with hlt | ⟨hneg, hlt⟩
  · exact hlt
  · -- the size of a negative value is larger than any listing that wraps once
    have hsize := toNat_size ((Printed.mk buf.mem 0 []).sprintfAll (entries.map line)).copied
    have hlength := hfits.delivered.length_le
    have hge := Int32.le_toInt ((Printed.mk buf.mem 0 []).sprintfAll (entries.map line)).copied
    rw [if_pos hneg] at hsize
    change (Printed.bytes _ _).length ≤ _ at hlength
    rw [Printed.length_bytes] at hlength
    omega

/-- A call that finds the flag clear keeps to the law exactly when it has no entry, or a buffer that
is larger than the listing. Assumes: lines of less than 2^31 bytes. -/
theorem readFits_readEntries_iff (hline : ∀ entry, (line entry).length < 2 ^ 31) (count : ℕ)
    (buf : Allocation) :
    ReadFits (entries.flatMap line) count buf (readEntries line entries false buf) ↔
      entries = [] ∨ buf.granted = true ∧ (entries.flatMap line).length < count ∧
        (entries.flatMap line).length < 2 ^ 31 := by
  constructor
  · intro hfits
    have hlt := hfits.length_lt hline
    refine ((inside_readEntries_iff hlt count buf).mp hfits.inside).imp_right fun hlarge ↦ ?_
    obtain ⟨hgranted, hcount⟩ := buf.lt_room_iff.mp hlarge
    exact ⟨hgranted, hcount, hlt⟩
  · intro hcase
    have hlt : (entries.flatMap line).length < 2 ^ 31 := by
      rcases hcase with rfl | ⟨-, -, hlt⟩
      · exact Nat.two_pow_pos 31
      · exact hlt
    obtain ⟨hreturned, hdelivered⟩ := readEntries_of_lt hlt buf
    refine ⟨(inside_readEntries_iff hlt count buf).mpr ?_, ?_, hdelivered ▸ List.prefix_refl _⟩
    · exact hcase.imp_right fun ⟨hgranted, hcount, _⟩ ↦ buf.lt_room_iff.mpr ⟨hgranted, hcount⟩
    · rw [hreturned]
      rcases hcase with rfl | ⟨-, hcount, -⟩
      · exact Int.natCast_nonneg _
      · exact Int.ofNat_le.mpr hcount.le

end Entries

/-! ### The status files -/

/-- A call that finds the flag set returns 0 and stores nothing. -/
theorem readFits_finished (file : StatusFile) (count : ℕ) (buf : Allocation) :
    ReadFits file.listing count buf (file.read true buf) := by
  have hcall : file.read true buf = ⟨false, [], 0, []⟩ := by cases file <;> rfl
  rw [hcall]
  exact ⟨List.forall_mem_nil _, Int.natCast_nonneg _, List.nil_prefix⟩

/-- For every list, every `count` and every buffer that `kmalloc` returns, a call stores within the
buffer, returns at most `count`, and delivers a beginning of the listing, if and only if it finds
the flag set, or no entry in the list, or it has a buffer and the listing is shorter than `count`
and than 2^31 bytes. -/
theorem readFits_iff (file : StatusFile) (finished : Bool) (count : ℕ) (buf : Allocation) :
    ReadFits file.listing count buf (file.read finished buf) ↔
      finished = true ∨ file.IsEmpty ∨
        buf.granted = true ∧ file.listing.length < count ∧ file.listing.length < 2 ^ 31 := by
  cases finished with
  | true => exact iff_of_true (readFits_finished file count buf) (.inl rfl)
  | false =>
    rw [or_iff_right Bool.false_ne_true]
    cases file with
    | mp1 processes =>
      exact readFits_readEntries_iff (fun process ↦ (length_mp1Line_lt process).trans (by decide))
        count buf
    | mp2 tasks =>
      exact readFits_readEntries_iff (fun task ↦ (length_mp2Line_lt task).trans (by decide))
        count buf
    | mp3 tasks =>
      exact readFits_readEntries_iff (fun task ↦ (length_mp3Line_lt task).trans (by decide))
        count buf

/-- One byte is asked for, and `mp3_read` prints the line of a pid to the buffer. -/
theorem readFits_not_always :
    ¬ ∀ (file : StatusFile) (finished : Bool) (count : ℕ) (buf : Allocation), buf.granted = true →
      ReadFits file.listing count buf (file.read finished buf) := by
  intro hall
  have hfits := hall (.mp3 [⟨none, 7, 0, 0, 0, 0, 0⟩]) false 1 ⟨true, fun _ ↦ 0⟩ rfl
  have hstores : ((StatusFile.mp3 [⟨none, 7, 0, 0, 0, 0, 0⟩]).read false ⟨true, fun _ ↦ 0⟩).stores =
      [⟨0, 3⟩] := by
    decide +kernel
  have hinside := hfits.inside ⟨0, 3⟩ (hstores ▸ List.mem_singleton_self _)
  exact absurd hinside.2 (by decide)

end KernelModules.StatusFiles
