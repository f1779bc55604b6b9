import KernelModules.FaultProfiler.TaskSampling
import KernelModules.ProcessTimes.ProcessList
import KernelModules.RateMonotonic.TaskStruct

/-!
# The readers of the status files

`mp1_read`, `mp2_read` and `mp3_read` return the whole listing, and signal the end of the file with
a static flag: a call that finds `finished` clear sets it and returns the listing, and a call that
finds it set clears it and returns 0. The flag is one for all the processes that have the file open.

Readers of a file with a fixed list take their calls in any order, and the calls may overlap: a call
tests the flag, writes it, and returns later. `always_served_iff` says in which runs every reader
receives the listing once and then the end of the file: those in which every call that tests the
flag finds it set exactly when its reader has had the listing.
-/

set_option autoImplicit false
set_option relaxedAutoImplicit false

namespace KernelModules.StatusFiles

open Foundation

/-! ### The listings -/

/-- The text of `%ld` and `%d`. -/
def signedDecimal (value : ℤ) : Text :=
  if value < 0 then bytes "-" ++ decimal value.natAbs else decimal value.natAbs

/-- The numbers of the task states. -/
def stateNumber : RateMonotonic.TaskState → ℕ
  | .sleeping => 1
  | .ready => 2
  | .running => 3

/-- `"%u: %ld\n"`. -/
def mp1Line (process : ProcessTimes.Process) : Text :=
  decimal process.pid.toNat ++ bytes ": " ++ signedDecimal process.time.toInt ++ bytes "\n"

/-- `"%u: %llu, %llu, %u\n"`. -/
def mp2Line (task : RateMonotonic.Mp2TaskStruct) : Text :=
  decimal task.pid.toNat ++ bytes ": " ++ decimal task.period.toNat ++ bytes ", " ++
    decimal task.procTime.toNat ++ bytes ", " ++ decimal (stateNumber task.state) ++ bytes "\n"

/-- `"%d\n"`. -/
def mp3Line (task : FaultProfiler.Mp3TaskStruct) : Text :=
  signedDecimal task.pid.toInt ++ bytes "\n"

/-- A status file, with the list that its module keeps. -/
inductive StatusFile
  | mp1 (processes : List ProcessTimes.Process)
  | mp2 (tasks : List RateMonotonic.Mp2TaskStruct)
  | mp3 (tasks : List FaultProfiler.Mp3TaskStruct)

namespace StatusFile

/-- What the loop of `sprintf` calls writes to the buffer. -/
def listing : StatusFile → Text
  | .mp1 processes => processes.flatMap mp1Line
  | .mp2 tasks => tasks.flatMap mp2Line
  | .mp3 tasks => tasks.flatMap mp3Line

/-- The list has no entry. -/
def IsEmpty : StatusFile → Prop
  | .mp1 processes => processes = []
  | .mp2 tasks => tasks = []
  | .mp3 tasks => tasks = []

instance (file : StatusFile) : Decidable file.IsEmpty := by
  cases file with
  | mp1 processes => exact inferInstanceAs (Decidable (processes = []))
  | mp2 tasks => exact inferInstanceAs (Decidable (tasks = []))
  | mp3 tasks => exact inferInstanceAs (Decidable (tasks = []))

/-- Lines that end with a newline make an empty listing only when there are none. -/
theorem flatMap_eq_nil_iff {α : Type*} {line : α → Text}
    (hline : ∀ entry, line entry ≠ []) (entries : List α) :
    entries.flatMap line = [] ↔ entries = [] := by
  rw [List.flatMap_eq_nil_iff]
  constructor
  · intro hnil
    exact List.eq_nil_iff_forall_not_mem.mpr fun entry hmem ↦ hline entry (hnil entry hmem)
  · rintro rfl entry hmem
    cases hmem

/-- The listing is empty exactly when the list is. -/
theorem listing_eq_nil_iff (file : StatusFile) : file.listing = [] ↔ file.IsEmpty := by
  have hnewline : ∀ text : Text, text ++ bytes "\n" ≠ [] := fun text ↦
    List.append_ne_nil_of_right_ne_nil text (List.cons_ne_nil _ _)
  cases file with
  | mp1 processes => exact flatMap_eq_nil_iff (fun _ ↦ hnewline _) processes
  | mp2 tasks => exact flatMap_eq_nil_iff (fun _ ↦ hnewline _) tasks
  | mp3 tasks => exact flatMap_eq_nil_iff (fun _ ↦ hnewline _) tasks

end StatusFile

/-! ### The readers -/

/-- Where a reader is: between two calls, in a call that has tested the flag, or in a call that has
set the flag and copies the listing. -/
inductive ReadPc
  | idle
  | tested (finished : Bool)
  | copying
  deriving DecidableEq

/-- A process that reads the file: what it has received, whether a call has returned 0, and where it
is. -/
structure Reader where
  received : Text
  ended : Bool
  pc : ReadPc
  deriving DecidableEq

/-- The static variable `finished` and the readers. -/
structure Readers (ι : Type*) where
  finished : Bool
  reader : ι → Reader

namespace Reader

/-- A call returns the text. A call that copies nothing returns 0. -/
def receive (r : Reader) (text : Text) : Reader :=
  ⟨r.received ++ text, decide (text = []), .idle⟩

/-- The reader once the call that it is in has returned. -/
def afterCall (listing : Text) (r : Reader) : Reader :=
  match r.pc with
  | .idle => r
  | .tested true => r.receive []
  | .tested false => r.receive listing
  | .copying => r.receive listing

end Reader

variable {ι : Type*} [DecidableEq ι]

namespace Readers

/-- A change of one reader. -/
@[simps] def setReader (s : Readers ι) (i : ι) (r : Reader) : Readers ι :=
  { s with reader := Function.update s.reader i r }

/-- The start, after the module is loaded. -/
def start : Readers ι := ⟨false, fun _ ↦ ⟨[], false, .idle⟩⟩

/-- The step of a reader, which makes no call after one that returned 0. -/
def next (file : StatusFile) (s : Readers ι) (i : ι) : Option (Readers ι) :=
  let r := s.reader i
  if r.ended then none
  else
    match r.pc with
    | .idle => some (s.setReader i { r with pc := .tested s.finished })
    | .tested true => some ({ s with finished := false }.setReader i (r.receive []))
    | .tested false => some ({ s with finished := true }.setReader i { r with pc := .copying })
    | .copying => some (s.setReader i (r.receive file.listing))

end Readers

/-! ### What readers receive -/

/-- A reader has received the listing if a call has returned 0, and nothing but one listing in any
case. -/
def Served (file : StatusFile) (r : Reader) : Prop :=
  (r.ended = true → r.received = file.listing) ∧ (r.received = [] ∨ r.received = file.listing)

instance (file : StatusFile) (r : Reader) : Decidable (Served file r) :=
  inferInstanceAs (Decidable ((r.ended = true → r.received = file.listing) ∧
    (r.received = [] ∨ r.received = file.listing)))

/-- Every reader is served, the calls that it is in included. -/
def AllServed (file : StatusFile) (s : Readers ι) : Prop :=
  ∀ i, Served file ((s.reader i).afterCall file.listing)

/-- A call that tests the flag finds it set exactly when its reader has had the listing. An empty
list makes no difference. -/
def FlagFits (file : StatusFile) (s : Readers ι) (i : ι) : Prop :=
  (s.reader i).pc = .idle → file.IsEmpty ∨ (s.finished = true ↔ (s.reader i).received ≠ [])

instance [Fintype ι] (file : StatusFile) (s : Readers ι) : Decidable (AllServed file s) :=
  inferInstanceAs (Decidable (∀ i, Served file ((s.reader i).afterCall file.listing)))

instance (file : StatusFile) (s : Readers ι) (i : ι) : Decidable (FlagFits file s i) :=
  inferInstanceAs (Decidable ((s.reader i).pc = .idle → file.IsEmpty ∨
    (s.finished = true ↔ (s.reader i).received ≠ [])))

section Steps

variable {file : StatusFile} {s : Readers ι} {i : ι}

/-- A change of one reader leaves everyone served when that reader is. -/
theorem AllServed.setReader (hs : AllServed file s) {r : Reader}
    (hr : Served file (r.afterCall file.listing)) (finished : Bool) :
    AllServed file (({ s with finished := finished } : Readers ι).setReader i r) := by
  intro j
  rw [Readers.setReader_reader]
  by_cases hij : j = i
  · rw [hij, Function.update_self]
    exact hr
  · rw [Function.update_of_ne hij]
    exact hs j

/-- A call that tests the flag leaves its reader served exactly when the flag fits. Assumes: a
reader that is served so far. -/
theorem served_tested_iff {r : Reader} (hr : Served file r) (finished : Bool) :
    Served file ({ r with pc := .tested finished }.afterCall file.listing) ↔
      file.IsEmpty ∨ (finished = true ↔ r.received ≠ []) := by
  rw [← file.listing_eq_nil_iff]
  cases finished with
  | true =>
    -- the call returns 0
    have hafter : ({ r with pc := .tested true } : Reader).afterCall file.listing =
        ⟨r.received, true, .idle⟩ := by
      simp [Reader.afterCall, Reader.receive]
    rw [hafter, Served]
    have hreceived := hr.2
    constructor
    · rintro ⟨hended, -⟩
      rw [← hended rfl]
      by_cases hnil : r.received = []
      · exact .inl hnil
      · exact .inr (iff_of_true rfl hnil)
    · rintro (hempty | hhad)
      · rw [hempty] at hreceived ⊢
        exact ⟨fun _ ↦ hreceived.elim id id, .inl (hreceived.elim id id)⟩
      · have hlisting := hreceived.resolve_left (hhad.mp rfl)
        exact ⟨fun _ ↦ hlisting, .inr hlisting⟩
  | false =>
    -- the call returns a listing
    have hafter : ({ r with pc := .tested false } : Reader).afterCall file.listing =
        ⟨r.received ++ file.listing, decide (file.listing = []), .idle⟩ := rfl
    rw [hafter, Served]
    simp only [decide_eq_true_eq, List.append_eq_nil_iff, List.append_left_eq_self]
    constructor
    · rintro ⟨-, hnothing | hfirst⟩
      · exact .inl hnothing.2
      · exact .inr (by simp [hfirst])
    · rintro (hempty | hfresh)
      · have hreceived := hr.2
        rw [hempty] at hreceived
        have hnil : r.received = [] := hreceived.elim id id
        exact ⟨fun _ ↦ hnil, .inr hnil⟩
      · have hnil : r.received = [] := by simpa using hfresh
        exact ⟨fun _ ↦ hnil, .inr hnil⟩

omit [DecidableEq ι] in
/-- A reader between two calls is served so far. -/
theorem AllServed.of_idle (hs : AllServed file s) (hpc : (s.reader i).pc = .idle) :
    Served file (s.reader i) := by
  have hi := hs i
  simp only [Reader.afterCall, hpc] at hi
  exact hi

/-- A step at which the flag fits leaves everyone served. -/
theorem AllServed.next (hs : AllServed file s) (hfits : FlagFits file s i) {later : Readers ι}
    (hnext : Readers.next file s i = some later) : AllServed file later := by
  have hi := hs i
  simp only [Readers.next] at hnext
  split_ifs at hnext
  cases hpc : (s.reader i).pc with
  | idle =>
    rw [hpc] at hnext
    cases hnext
    have htested := (served_tested_iff (hs.of_idle hpc) s.finished).mpr (hfits hpc)
    exact hs.setReader htested s.finished
  | tested finished =>
    -- the rest of a call does not change what it returns
    rw [hpc] at hnext
    simp only [Reader.afterCall, hpc] at hi
    cases finished with
    | true =>
      cases hnext
      exact hs.setReader (r := (s.reader i).receive []) hi false
    | false =>
      cases hnext
      exact hs.setReader (r := { s.reader i with pc := .copying }) hi true
  | copying =>
    rw [hpc] at hnext
    simp only [Reader.afterCall, hpc] at hi
    cases hnext
    exact hs.setReader (r := (s.reader i).receive file.listing) hi s.finished

/-- A step at which the flag does not fit leaves a reader that is not served. -/
theorem AllServed.not_next (hs : AllServed file s) (hmisfit : ¬ FlagFits file s i)
    {later : Readers ι} (hnext : Readers.next file s i = some later) : ¬ AllServed file later := by
  obtain ⟨hpc, hflag⟩ := Classical.not_imp.mp hmisfit
  simp only [Readers.next, hpc] at hnext
  split_ifs at hnext
  cases hnext
  intro hlater
  have hreader := hlater i
  rw [Readers.setReader_reader, Function.update_self] at hreader
  exact hflag ((served_tested_iff (hs.of_idle hpc) s.finished).mp hreader)

end Steps

/-- In a run of the reads of any processes, every reader that reads to the end receives the listing
once and then the end of the file, if and only if every call that tests the flag finds it set
exactly when its reader has had the listing. -/
theorem always_served_iff (file : StatusFile) (reads : List ι) :
    Always (Readers.next file) (AllServed file) Readers.start reads ↔
      Meets (Readers.next file) (FlagFits file) Readers.start reads := by
  have hstart : AllServed file (Readers.start (ι := ι)) := by
    intro i
    show Served file ⟨[], false, .idle⟩
    exact ⟨fun hended ↦ (Bool.false_ne_true hended).elim, .inl rfl⟩
  exact always_iff_meets (AllServed file) (fun _ hs ↦ hs)
    (fun _ _ _ hs hnext hfits ↦ hs.next hfits hnext)
    (fun _ _ _ hs hnext hmisfit ↦ hs.not_next hmisfit hnext) hstart reads

/-- One process reads the pid of the list. A second one begins to read before the first has come to
the end of the file, and finds the end of the file at once. -/
theorem always_served_second_reader :
    ¬ ∀ (file : StatusFile) (reads : List (Fin 2)),
      Always (Readers.next file) (AllServed file) Readers.start reads := by
  intro hall
  have hsecond : ¬ Always (Readers.next (.mp3 [⟨none, 7, 0, 0, 0, 0, 0⟩]))
      (AllServed (.mp3 [⟨none, 7, 0, 0, 0, 0, 0⟩])) (Readers.start (ι := Fin 2))
      [0, 0, 0, 1, 1] :=
    not_always_of_run (by decide +kernel)
  exact hsecond (hall _ _)

end KernelModules.StatusFiles
