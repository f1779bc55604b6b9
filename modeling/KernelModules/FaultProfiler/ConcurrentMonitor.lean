import KernelModules.FaultProfiler.BufferRing
import KernelModules.FaultProfiler.MonitorSteps
import KernelModules.Foundation.SharedWords

/-!
# The profiler and the monitor at the same time

The monitor reads the buffer through its mapping and takes no lock, so it may run between any two
stores of `vmem_buf_push_next`, and the profiler may store between any two accesses of the monitor:
also between the `printf` of a word and the assignment that clears it. The work queue has one
thread, so there is one push at a time. Runs of the monitor follow each other.

`wordsAccounted_of_reachable` says what is left in every run of the two: the stores are those of the
pushes in their order, and every word that is printed is -1, or one that was stored, or a zero of
`TaskList_init`, each printed once. A word is lost only when a later store overwrites it, or when it
is stored between the `printf` of its predecessor and the assignment. `completes_of_reachable`
says that the monitor comes to its end from wherever the last push leaves it.
-/

set_option autoImplicit false
set_option relaxedAutoImplicit false

namespace KernelModules.FaultProfiler

open Foundation

/-! ### The machine -/

/-- Where the monitor is: at the test of a loop, at the `printf` of a word of a row, at the
assignment after it, or behind the loops. -/
inductive ReaderPc
  | search
  | read
  | print (offset : Fin 4)
  | clear (offset : Fin 4)
  | done
  deriving DecidableEq

/-- The local state of the monitor: `index`, the place in the code, and the number `i` of rows. -/
structure Reader where
  index : ℕ
  pc : ReaderPc
  rows : ℕ
  deriving DecidableEq

/-- The start of the monitor. -/
def Reader.start : Reader := ⟨0, .search, 0⟩

/-- The profiler and the monitor. The stores left of the push in progress are `pending`. The lists
`pushed`, `stored` and `printed` are what has happened so far, and `raced` are the numbers of the
stores to a word that was printed and not yet cleared. -/
structure Sharing where
  profiler : Profiler
  pending : List (ℕ × Int64)
  reader : Reader
  pushed : List Sample
  stored : List (ℕ × Int64)
  printed : List (ℕ × Int64)
  raced : List ℕ

/-- An event: a push starts, the profiler makes its next store, the monitor takes a step, or a new
run of the monitor starts. -/
inductive SharingEvent
  | push (sample : Sample)
  | store
  | monitor
  | restart
  deriving DecidableEq

namespace Sharing

/-- The word that is printed and not yet cleared. -/
def taking (s : Sharing) : Option ℕ :=
  match s.reader.pc with
  | .clear _ => some s.reader.index
  | _ => none

/-- The profiler makes a store of `vmem_buf_push_next`. With the last one `vmem_idx` moves on. -/
def storeNext (s : Sharing) (i : ℕ) (value : Int64) (rest : List (ℕ × Int64)) : Sharing :=
  { s with
    profiler :=
      { vmemBuf := Function.update s.profiler.vmemBuf i value
        vmemIdx := if rest = [] then
            if vmemSize ≤ 4 * (s.profiler.vmemIdx + 1) then 0 else s.profiler.vmemIdx + 1
          else s.profiler.vmemIdx }
    pending := rest
    stored := s.stored ++ [(i, value)]
    raced := if s.taking = some i then s.raced ++ [s.stored.length] else s.raced }

/-- A row has a first word. -/
theorem firstWord_lt : 0 < 4 := by decide

/-- Where the monitor is after the assignment to a word of a row. -/
def afterClear (offset : Fin 4) : ReaderPc :=
  match MonitorState.afterWord offset with
  | .word next => .print next
  | _ => .read

/-- The step of the monitor. -/
def monitorStep (s : Sharing) : Sharing :=
  match s.reader.pc with
  | .search =>
    if s.reader.index < bufdMax then
      if s.profiler.vmemBuf s.reader.index ≠ -1 then
        { s with reader := { s.reader with pc := .read } }
      else { s with reader := { s.reader with index := s.reader.index + 1 } }
    else { s with reader := { s.reader with pc := .read } }
  | .read =>
    if s.profiler.vmemBuf s.reader.index ≠ -1 then
      { s with reader := { s.reader with pc := .print ⟨0, firstWord_lt⟩ } }
    else { s with reader := { s.reader with pc := .done } }
  | .print offset =>
    { s with
      reader := { s.reader with pc := .clear offset }
      printed := s.printed ++ [(s.reader.index, s.profiler.vmemBuf s.reader.index)] }
  | .clear offset =>
    { s with
      profiler := { s.profiler with
        vmemBuf := Function.update s.profiler.vmemBuf s.reader.index (-1) }
      reader :=
        { index := if bufdMax ≤ s.reader.index + 1 then 0 else s.reader.index + 1
          pc := afterClear offset
          rows := if afterClear offset = .read then s.reader.rows + 1 else s.reader.rows } }
  | .done => s

/-- The step of the two. A push starts when the one before has made its stores, and a run of the
monitor when the one before has ended. -/
def next (s : Sharing) : SharingEvent → Option Sharing
  | .push sample =>
    if s.pending = [] then some { s with
      pending := vmemBufStores s.profiler sample
      pushed := s.pushed ++ [sample] }
    else none
  | .store =>
    match s.pending with
    | [] => none
    | (i, value) :: rest => some (s.storeNext i value rest)
  | .monitor => some s.monitorStep
  | .restart => if s.reader.pc = .done then some { s with reader := .start } else none

/-- `TaskList_init` has made the buffer, and the monitor is at its start. -/
def start : Sharing := ⟨taskListInit, [], .start, [], [], [], []⟩

end Sharing

/-! ### The stores of the pushes -/

/-- The stores of a push, by its number. -/
def Sample.storesAt (sample : Sample) (number : ℕ) : List (ℕ × Int64) :=
  vmemBufStores ⟨fun _ ↦ 0, number % vmemRows⟩ sample

/-- The stores of pushes from `TaskList_init` on. -/
def storesOf (samples : List Sample) : List (ℕ × Int64) :=
  samples.zipIdx.flatMap fun entry ↦ entry.1.storesAt entry.2

/-- The stores of one more push. -/
theorem storesOf_concat (samples : List Sample) (sample : Sample) :
    storesOf (samples ++ [sample]) = storesOf samples ++ sample.storesAt samples.length := by
  simp only [storesOf, List.zipIdx_append, List.flatMap_append, List.zipIdx_singleton,
    List.flatMap_cons, List.flatMap_nil, List.append_nil, Nat.zero_add]

/-- The slot behind another, with the bound in words. -/
theorem vmemIdx_after (number : ℕ) :
    (if vmemSize ≤ 4 * (number % vmemRows + 1) then 0 else number % vmemRows + 1) =
      (number + 1) % vmemRows := by
  rw [← Ring.after_mod (by decide : 0 < vmemRows) number, Ring.after]
  refine if_congr ?_ rfl rfl
  rw [vmemRows, vmemSize]
  omega

namespace Sharing

/-- The words of the two, as words that a writer and a reader share. -/
def shared (s : Sharing) : SharedWords Int64 :=
  ⟨s.profiler.vmemBuf, s.stored, s.printed, s.taking, s.raced⟩

/-- What is left of the pushes is what the profiler has to store. -/
structure Pushing (s : Sharing) : Prop where
  stores : s.stored ++ s.pending = storesOf s.pushed
  idle : s.pending = [] → s.profiler.vmemIdx = s.pushed.length % vmemRows
  busy : s.pending ≠ [] → s.pushed ≠ [] ∧
    s.profiler.vmemIdx = (s.pushed.length - 1) % vmemRows

/-- The index of the monitor is within its bound, no rows are counted before the read loop, and what
the two share is reached. -/
structure Inv (s : Sharing) : Prop where
  pushing : s.Pushing
  index_le : s.reader.index ≤ bufdMax
  rows_eq : s.reader.pc = .search → s.reader.rows = 0
  reachable : Reachable (SharedWords.next (-1)) (SharedWords.start fun _ ↦ 0) s.shared

/-- A step of the monitor keeps what the profiler has to store. -/
theorem Pushing.monitorStep {s : Sharing} (hs : s.Pushing) : s.monitorStep.Pushing := by
  have hfields : s.monitorStep.stored = s.stored ∧ s.monitorStep.pending = s.pending ∧
      s.monitorStep.pushed = s.pushed ∧
        s.monitorStep.profiler.vmemIdx = s.profiler.vmemIdx := by
    unfold Sharing.monitorStep
    cases s.reader.pc with
    | search =>
      dsimp only
      split_ifs <;> exact ⟨rfl, rfl, rfl, rfl⟩
    | read =>
      dsimp only
      split_ifs <;> exact ⟨rfl, rfl, rfl, rfl⟩
    | print offset => exact ⟨rfl, rfl, rfl, rfl⟩
    | clear offset => exact ⟨rfl, rfl, rfl, rfl⟩
    | done => exact ⟨rfl, rfl, rfl, rfl⟩
  obtain ⟨hstored, hpending, hpushed, hidx⟩ := hfields
  constructor
  · rw [hstored, hpending, hpushed]
    exact hs.stores
  · rw [hpending, hidx, hpushed]
    exact hs.idle
  · rw [hpending, hidx, hpushed]
    exact hs.busy

/-- A step of the monitor takes a word, clears one, or leaves the words. -/
theorem shared_monitorStep (s : Sharing) :
    s.monitorStep.shared = s.shared ∨
      ∃ event, SharedWords.next (-1) s.shared event = some s.monitorStep.shared := by
  obtain ⟨profiler, pending, ⟨index, pc, rows⟩, pushed, stored, printed, raced⟩ := s
  cases pc with
  | search =>
    refine Or.inl ?_
    simp only [monitorStep]
    split_ifs <;> rfl
  | read =>
    refine Or.inl ?_
    simp only [monitorStep]
    split_ifs <;> rfl
  | print offset => exact Or.inr ⟨.take index, rfl⟩
  | clear offset =>
    refine Or.inr ⟨.clear, ?_⟩
    fin_cases offset <;> rfl
  | done => exact Or.inl rfl

/-- A push starts with the stores of its number. -/
theorem Pushing.push {s : Sharing} (hs : s.Pushing) (hidle : s.pending = []) (sample : Sample) :
    Pushing { s with
      pending := vmemBufStores s.profiler sample
      pushed := s.pushed ++ [sample] } where
  stores := by
    have hbefore : s.stored = storesOf s.pushed := by
      rw [← hs.stores, hidle, List.append_nil]
    have hstores : vmemBufStores s.profiler sample = sample.storesAt s.pushed.length := by
      rw [Sample.storesAt, vmemBufStores, vmemBufStores, hs.idle hidle]
    rw [hbefore, hstores, storesOf_concat]
  idle := fun hnone ↦ absurd hnone (List.cons_ne_nil _ _)
  busy := by
    intro _
    rw [List.length_append, List.length_singleton, Nat.add_sub_cancel]
    exact ⟨List.append_ne_nil_of_right_ne_nil _ (List.cons_ne_nil _ _), hs.idle hidle⟩

/-- A store is the next one of the push in progress. -/
theorem Pushing.storeNext {s : Sharing} (hs : s.Pushing) {i : ℕ} {value : Int64}
    {rest : List (ℕ × Int64)} (hpending : s.pending = (i, value) :: rest) :
    (s.storeNext i value rest).Pushing where
  stores := by
    have hstores := hs.stores
    rw [hpending] at hstores
    simp only [Sharing.storeNext, List.append_assoc, List.singleton_append]
    exact hstores
  idle := by
    intro hrest
    have hnil : rest = [] := hrest
    obtain ⟨hpushed, hidx⟩ := hs.busy (by rw [hpending]; exact List.cons_ne_nil _ _)
    have hpos : s.pushed.length - 1 + 1 = s.pushed.length :=
      Nat.succ_pred_eq_of_pos (List.length_pos_iff.mpr hpushed)
    change (if rest = [] then if vmemSize ≤ 4 * (s.profiler.vmemIdx + 1) then 0
      else s.profiler.vmemIdx + 1 else s.profiler.vmemIdx) = s.pushed.length % vmemRows
    rw [if_pos hnil, hidx, vmemIdx_after, hpos]
  busy := by
    intro hrest
    have hne : rest ≠ [] := hrest
    obtain ⟨hpushed, hidx⟩ := hs.busy (by rw [hpending]; exact List.cons_ne_nil _ _)
    exact ⟨hpushed, (if_neg hne).trans hidx⟩

/-- A step of the monitor keeps its index within the bound. -/
theorem index_monitorStep_le {s : Sharing} (hs : s.reader.index ≤ bufdMax) :
    s.monitorStep.reader.index ≤ bufdMax := by
  unfold monitorStep
  cases s.reader.pc with
  | search =>
    dsimp only
    split_ifs with hlt
    · exact hs
    · exact hlt
    · exact hs
  | read =>
    dsimp only
    split_ifs <;> exact hs
  | print offset => exact hs
  | clear offset =>
    dsimp only
    split_ifs <;> omega
  | done => exact hs

/-- No rows are counted before the read loop. -/
theorem rows_monitorStep_eq {s : Sharing} (hs : s.reader.pc = .search → s.reader.rows = 0)
    (hpc : s.monitorStep.reader.pc = .search) : s.monitorStep.reader.rows = 0 := by
  obtain ⟨profiler, pending, ⟨index, pc, rows⟩, pushed, stored, printed, raced⟩ := s
  cases pc with
  | search =>
    simp only [monitorStep] at hpc ⊢
    split_ifs <;> exact hs rfl
  | read =>
    simp only [monitorStep] at hpc
    split_ifs at hpc
  | print offset => cases hpc
  | clear offset => fin_cases offset <;> cases hpc
  | done => cases hpc

/-- Every event keeps the invariant. -/
theorem Inv.next {s later : Sharing} (hs : s.Inv) {event : SharingEvent}
    (hnext : s.next event = some later) : later.Inv := by
  cases event with
  | push sample =>
    simp only [Sharing.next] at hnext
    split_ifs at hnext with hidle
    obtain rfl := Option.some.inj hnext
    exact ⟨hs.pushing.push hidle sample, hs.index_le, hs.rows_eq, hs.reachable⟩
  | store =>
    cases hpending : s.pending with
    | nil => simp [Sharing.next, hpending] at hnext
    | cons first rest =>
      obtain ⟨i, value⟩ := first
      simp only [Sharing.next, hpending] at hnext
      obtain rfl := Option.some.inj hnext
      have hshared : SharedWords.next (-1) s.shared (.store i value) =
          some (s.storeNext i value rest).shared := rfl
      exact ⟨hs.pushing.storeNext hpending, hs.index_le, hs.rows_eq,
        hs.reachable.step trivial hshared⟩
  | monitor =>
    obtain rfl := Option.some.inj hnext
    refine ⟨hs.pushing.monitorStep, index_monitorStep_le hs.index_le,
      rows_monitorStep_eq hs.rows_eq, ?_⟩
    rcases s.shared_monitorStep with hsame | ⟨event, hevent⟩
    · rw [hsame]
      exact hs.reachable
    · exact hs.reachable.step trivial hevent
  | restart =>
    simp only [Sharing.next] at hnext
    split_ifs at hnext with hdone
    obtain rfl := Option.some.inj hnext
    have hshared : shared { s with reader := .start } = s.shared := by
      have htaking : s.taking = none := by
        unfold taking
        rw [hdone]
      simp only [shared, htaking]
      rfl
    refine ⟨⟨hs.pushing.stores, hs.pushing.idle, hs.pushing.busy⟩, Nat.zero_le _, fun _ ↦ rfl, ?_⟩
    rw [hshared]
    exact hs.reachable

/-- The invariant holds in every state of every run. -/
theorem inv_of_reachable {s : Sharing} (hreach : Reachable Sharing.next start s) : s.Inv :=
  hreach.invariant Inv
    ⟨⟨rfl, fun _ ↦ rfl, fun hbusy ↦ absurd rfl hbusy⟩, Nat.zero_le _, fun _ ↦ rfl, .refl⟩
    fun _ _ _ hbefore _ hnext ↦ hbefore.next hnext

/-! ### What is delivered -/

/-- What is printed of what is pushed. -/
structure Accounted (s : Sharing) : Prop where
  stores : s.stored ++ s.pending = storesOf s.pushed
  inside : ∀ entry ∈ storesOf s.pushed, entry.1 < vmemSize
  mapped : s.reader.index < mappedWords
  delivered : ∃ origins, s.shared.Delivered (fun _ ↦ 0) (-1) origins

/-- The stores of pushes are within the buffer. -/
theorem storesOf_lt {samples : List Sample} {entry : ℕ × Int64}
    (hentry : entry ∈ storesOf samples) : entry.1 < vmemSize := by
  obtain ⟨⟨sample, number⟩, -, hstore⟩ := List.mem_flatMap.mp hentry
  have hslot : number % vmemRows < vmemRows := Nat.mod_lt number (by decide)
  simp only [vmemRows, vmemSize] at hslot
  simp only [Sample.storesAt, vmemBufStores, List.mem_cons, List.not_mem_nil, or_false, vmemRows,
    vmemSize] at hstore ⊢
  rcases hstore with rfl | rfl | rfl | rfl
  all_goals
    dsimp only
    omega

/-- In every run of the profiler and the monitor at the same time, with their accesses in any order,
the profiler has made the stores of its pushes in their order, and what the monitor has printed is
-1 or one of these words or of the zeros at the start, each at most once. A stored word that is not
printed is still there, was overwritten, or was stored between the `printf` of its predecessor and
the assignment. -/
theorem wordsAccounted_of_reachable {s : Sharing} (hreach : Reachable Sharing.next start s) :
    s.Accounted := by
  have hinv := inv_of_reachable hreach
  have hmapped : bufdMax < mappedWords := by decide
  exact ⟨hinv.pushing.stores, fun _ hentry ↦ storesOf_lt hentry, hinv.index_le.trans_lt hmapped,
    SharedWords.delivered_of_reachable hinv.reachable⟩

/-- The first word of a push is stored between the `printf` of a zero and the assignment, and lost.
-/
theorem exists_wordsAccounted : ∃ s : Sharing, s.stored = [(0, 5)] ∧ s.printed = [(0, 0)] ∧
    s.raced = [0] ∧ s.profiler.vmemBuf 0 = -1 ∧ s.Accounted := by
  have hrun : ∃ s, Reachable Sharing.next start s ∧ s.stored = [(0, 5)] ∧ s.printed = [(0, 0)] ∧
      s.raced = [0] ∧ s.profiler.vmemBuf 0 = -1 :=
    exists_reachableUnder_of_run
      [.monitor, .monitor, .monitor, .push ⟨5, 1, 0, 0⟩, .store, .monitor]
      (by decide +kernel) (by decide +kernel)
  obtain ⟨s, hreach, hstored, hprinted, hraced, hword⟩ := hrun
  exact ⟨s, hstored, hprinted, hraced, hword, wordsAccounted_of_reachable hreach⟩

/-! ### The monitor comes to its end -/

/-- The place of the monitor in the machine that prints and clears a word in one step. -/
def ofMonitorPc : MonitorPc → ReaderPc
  | .search => .search
  | .read => .read
  | .word offset => .print offset
  | .done => .done

/-- The monitor is where the machine of its own is, and has printed as much since. -/
structure Mirrors (before : List Int64) (s : Sharing) (m : MonitorState) : Prop where
  buf : s.profiler.vmemBuf = m.buf
  index : s.reader.index = m.index
  pc : s.reader.pc = ofMonitorPc m.pc
  rows : s.reader.rows = m.rows
  printed : s.printed.map Prod.snd = before ++ m.printed

/-- A step of the machine of its own is one or two steps of the monitor. -/
theorem Mirrors.step {before : List Int64} {s : Sharing} {m : MonitorState}
    (hs : Mirrors before s m) : ∃ count, Mirrors before (monitorStep^[count] s) m.step := by
  obtain ⟨profiler, pending, ⟨index, pc, rows⟩, pushed, stored, printed, raced⟩ := s
  obtain ⟨buf, index', pc', printed', rows'⟩ := m
  obtain ⟨hbuf, hindex, hpc, hrows, hprinted⟩ := hs
  dsimp only at hbuf hindex hpc hrows hprinted
  subst hbuf hindex hpc hrows
  cases pc' with
  | search =>
    refine ⟨1, ?_⟩
    simp only [Function.iterate_one, monitorStep, ofMonitorPc, MonitorState.step]
    split_ifs
    · exact ⟨rfl, rfl, rfl, rfl, hprinted⟩
    · exact ⟨rfl, rfl, rfl, rfl, hprinted⟩
    · exact ⟨rfl, rfl, rfl, rfl, hprinted⟩
  | read =>
    refine ⟨1, ?_⟩
    simp only [Function.iterate_one, monitorStep, ofMonitorPc, MonitorState.step]
    split_ifs
    · exact ⟨rfl, rfl, rfl, rfl, hprinted⟩
    · exact ⟨rfl, rfl, rfl, rfl, hprinted⟩
  | word offset =>
    have hpc : afterClear offset = ofMonitorPc (MonitorState.afterWord offset) := by
      unfold afterClear MonitorState.afterWord
      split_ifs <;> rfl
    have hcount : (if afterClear offset = .read then rows + 1 else rows) =
        if offset = 3 then rows + 1 else rows := by
      refine if_congr ?_ rfl rfl
      rw [hpc, MonitorState.afterWord]
      split_ifs with hlast
      · exact iff_of_true rfl hlast
      · exact iff_of_false ReaderPc.noConfusion hlast
    refine ⟨2, rfl, rfl, hpc, hcount, ?_⟩
    change (printed ++ [(index, profiler.vmemBuf index)]).map Prod.snd =
      before ++ (printed' ++ [profiler.vmemBuf index])
    rw [List.map_append, hprinted, List.append_assoc]
    rfl
  | done => exact ⟨0, rfl, rfl, rfl, rfl, hprinted⟩

/-- Steps of the machine of its own are steps of the monitor. -/
theorem Mirrors.iterate {before : List Int64} {s : Sharing} {m : MonitorState}
    (hs : Mirrors before s m) (count : ℕ) :
    ∃ count', Mirrors before (monitorStep^[count'] s) (MonitorState.step^[count] m) := by
  induction count with
  | zero => exact ⟨0, hs⟩
  | succ count ih =>
    obtain ⟨steps, hsteps⟩ := ih
    obtain ⟨more, hmore⟩ := hsteps.step
    refine ⟨more + steps, ?_⟩
    rw [Function.iterate_add_apply, Function.iterate_succ_apply']
    exact hmore

/-- The monitor comes to its end. -/
def Ends (s : Sharing) : Prop := ∃ count, (monitorStep^[count] s).reader.pc = .done

/-- The monitor comes to its end when it does so from where some steps lead. -/
theorem Ends.of_iterate {s : Sharing} (count : ℕ) (hends : (monitorStep^[count] s).Ends) :
    s.Ends := by
  obtain ⟨more, hmore⟩ := hends
  refine ⟨more + count, ?_⟩
  rw [Function.iterate_add_apply]
  exact hmore

/-- The monitor comes to its end when the machine of its own does. -/
theorem Mirrors.ends {before : List Int64} {s : Sharing} {m : MonitorState}
    (hs : Mirrors before s m) {count : ℕ} (hdone : (MonitorState.step^[count] m).pc = .done) :
    s.Ends := by
  obtain ⟨steps, hsteps⟩ := hs.iterate count
  refine ⟨steps, ?_⟩
  rw [hsteps.pc, hdone]
  rfl

/-- The monitor mirrors the machine of its own at a place that both have. -/
theorem exists_mirrors (s : Sharing) (pc : MonitorPc) (hpc : s.reader.pc = ofMonitorPc pc)
    (rows : ℕ) (hrows : s.reader.rows = rows) :
    Mirrors (s.printed.map Prod.snd) s ⟨s.profiler.vmemBuf, s.reader.index, pc, [], rows⟩ :=
  ⟨rfl, rfl, hpc, hrows, (List.append_nil _).symm⟩

/-- The read loop comes to its end. -/
theorem ends_of_read {s : Sharing} (hpc : s.reader.pc = .read) (hindex : s.reader.index ≤ bufdMax) :
    s.Ends := by
  obtain ⟨count, index, hdrain⟩ :=
    (⟨s.profiler.vmemBuf, s.reader.index, hindex⟩ : Cursor).exists_iterate_drain [] s.reader.rows
  have hmirrors := s.exists_mirrors .read hpc _ rfl
  exact hmirrors.ends (congrArg MonitorState.pc hdrain)

/-- The monitor comes to its end when it does so from the next step on. -/
theorem Ends.of_step {s : Sharing} (hends : s.monitorStep.Ends) : s.Ends :=
  Ends.of_iterate 1 hends

/-- After the `printf` of a word comes the assignment. -/
theorem pc_monitorStep_print {s : Sharing} {offset : Fin 4} (hpc : s.reader.pc = .print offset) :
    s.monitorStep.reader.pc = .clear offset := by
  simp only [monitorStep, hpc]

/-- After the assignment to a word comes the next word, or the test of the loop. -/
theorem pc_monitorStep_clear {s : Sharing} {offset : Fin 4} (hpc : s.reader.pc = .clear offset) :
    s.monitorStep.reader.pc = afterClear offset := by
  simp only [monitorStep, hpc]

/-- A row that was begun is printed to its end, and the read loop goes on. -/
theorem ends_of_clear (left : ℕ) {s : Sharing} (offset : Fin 4) (hleft : offset.val + left = 3)
    (hpc : s.reader.pc = .clear offset) (hindex : s.reader.index ≤ bufdMax) : s.Ends := by
  induction left generalizing s offset with
  | zero =>
    have hlast : offset = 3 := Fin.ext (by simpa using hleft)
    have hread : s.monitorStep.reader.pc = .read := by
      rw [pc_monitorStep_clear hpc, hlast]
      rfl
    exact (ends_of_read hread (index_monitorStep_le hindex)).of_step
  | succ left ih =>
    have hne : offset ≠ 3 := by
      rintro rfl
      have hthree : 3 + (left + 1) = 3 := hleft
      omega
    have hprint : s.monitorStep.reader.pc = .print (offset + 1) :=
      (pc_monitorStep_clear hpc).trans (by rw [afterClear, MonitorState.afterWord, if_neg hne])
    have hnext : (offset + 1).val + left = 3 := by
      rw [Fin.val_add_one_of_lt (Fin.lt_last_iff_ne_last.mpr hne)]
      omega
    exact (ih (offset + 1) hnext (pc_monitorStep_print hprint)
      (index_monitorStep_le (index_monitorStep_le hindex))).of_step.of_step

/-- The search comes to its end, and the read loop after it. -/
theorem ends_of_search {s : Sharing} (hpc : s.reader.pc = .search)
    (hindex : s.reader.index ≤ bufdMax) (hrows : s.reader.rows = 0) : s.Ends := by
  obtain ⟨left, hleft, hle⟩ : ∃ left, s.reader.index = bufdMax - left ∧ left ≤ bufdMax :=
    ⟨bufdMax - s.reader.index, by omega, Nat.sub_le _ _⟩
  have hmirrors := s.exists_mirrors .search hpc 0 hrows
  rw [hleft] at hmirrors
  obtain ⟨count, hsearch⟩ := MonitorState.exists_iterate_search s.profiler.vmemBuf left hle
  obtain ⟨more, index, hdrain⟩ := (search s.profiler.vmemBuf left hle).exists_iterate_drain [] 0
  have hdone : (MonitorState.step^[more + count]
      ⟨s.profiler.vmemBuf, bufdMax - left, .search, [], 0⟩).pc = .done := by
    rw [Function.iterate_add_apply, hsearch, hdrain]
  exact hmirrors.ends hdone

/-- What the monitor does once no more is pushed: it comes to its end from wherever it is, and from
its start it does what `monitor` does. -/
structure Completes (s : Sharing) : Prop where
  ends : s.Ends
  alone : s.reader = .start → ∃ count, (monitorStep^[count] s).reader.pc = .done ∧
    (monitorStep^[count] s).profiler.vmemBuf = (monitor s.profiler.vmemBuf).2 ∧
      (monitorStep^[count] s).printed.map Prod.snd =
        s.printed.map Prod.snd ++ (monitor s.profiler.vmemBuf).1.flatMap Row.words

/-- From every state of every run of the profiler and the monitor at the same time, the monitor
comes to its end when no more is stored, also where a push was left in the middle. -/
theorem completes_of_reachable {s : Sharing} (hreach : Reachable Sharing.next start s) :
    s.Completes := by
  have hinv := inv_of_reachable hreach
  constructor
  · cases hpc : s.reader.pc with
    | search => exact ends_of_search hpc hinv.index_le (hinv.rows_eq hpc)
    | read => exact ends_of_read hpc hinv.index_le
    | print offset =>
      have hleft : offset.val + (3 - offset.val) = 3 := by omega
      exact (ends_of_clear _ offset hleft (pc_monitorStep_print hpc)
        (index_monitorStep_le hinv.index_le)).of_step
    | clear offset =>
      have hleft : offset.val + (3 - offset.val) = 3 := by omega
      exact ends_of_clear _ offset hleft hpc hinv.index_le
    | done => exact ⟨0, hpc⟩
  · intro hstart
    obtain ⟨count, index, hmonitor⟩ := exists_iterate_monitor s.profiler.vmemBuf
    have hmirrors : Mirrors (s.printed.map Prod.snd) s (.start s.profiler.vmemBuf) :=
      ⟨rfl, by rw [hstart]; rfl, by rw [hstart]; rfl, by rw [hstart]; rfl,
        (List.append_nil _).symm⟩
    obtain ⟨steps, hsteps⟩ := hmirrors.iterate count
    rw [hmonitor] at hsteps
    exact ⟨steps, hsteps.pc, hsteps.buf, hsteps.printed⟩

/-- The monitor is within a row, and the profiler within a push. -/
theorem exists_completes : ∃ s : Sharing, s.reader.pc = .clear 0 ∧ s.pending ≠ [] ∧
    s.Completes := by
  have hrun : ∃ s, Reachable Sharing.next start s ∧ s.reader.pc = .clear 0 ∧ s.pending ≠ [] :=
    exists_reachableUnder_of_run [.push ⟨5, 1, 0, 0⟩, .store, .monitor, .monitor, .monitor]
      (by decide +kernel) (by decide +kernel)
  obtain ⟨s, hreach, hpc, hpending⟩ := hrun
  exact ⟨s, hpc, hpending, completes_of_reachable hreach⟩

end Sharing

end KernelModules.FaultProfiler
