import KernelModules.Foundation.DecimalText
import KernelModules.Foundation.ListHead
import KernelModules.Foundation.TransitionSystem

/-!
# The process list

The list of `MP1/mp1.c` in memory, with `mp1_write`, `mp1_time_handler` and the loop of `mp1_read`
over its pointers, and `get_cpu_use` of `mp1_given.h`. `kmalloc` never fails and returns an address
that was never handed out before. The number of addresses is the fuel of the loops, which is more
than a list can need; a loop that follows a poisoned pointer has no result.

`Mp1.Represents` says that the pointers make a ring of the nodes of a list of processes. A write
appends to that list (`Mp1.Represents.write`), and a tick refreshes the times of its processes and
drops those that are gone, however they stand in a row (`Mp1.Represents.tick`).
-/

set_option autoImplicit false
set_option relaxedAutoImplicit false

namespace KernelModules.ProcessTimes

open Foundation

/-! ### Memory -/

/-- The address of a `struct Process`. -/
abbrev Addr := ℕ

/-- `p_list`, the head of the list. -/
def pList : Addr := 0

/-- `struct Process`, but for its pointers. -/
structure Process where
  pid : UInt32
  time : Int64
  deriving DecidableEq

/-- The globals of the module: the processes and their pointers by address, with the next address
that `kmalloc` hands out, and the timer. -/
structure Mp1 where
  process : Addr → Process
  list : Links Addr
  fresh : Addr
  timerStart : Bool
  timerPending : Bool

/-- The user times of the live processes of the system. -/
abbrev Utimes := Int32 → Option UInt64

/-- `get_cpu_use`, whose argument is an `int`. -/
def getCpuUse (utimes : Utimes) (pid : UInt32) : Option UInt64 := utimes pid.toInt32

/-! ### The operations -/

namespace Mp1

/-- The state that `mp1_init` leaves, over memory of arbitrary content. -/
def mp1Init (process : Addr → Process) (list : Links Addr) : Mp1 where
  process := process
  list := list.initListHead pList
  fresh := pList + 1
  timerStart := false
  timerPending := false

/-- `kmalloc` of a process, the assignments to its fields, and `INIT_LIST_HEAD`. The process is at
the address `s.fresh`. -/
@[simps] def kmalloc (s : Mp1) (process : Process) : Mp1 :=
  { s with
    process := Function.update s.process s.fresh process
    list := s.list.initListHead s.fresh
    fresh := s.fresh + 1 }

/-- `list_add_tail(&new->list, &p_list.list)`. -/
def listAddTail (s : Mp1) (new : Addr) : Option Mp1 :=
  (s.list.listAddTail new pList).map fun list ↦ { s with list := list }

/-- `list_del(&itr->list)` and `kfree(itr)`. -/
def listDel (s : Mp1) (itr : Addr) : Option Mp1 :=
  (s.list.listDel itr).map fun list ↦ { s with list := list }

/-- The timer is set at the first write. -/
def startTimer (s : Mp1) : Mp1 :=
  if s.timerStart then s else { s with timerStart := true, timerPending := true }

@[simp] theorem startTimer_process (s : Mp1) : s.startTimer.process = s.process := by
  unfold startTimer
  split_ifs <;> rfl

@[simp] theorem startTimer_list (s : Mp1) : s.startTimer.list = s.list := by
  unfold startTimer
  split_ifs <;> rfl

@[simp] theorem startTimer_fresh (s : Mp1) : s.startTimer.fresh = s.fresh := by
  unfold startTimer
  split_ifs <;> rfl

@[simp] theorem startTimer_timerStart (s : Mp1) : s.startTimer.timerStart = true := by
  unfold startTimer
  split_ifs with hstart
  · exact hstart
  · rfl

theorem startTimer_timerPending {s : Mp1} (hpending : s.timerPending = s.timerStart) :
    s.startTimer.timerPending = true := by
  unfold startTimer
  split_ifs with hstart
  · exact hpending.trans hstart
  · rfl

/-- `mp1_write`: the returned count, and the state after the call. -/
def mp1Write (s : Mp1) (buf : Text) : Option (ℕ × Mp1) :=
  (scanUnsigned buf).bind fun pid ↦
    ((s.kmalloc ⟨pid, 0⟩).listAddTail s.fresh).map fun s ↦ (buf.length, s.startTimer)

/-- Assigns the time of a process. -/
@[simps] def setTime (s : Mp1) (itr : Addr) (time : Int64) : Mp1 :=
  { s with process := Function.update s.process itr ⟨(s.process itr).pid, time⟩ }

/-- The body of the loop of `mp1_time_handler`. -/
def refresh (utimes : Utimes) (itr : Addr) (s : Mp1) : Option Mp1 :=
  match getCpuUse utimes (s.process itr).pid with
  | none => s.listDel itr
  | some cpuUse => some (s.setTime itr cpuUse.toInt64)

/-- `mp1_time_handler`. -/
def mp1TimeHandler (s : Mp1) (utimes : Utimes) : Option Mp1 :=
  (Links.listForEachEntrySafe Mp1.list pList (refresh utimes) s.fresh s).map fun s ↦
    { s with timerPending := true }

/-- The processes that the loop of `mp1_read` prints. -/
def mp1Read (s : Mp1) : Option (List Process) :=
  (s.list.listForEachEntry pList s.fresh).map fun nodes ↦ nodes.map s.process

end Mp1

/-! ### The system -/

/-- A text in which `sscanf` finds a pid, with a byte behind its digits. A text that its digits end
is left out: `mp1_write` puts no zero behind the bytes written, so `sscanf` reads on into whatever
the memory holds there, and the pid may be another. -/
structure PidText where
  text : Text
  pid : UInt32
  scan_text : scanUnsigned text = some pid

/-- What `echo` writes for a pid. -/
def PidText.echo (pid : UInt32) : PidText where
  text := decimal pid.toNat ++ bytes "\n"
  pid := pid
  scan_text := scanUnsigned_decimal pid (by decide) []

/-- A write to `/proc/mp1/status`, or a tick of the timer with the user times it meets. -/
inductive Event
  | write (text : PidText)
  | tick (utimes : Utimes)

namespace Mp1

/-- The step of the system. A tick runs the handler of the timer when it is pending. -/
def next (s : Mp1) : Event → Option Mp1
  | .write text => (s.mp1Write text.text).map Prod.snd
  | .tick utimes =>
    if s.timerPending then mp1TimeHandler { s with timerPending := false } utimes else some s

/-! ### What the pointers represent -/

/-- The pointers make a ring of the nodes, which are the processes of the list. The timer is pending
once there has been a process. -/
structure Represents (s : Mp1) (nodes : List Addr) (processes : List Process) : Prop where
  ring : s.list.Ring pList nodes
  allocated : ∀ node ∈ pList :: nodes, node < s.fresh
  process : nodes.map s.process = processes
  pending : s.timerPending = s.timerStart
  unstarted : s.timerStart = false → nodes = []

/-- A process after a tick. -/
def refreshed (utimes : Utimes) (process : Process) : Option Process :=
  (getCpuUse utimes process.pid).map fun cpuUse ↦ ⟨process.pid, cpuUse.toInt64⟩

/-- The nodes of a ring are fewer than the addresses. -/
theorem length_lt_of_ring {l : Links Addr} {nodes : List Addr} {fresh : Addr}
    (hring : l.Ring pList nodes) (halloc : ∀ node ∈ pList :: nodes, node < fresh) :
    nodes.length < fresh := by
  have hsubset : (pList :: nodes).toFinset ⊆ Finset.range fresh := by
    intro node hnode
    exact Finset.mem_range.mpr (halloc node (List.mem_toFinset.mp hnode))
  have hcard := Finset.card_le_card hsubset
  rw [List.toFinset_card_of_nodup hring.nodup, Finset.card_range, List.length_cons] at hcard
  exact hcard

namespace Represents

variable {s : Mp1} {nodes : List Addr} {processes : List Process}

/-- The state of a new module represents the empty list. -/
theorem mp1Init (process : Addr → Process) (list : Links Addr) :
    (Mp1.mp1Init process list).Represents [] [] where
  ring := Links.Ring.initListHead list pList
  allocated := by
    intro node hnode
    rw [List.mem_singleton.mp hnode]
    exact Nat.lt_succ_self pList
  process := rfl
  pending := rfl
  unstarted _ := rfl

/-- A read prints the processes of the list. -/
theorem mp1Read (hs : s.Represents nodes processes) : s.mp1Read = some processes := by
  rw [Mp1.mp1Read, hs.ring.listForEachEntry (length_lt_of_ring hs.ring hs.allocated),
    Option.map_some, hs.process]

/-- A write appends its pid. -/
theorem write (hs : s.Represents nodes processes) (text : PidText) :
    ∃ later, s.next (.write text) = some later ∧
      later.Represents (nodes ++ [s.fresh]) (processes ++ [⟨text.pid, 0⟩]) := by
  have hfresh : s.fresh ∉ pList :: nodes := fun hmem ↦ Nat.lt_irrefl _ (hs.allocated _ hmem)
  obtain ⟨list, hlist, hring⟩ := (hs.ring.initListHead_of_notMem hfresh).listAddTail hfresh
  refine ⟨startTimer { s.kmalloc ⟨text.pid, 0⟩ with list := list }, ?_, ?_⟩
  · rw [next, mp1Write, text.scan_text, Option.bind_some, Mp1.listAddTail, kmalloc_list, hlist]
    rfl
  · refine ⟨?_, fun node hnode ↦ ?_, ?_, ?_, fun hstart ↦ ?_⟩
    · rw [startTimer_list]
      exact hring
    · rw [startTimer_fresh]
      rw [← List.cons_append] at hnode
      rcases List.mem_append.mp hnode with hnode | hnode
      · exact Nat.lt_succ_of_lt (hs.allocated node hnode)
      · rw [List.mem_singleton.mp hnode]
        exact Nat.lt_succ_self s.fresh
    · rw [startTimer_process, List.map_append, List.map_singleton, ← hs.process]
      congr 1
      · refine List.map_congr_left fun node hnode ↦ Function.update_of_ne ?_ ..
        rintro rfl
        exact hfresh (List.mem_cons_of_mem pList hnode)
      · exact congrArg (fun process ↦ [process]) (Function.update_self ..)
    · rw [startTimer_timerStart]
      exact startTimer_timerPending hs.pending
    · rw [startTimer_timerStart] at hstart
      cases hstart

end Represents

/-- The loop of a tick: the nodes it has kept make a ring with the nodes to do, and represent the
refreshed processes of the nodes done. -/
structure Ticking (s : Mp1) (utimes : Utimes) (done rest kept : List Addr) (now : Mp1) : Prop where
  ring : now.list.Ring pList (kept ++ rest)
  kept_done : ∀ node ∈ kept, node ∈ done
  process_kept : kept.map now.process = (done.map s.process).filterMap (refreshed utimes)
  process_rest : rest.map now.process = rest.map s.process
  fresh : now.fresh = s.fresh
  timerStart : now.timerStart = s.timerStart

/-- The body of the loop refreshes its node, or removes it. -/
theorem Ticking.refresh {s now : Mp1} {utimes : Utimes} {done rest kept : List Addr} {node : Addr}
    (hnow : Ticking s utimes done (node :: rest) kept now) :
    ∃ later, Mp1.refresh utimes node now = some later ∧
      ∃ kept, Ticking s utimes (done ++ [node]) rest kept later := by
  obtain ⟨hnode, hrest⟩ := List.cons_eq_cons.mp
    (show now.process node :: rest.map now.process = s.process node :: rest.map s.process from
      hnow.process_rest)
  have hdone : ∀ other ∈ kept, other ∈ done ++ [node] := fun other hother ↦
    List.mem_append_left [node] (hnow.kept_done other hother)
  cases huse : getCpuUse utimes (now.process node).pid with
  | none =>
    obtain ⟨list, hlist, hring⟩ := hnow.ring.listDel
    refine ⟨{ now with list := list }, ?_, kept, hring, hdone, ?_, hrest, hnow.fresh,
      hnow.timerStart⟩
    · simp only [Mp1.refresh, huse, Mp1.listDel, hlist, Option.map_some]
    · have hgone : refreshed utimes (s.process node) = none := by
        rw [refreshed, ← hnode, huse]
        rfl
      rw [List.map_append, List.filterMap_append, List.map_singleton,
        List.filterMap_cons_none hgone, List.filterMap_nil, List.append_nil]
      exact hnow.process_kept
  | some cpuUse =>
    have hring : now.list.Ring pList (kept ++ [node] ++ rest) := by
      rw [List.append_assoc]
      exact hnow.ring
    obtain ⟨-, hnodup⟩ := List.nodup_cons.mp hnow.ring.nodup
    obtain ⟨-, hnodupRest, hdisjoint⟩ := List.nodup_append.mp hnodup
    -- the write to the node changes no other node of the ring
    have hother : ∀ nodes : List Addr, node ∉ nodes →
        nodes.map (now.setTime node cpuUse.toInt64).process = nodes.map now.process := by
      intro nodes hnotMem
      refine List.map_congr_left fun other hmem ↦ Function.update_of_ne ?_ ..
      rintro rfl
      exact hnotMem hmem
    refine ⟨now.setTime node cpuUse.toInt64, by simp only [Mp1.refresh, huse], kept ++ [node],
      hring, fun other hmem ↦ ?_, ?_, ?_, hnow.fresh, hnow.timerStart⟩
    · rcases List.mem_append.mp hmem with hmem | hmem
      · exact hdone other hmem
      · exact List.mem_append_right done hmem
    · have hstays : refreshed utimes (s.process node) =
          some { now.process node with time := cpuUse.toInt64 } := by
        rw [refreshed, ← hnode, huse]
        rfl
      rw [List.map_append, hother kept fun hmem ↦ hdisjoint node hmem node List.mem_cons_self rfl,
        hnow.process_kept, List.map_append, List.filterMap_append, List.map_singleton,
        List.map_singleton, setTime_process, Function.update_self, List.filterMap_cons_some hstays,
        List.filterMap_nil]
    · rw [hother rest (List.nodup_cons.mp hnodupRest).1]
      exact hrest

/-- A tick refreshes the times of the processes and drops those that are gone. -/
theorem Represents.tick {s : Mp1} {nodes : List Addr} {processes : List Process}
    (hs : s.Represents nodes processes) (utimes : Utimes) :
    ∃ later kept, s.next (.tick utimes) = some later ∧
      later.Represents kept (processes.filterMap (refreshed utimes)) := by
  cases hpending : s.timerPending with
  | false =>
    have hstart : s.timerStart = false := hs.pending.symm.trans hpending
    have hnodes : nodes = [] := hs.unstarted hstart
    refine ⟨s, nodes, by rw [next, hpending]; rfl, ?_⟩
    rw [← hs.process, hnodes]
    exact ⟨hnodes ▸ hs.ring, hnodes ▸ hs.allocated, rfl, hs.pending, fun _ ↦ rfl⟩
  | true =>
    have hring : ({ s with timerPending := false } : Mp1).list.Ring pList nodes := hs.ring
    have hstart : Ticking s utimes [] nodes [] { s with timerPending := false } :=
      ⟨hring, fun _ hmem ↦ absurd hmem List.not_mem_nil, rfl, rfl, rfl, rfl⟩
    obtain ⟨later, hlater, kept, hkept⟩ : ∃ later,
        Links.listForEachEntrySafe Mp1.list pList (Mp1.refresh utimes) s.fresh
          { s with timerPending := false } = some later ∧
            ∃ kept, Ticking s utimes nodes [] kept later :=
      Links.exists_listForEachEntrySafe
        (fun done rest now ↦ ∃ kept, Ticking s utimes done rest kept now)
        (fun _ _ _ ⟨kept, hnow⟩ ↦ ⟨kept, hnow.ring⟩) (fun _ _ _ _ ⟨_, hnow⟩ ↦ hnow.refresh)
        hring ⟨[], hstart⟩ (length_lt_of_ring hs.ring hs.allocated)
    refine ⟨{ later with timerPending := true }, kept, ?_, ?_⟩
    · rw [next, hpending, if_pos rfl, mp1TimeHandler, hlater]
      rfl
    · refine ⟨?_, fun node hnode ↦ ?_, ?_, ?_, fun hstart ↦ ?_⟩
      · have hring := hkept.ring
        rw [List.append_nil] at hring
        exact hring
      · rw [hkept.fresh]
        rcases List.mem_cons.mp hnode with rfl | hmem
        · exact hs.allocated _ List.mem_cons_self
        · exact hs.allocated node (List.mem_cons_of_mem pList (hkept.kept_done node hmem))
      · rw [← hs.process]
        exact hkept.process_kept
      · exact (hpending.symm.trans (hs.pending.trans hkept.timerStart.symm))
      · rw [hkept.timerStart, ← hs.pending, hpending] at hstart
        cases hstart

end Mp1

end KernelModules.ProcessTimes
