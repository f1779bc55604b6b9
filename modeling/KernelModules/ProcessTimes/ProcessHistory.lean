import KernelModules.ProcessTimes.ProcessList

/-!
# The history behind the process list

What the list of `MP1/mp1.c` should hold, told from the events alone: the registrations in the order
of their arrival, each with the ticks since (`history`). A registration whose pid was live at all of
them is listed, with the user time of the last one (`ofRegistration`).

`mp1Read_run` says that this is what a read finds after any events.
-/

set_option autoImplicit false
set_option relaxedAutoImplicit false

namespace KernelModules.ProcessTimes

open Foundation Mp1

/-! ### What is listed -/

/-- The ticks among events, with the user times they met. -/
def ticks : List Event → List Utimes
  | [] => []
  | .write _ :: later => ticks later
  | .tick utimes :: later => utimes :: ticks later

/-- The registrations among events, oldest first, each with the ticks since. -/
def history : List Event → List (UInt32 × List Utimes)
  | [] => []
  | .write text :: later => (text.pid, ticks later) :: history later
  | .tick _ :: later => history later

/-- The pid was live at every tick. -/
def LiveAtAll (pid : UInt32) (since : List Utimes) : Prop :=
  ∀ utimes ∈ since, (getCpuUse utimes pid).isSome = true

instance (pid : UInt32) (since : List Utimes) : Decidable (LiveAtAll pid since) :=
  inferInstanceAs (Decidable (∀ utimes ∈ since, (getCpuUse utimes pid).isSome = true))

/-- The user time at the last tick, and `start` if there has been none. -/
def timeAtLast (start : Int64) (pid : UInt32) (since : List Utimes) : Int64 :=
  match since.getLast? with
  | none => start
  | some utimes => ((getCpuUse utimes pid).getD 0).toInt64

/-- The process of a registration, by its pid and the ticks since: it is listed while its pid has
been live, with the user time at the last tick or 0. -/
def ofRegistration (registration : UInt32 × List Utimes) : Option Process :=
  if LiveAtAll registration.1 registration.2 then
    some ⟨registration.1, timeAtLast 0 registration.1 registration.2⟩
  else none

/-- The processes that should be listed after events. -/
def shouldList (events : List Event) : List Process := (history events).filterMap ofRegistration

/-! ### Ticks on a process -/

/-- A process after ticks, if its pid was live at all of them. -/
def afterTicks (since : List Utimes) (process : Process) : Option Process :=
  if LiveAtAll process.pid since then some ⟨process.pid, timeAtLast process.time process.pid since⟩
  else none

/-- A registration is a process with time 0 before the ticks since. -/
theorem ofRegistration_eq (pid : UInt32) (since : List Utimes) :
    ofRegistration (pid, since) = afterTicks since ⟨pid, 0⟩ := rfl

/-- Ticks refresh a process one after another. -/
theorem afterTicks_cons (utimes : Utimes) (since : List Utimes) (process : Process) :
    afterTicks (utimes :: since) process = (refreshed utimes process).bind (afterTicks since) := by
  cases huse : getCpuUse utimes process.pid with
  | none =>
    have hdead : ¬ LiveAtAll process.pid (utimes :: since) := by
      intro hlive
      have hsome := hlive utimes List.mem_cons_self
      rw [huse] at hsome
      cases hsome
    rw [afterTicks, if_neg hdead, refreshed, huse]
    rfl
  | some cpuUse =>
    have hlive : LiveAtAll process.pid (utimes :: since) ↔ LiveAtAll process.pid since := by
      simp [LiveAtAll, huse]
    have htime : timeAtLast process.time process.pid (utimes :: since) =
        timeAtLast cpuUse.toInt64 process.pid since := by
      cases since with
      | nil =>
        simp only [timeAtLast, List.getLast?_singleton, huse, Option.getD_some, List.getLast?_nil]
      | cons other rest =>
        rw [timeAtLast, timeAtLast, List.getLast?_cons_cons]
        rfl
    rw [refreshed, huse, Option.map_some, Option.bind_some, afterTicks, afterTicks]
    simp only [hlive, htime]

/-- Without a tick a process stays. -/
theorem afterTicks_nil (process : Process) : afterTicks [] process = some process :=
  if_pos fun _ hmem ↦ absurd hmem List.not_mem_nil

/-! ### Runs -/

/-- What a list of processes and the events after it come to: the processes after the ticks, and the
registrations. -/
theorem Mp1.Represents.run {s : Mp1} {nodes : List Addr} {processes : List Process}
    (hs : s.Represents nodes processes) (events : List Event) :
    ∃ last nodes, Foundation.run next s events = some last ∧
      last.Represents nodes
        (processes.filterMap (afterTicks (ticks events)) ++ shouldList events) := by
  induction events generalizing s nodes processes with
  | nil =>
    refine ⟨s, nodes, rfl, ?_⟩
    rw [show afterTicks (ticks []) = some from funext afterTicks_nil, List.filterMap_some,
      shouldList, history, List.filterMap_nil, List.append_nil]
    exact hs
  | cons event later ih =>
    cases event with
    | write text =>
      obtain ⟨middle, hmiddle, hwritten⟩ := hs.write text
      obtain ⟨last, nodes, hlast, hend⟩ := ih hwritten
      refine ⟨last, nodes, by rw [Foundation.run, hmiddle]; exact hlast, ?_⟩
      have hnew : shouldList (.write text :: later) =
          [⟨text.pid, 0⟩].filterMap (afterTicks (ticks later)) ++ shouldList later := by
        rw [shouldList, history, List.filterMap_cons, List.filterMap_cons, ofRegistration_eq]
        cases hprocess : afterTicks (ticks later) ⟨text.pid, 0⟩ with
        | none => rw [List.filterMap_nil, List.nil_append, shouldList]
        | some process => rw [List.filterMap_nil, List.singleton_append, shouldList]
      rw [List.filterMap_append, List.append_assoc, ← hnew] at hend
      rw [ticks]
      exact hend
    | tick utimes =>
      obtain ⟨middle, kept, hmiddle, hticked⟩ := hs.tick utimes
      obtain ⟨last, nodes, hlast, hend⟩ := ih hticked
      refine ⟨last, nodes, by rw [Foundation.run, hmiddle]; exact hlast, ?_⟩
      rw [List.filterMap_filterMap] at hend
      rw [show afterTicks (ticks (.tick utimes :: later)) = fun process ↦
        (refreshed utimes process).bind (afterTicks (ticks later)) from
          funext (afterTicks_cons utimes (ticks later))]
      exact hend

/-- After any registrations and ticks in any order, a read finds the registrations whose pid was
live at every tick since, in the order of their arrival, with the user times of the last tick since.
-/
theorem mp1Read_run (process : Addr → Process) (list : Links Addr) (events : List Event) :
    (run next (mp1Init process list) events).bind mp1Read = some (shouldList events) := by
  obtain ⟨last, nodes, hlast, hend⟩ := (Represents.mp1Init process list).run events
  rw [hlast, Option.bind_some, hend.mp1Read, List.filterMap_nil, List.nil_append]

/-- Two registrations in a row are gone at the same tick, and one more comes after it. -/
example : (run next (mp1Init (fun _ ↦ ⟨0, 0⟩) ⟨fun _ ↦ none, fun _ ↦ none⟩)
    [.write (.echo 5), .write (.echo 6), .write (.echo 6), .write (.echo 7),
      .tick fun pid ↦ if pid = 6 then none else some 40, .write (.echo 6)]).bind mp1Read =
    some [⟨5, 40⟩, ⟨7, 40⟩, ⟨6, 0⟩] := by
  decide +kernel

end KernelModules.ProcessTimes
