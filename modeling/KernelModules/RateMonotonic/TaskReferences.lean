import KernelModules.RateMonotonic.LinkedRecords

/-!
# Task references between sections

`Task_yeild`, `Task_deregister` and the dispatching thread look a record up in one section and use
it in a later one, with the lock dropped in between. In every state, each record that a later
section will use should still be listed, and `ct` should be NULL or listed (`NoStaleReference`).

The one step that takes a record out of the list is the last one of `Task_deregister`.
`noStaleReference_iff` says that a run keeps its references exactly when each of these steps removes
a record that no other thread is going to use, that the dispatching thread has not picked, and that
`ct` does not point to.
-/

set_option autoImplicit false
set_option relaxedAutoImplicit false

namespace KernelModules.RateMonotonic

open Foundation Scheduler

/-- The record that the rest of a call reads or writes. A yield that is woken uses its record no
more. -/
def Pc.uses : Pc → Option Addr
  | .yeildDeadline t => some t
  | .yeildArm t => some t
  | .yeildSleep t => some t
  | .yeildBlock t => some t
  | .deregCheck t => some t
  | .deregClear t => some t
  | .deregWake t => some t
  | .deregUnlink t => some t
  | _ => none

variable {ι : Type*}

/-- Every record that a later section of a call or of the dispatching thread will use is listed, and
`ct` is NULL or listed. -/
structure NoStaleReference (m : Machine ι) : Prop where
  thread : ∀ i t, (m.threads i).uses = some t → t ∈ m.sched.tl
  picked : ∀ h, m.dispatcher = .picked (some h) → h ∈ m.sched.tl
  ct : ∀ cur, m.sched.ct = some cur → cur ∈ m.sched.tl

/-- A removal takes out a record that no other thread uses any more, that the dispatching thread has
not picked, and that `ct` does not point to. -/
def RemovalFits (m : Machine ι) : Label ι → Prop
  | .thread i => ∀ t, m.threads i = .deregUnlink t → (m.sched.slab t).period ≠ 0 →
      (∀ j, j ≠ i → (m.threads j).uses ≠ some t) ∧ m.dispatcher ≠ .picked (some t) ∧
        m.sched.ct ≠ some t
  | _ => True

/-- A thread goes on with the record it used before, or has just looked up a listed one. -/
theorem ThreadStep.uses {platform : Platform} {locks : Locks} {now : UInt64} {pc later : Pc}
    {s t : Scheduler} (hstep : ThreadStep platform locks now s pc later t) {a : Addr}
    (ha : later.uses = some a) : pc.uses = some a ∨ a ∈ s.tl := by
  cases hstep with
  | yeildFound hfound =>
    cases ha
    exact .inr (mem_of_yeildLookup hfound).1
  | deregFound hfound =>
    cases ha
    exact .inr (mem_of_deregLookup hfound).1
  | _ => first | exact .inl ha | cases ha

namespace NoStaleReference

variable {m later : Machine ι}

/-- A step that keeps the list keeps the references. Assumes: that the records in use afterwards
were in use before or are listed. -/
theorem of_tl_subset (hm : NoStaleReference m) (htl : ∀ a ∈ m.sched.tl, a ∈ later.sched.tl)
    (hthread : ∀ i a, (later.threads i).uses = some a →
      (m.threads i).uses = some a ∨ a ∈ m.sched.tl)
    (hpicked : ∀ h, later.dispatcher = .picked (some h) →
      m.dispatcher = .picked (some h) ∨ h ∈ m.sched.tl)
    (hct : ∀ cur, later.sched.ct = some cur →
      m.sched.ct = some cur ∨ m.dispatcher = .picked (some cur)) : NoStaleReference later where
  thread := fun i a ha ↦ htl a ((hthread i a ha).elim (hm.thread i a) id)
  picked := fun h hh ↦ htl h ((hpicked h hh).elim (hm.picked h) id)
  ct := fun cur hcur ↦ htl cur ((hct cur hcur).elim (hm.ct cur) (hm.picked cur))

variable [DecidableEq ι] {platform : Platform} {locks : Locks}

/-- A step whose removal fits keeps the references. -/
theorem next (hm : NoStaleReference m) {label : Label ι}
    (hnext : RateMonotonic.next platform locks m label = some later)
    (hfits : RemovalFits m label) : NoStaleReference later := by
  cases next_spec hnext with
  | @thread i pc s hthread =>
    have huses := held_update Pc.uses (i := i) fun a ha ↦ hthread.uses ha
    have hct : ∀ cur, s.ct = some cur → m.sched.ct = some cur := fun cur hcur ↦
      hthread.ct_some hcur
    generalize hpc : m.threads i = before at hthread
    cases hthread.effect with
    | keep hsame =>
      exact hm.of_tl_subset (fun a ha ↦ hsame.tl ▸ ha) huses (fun _ hh ↦ .inl hh)
        fun cur hcur ↦ .inl (hct cur hcur)
    | insert =>
      exact hm.of_tl_subset (fun a ha ↦ List.mem_append_left _ ha) huses (fun _ hh ↦ .inl hh)
        fun cur hcur ↦ .inl (hct cur hcur)
    | @unlink task =>
      have hperiod : (m.sched.slab task).period ≠ 0 := by
        cases hthread with
        | unlink hperiod => exact hperiod
      obtain ⟨hothers, hpicked, hcur⟩ := hfits task hpc hperiod
      -- what stays in use is not the removed record
      have hstay : ∀ a ∈ m.sched.tl, a ≠ task → a ∈ m.sched.tl.erase task := fun a ha hne ↦
        (List.mem_erase_of_ne hne).mpr ha
      refine ⟨fun j a ha ↦ ?_, fun h hh ↦ ?_, fun cur hcur' ↦ ?_⟩
      · by_cases hj : j = i
        · simp only [hj, Function.update_self] at ha
          cases ha
        · simp only [Function.update_of_ne hj] at ha
          refine hstay a (hm.thread j a ha) ?_
          rintro rfl
          exact hothers j hj ha
      · refine hstay h (hm.picked h hh) ?_
        rintro rfl
        exact hpicked hh
      · have hbefore := hct cur hcur'
        refine hstay cur (hm.ct cur hbefore) ?_
        rintro rfl
        exact hcur hbefore
  | dispatcher hdispatcher =>
    refine hm.of_tl_subset (fun a ha ↦ hdispatcher.sameTasks.tl ▸ ha) (fun _ _ ha ↦ .inl ha) ?_ ?_
    · intro h hh
      exact .inr (hdispatcher.picked hh)
    · intro cur hcur
      exact hdispatcher.ct hcur
  | @fire a =>
    refine hm.of_tl_subset (fun b hb ↦ (sameTasks_fire m.sched a).tl ▸ hb) (fun _ _ ha ↦ .inl ha)
      (fun _ hh ↦ .inl hh) fun cur hcur ↦ .inl ?_
    rw [← fire_ct m.sched a]
    exact hcur
  | callbackWake =>
    exact hm.of_tl_subset (fun _ ha ↦ ha) (fun _ _ ha ↦ .inl ha) (fun _ hh ↦ .inl hh)
      fun _ hcur ↦ .inl hcur
  | tick =>
    exact hm.of_tl_subset (fun _ ha ↦ ha) (fun _ _ ha ↦ .inl ha) (fun _ hh ↦ .inl hh)
      fun _ hcur ↦ .inl hcur

/-- A removal that does not fit leaves a stale reference. Assumes: a list without repetition. -/
theorem not_next (hnodup : m.sched.tl.Nodup) {label : Label ι}
    (hnext : RateMonotonic.next platform locks m label = some later)
    (hnot : ¬ RemovalFits m label) : ¬ NoStaleReference later := by
  intro hlater
  refine hnot ?_
  cases next_spec hnext with
  | @thread i pc s hthread =>
    intro task hpc hperiod
    rw [hpc] at hthread
    cases hthread with
    | unlinkDivide hzero => exact absurd hzero hperiod
    | unlink =>
      have hgone : task ∉ m.sched.tl.erase task := hnodup.not_mem_erase
      refine ⟨fun j hj huses ↦ hgone (hlater.thread j task ?_), fun hpicked ↦ ?_, fun hcur ↦ ?_⟩
      · simp only [Function.update_of_ne hj]
        exact huses
      · exact hgone (hlater.picked task hpicked)
      · exact hgone (hlater.ct task hcur)
  | dispatcher => trivial
  | fire => trivial
  | callbackWake => trivial
  | tick => trivial

end NoStaleReference

variable [DecidableEq ι]

/-- In every run, of any threads and under any locks, all states are free of stale references if and
only if every removal fits. -/
theorem noStaleReference_iff (platform : Platform) (locks : Locks) (slab : Addr → Mp2TaskStruct)
    (now : UInt64) (calls : ι → Call) (labels : List (Label ι)) :
    Always (next platform locks) NoStaleReference (Machine.start (mp2Init slab) now calls) labels ↔
      Meets (next platform locks) RemovalFits (Machine.start (mp2Init slab) now calls) labels := by
  refine always_iff_meets (fun m ↦ Allocated m ∧ NoStaleReference m) (fun m hm ↦ hm.2) ?_ ?_
    ⟨.start slab now calls, ?_⟩ labels
  · rintro before label later ⟨halloc, hm⟩ hnext hfits
    exact ⟨halloc.next hnext, hm.next hnext hfits⟩
  · rintro before label later ⟨halloc, -⟩ hnext hnot
    exact NoStaleReference.not_next halloc.tl_nodup hnext hnot
  · refine ⟨fun _ _ ha ↦ ?_, fun _ hh ↦ ?_, fun _ hcur ↦ ?_⟩
    · cases ha
    · cases hh
    · cases hcur

/-- Thread 0 registers pid 1. Thread 1 looks pid 1 up to yield, thread 2 removes pid 1, and the next
section of thread 1, which may enter, uses the removed record. -/
theorem noStaleReference_lost :
    let calls : ℕ → Call := fun i ↦
      if i = 0 then .register ⟨1, 100, 10, some 1⟩ else if i = 1 then .yeild 1 else .deregister 1
    ∃ m, Reachable (next platformHz1000 mutexes) (Machine.start (mp2Init zeroSlab) 5 calls) m ∧
      ¬ NoStaleReference m ∧ (next platformHz1000 mutexes m (.thread 1)).isSome := by
  intro calls
  obtain ⟨m, hreach, huses, hgone, hsome⟩ : ∃ m, Reachable (next platformHz1000 mutexes)
      (Machine.start (mp2Init zeroSlab) 5 calls) m ∧ (m.threads 1).uses = some 0 ∧
        0 ∉ m.sched.tl ∧ (next platformHz1000 mutexes m (.thread 1)).isSome :=
    exists_reachableUnder_of_run [.thread 0, .thread 0, .thread 0, .thread 0, .thread 0, .thread 1,
      .thread 2, .thread 2, .thread 2] (by decide +kernel) (by decide +kernel)
  exact ⟨m, hreach, fun hm ↦ hgone (hm.thread 1 0 huses), hsome⟩

end KernelModules.RateMonotonic
