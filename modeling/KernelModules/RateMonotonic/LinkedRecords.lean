import KernelModules.RateMonotonic.Interleaving

/-!
# Records under interleaving

What a step of the interleaved machine does to the records, whichever thread takes it. A step links
a new record, unlinks one, or keeps the list and what registration fixes (`RecordEffect`); a lookup
only finds listed records, so that a thread never holds an address that was not allocated; and
`ct` moves to NULL or to the record the dispatching thread picked.

From this, in every state of every run, no record is linked twice, every address in use is
allocated, and the timer of a listed record carries its pid (`Allocated`).
-/

set_option autoImplicit false
set_option relaxedAutoImplicit false

namespace KernelModules.RateMonotonic

open Foundation Scheduler

/-! ### One step of a thread -/

/-- The second state lists the same records as the first, with the same fixed fields. -/
structure SameRecords (s t : Scheduler) : Prop where
  tl : t.tl = s.tl
  fresh : t.fresh = s.fresh
  fixed : ∀ a, (t.slab a).fixed = (s.slab a).fixed

/-- Steps that keep the tasks keep the records. -/
theorem SameTasks.sameRecords {s t : Scheduler} (hsame : SameTasks s t) : SameRecords s t :=
  ⟨hsame.tl, hsame.fresh, hsame.fixed⟩

namespace SameRecords

variable {s t : Scheduler}

theorem of_slab_eq (htl : t.tl = s.tl) (hfresh : t.fresh = s.fresh) (hslab : t.slab = s.slab) :
    SameRecords s t :=
  ⟨htl, hfresh, fun a ↦ by rw [hslab]⟩

theorem pid (hsame : SameRecords s t) (a : Addr) : (t.slab a).pid = (s.slab a).pid :=
  congrArg (·.1) (hsame.fixed a)

theorem period (hsame : SameRecords s t) (a : Addr) : (t.slab a).period = (s.slab a).period :=
  congrArg (·.2.1) (hsame.fixed a)

theorem timerData (hsame : SameRecords s t) (a : Addr) :
    (t.slab a).timer.data = (s.slab a).timer.data :=
  congrArg (·.2.2.2.2) (hsame.fixed a)

end SameRecords

/-- An early return keeps the tasks. -/
theorem sameTasks_leave (locks : Locks) (s : Scheduler) : SameTasks s (locks.leave s) :=
  .of_slab_eq rfl rfl rfl rfl

/-- What a step of a thread does to the list and to the fixed fields. -/
inductive RecordEffect (s : Scheduler) : Pc → Pc → Scheduler → Prop
  | keep {pc later : Pc} {t : Scheduler} (hsame : SameRecords s t) : RecordEffect s pc later t
  | insert {q : Request} : RecordEffect s (.registerInsert q) (.returned 0) (s.insert q)
  | unlink {task : Addr} :
    RecordEffect s (.deregUnlink task) (.returned 0) (s.removeTask task).unlockTl

/-- A new deadline touches neither the timer nor the state of a record. -/
theorem advanceDdl_keeps (s : Scheduler) (platform : Platform) (now : UInt64) (t a : Addr) :
    ((s.advanceDdl platform now t).slab a).timer = (s.slab a).timer ∧
      ((s.advanceDdl platform now t).slab a).state = (s.slab a).state := by
  constructor
  · refine slab_modify_of_keep (fun task ↦ task.timer) ?_ s t a
    intro task
    rfl
  · refine slab_modify_of_keep (fun task ↦ task.state) ?_ s t a
    intro task
    rfl

/-- Arming a timer keeps the states. -/
theorem state_modTimer (s : Scheduler) (platform : Platform) (t a : Addr) :
    ((s.modTimer platform t).slab a).state = (s.slab a).state := by
  refine slab_modify_of_keep (fun task ↦ task.state) ?_ s t a
  intro task
  rfl

section Thread

variable {platform : Platform} {locks : Locks} {now : UInt64} {pc later : Pc} {s t : Scheduler}

/-- A step of a thread keeps the records, links one or unlinks one. -/
theorem ThreadStep.effect (hstep : ThreadStep platform locks now s pc later t) :
    RecordEffect s pc later t := by
  cases hstep with
  | insert => exact .insert
  | unlink => exact .unlink
  | miss =>
    exact .keep
      ((sameTasks_advanceDdl s platform now _).trans (sameTasks_leave locks _)).sameRecords
  | deadline =>
    exact .keep ((sameTasks_advanceDdl s platform now _).trans (sameTasks_lockTl _)).sameRecords
  | arm => exact .keep (sameTasks_modTimer s platform _).sameRecords
  | sleep => exact .keep (sameTasks_setState s _ .sleeping).sameRecords
  | _ => exact .keep (.of_slab_eq rfl rfl rfl)

/-- A step of a thread keeps or clears `ct`. -/
theorem ThreadStep.ct (hstep : ThreadStep platform locks now s pc later t) :
    t.ct = s.ct ∨ t.ct = none := by
  cases hstep with
  | clear => exact .inr rfl
  | deregClear => exact .inr rfl
  | _ => exact .inl rfl

/-- A step of a thread does not move `ct` to a task. -/
theorem ThreadStep.ct_some (hstep : ThreadStep platform locks now s pc later t) {cur : Addr}
    (hcur : t.ct = some cur) : s.ct = some cur := by
  rcases hstep.ct with hkept | hcleared
  · exact hkept ▸ hcur
  · rw [hcleared] at hcur
    cases hcur

/-- A thread holds on to its record, or has just looked up a listed one. -/
theorem ThreadStep.task (hstep : ThreadStep platform locks now s pc later t) {a : Addr}
    (ha : later.task = some a) : pc.task = some a ∨ a ∈ s.tl := by
  cases hstep with
  | yeildFound hfound =>
    cases ha
    exact .inr (mem_of_yeildLookup hfound).1
  | deregFound hfound =>
    cases ha
    exact .inr (mem_of_deregLookup hfound).1
  | _ => first | exact .inl ha | cases ha

end Thread

/-! ### The other steps -/

/-- The expiry of a timer keeps the tasks. -/
theorem sameTasks_fire (s : Scheduler) (a : Addr) : SameTasks s (s.fire a) :=
  (sameTasks_delTimer s a).trans (sameTasks_markReady (s.delTimer a) _)

/-- The expiry of a timer keeps `ct`. -/
theorem fire_ct (s : Scheduler) (a : Addr) : (s.fire a).ct = s.ct :=
  markReady_ct (s.delTimer a) _

/-- A step of the dispatching thread keeps the tasks. -/
theorem DispatcherStep.sameTasks {s t : Scheduler} {pc later : DispatcherPc}
    (hstep : DispatcherStep s pc later t) : SameTasks s t := by
  cases hstep with
  | setState => exact .of_slab_eq rfl rfl rfl rfl
  | sleep => exact .of_slab_eq rfl rfl rfl rfl
  | cancelled => exact .of_slab_eq rfl rfl rfl rfl
  | woken => exact .of_slab_eq rfl rfl rfl rfl
  | pick => exact sameTasks_unlockTl s
  | section_ => exact sameTasks_ctSection _ s
  | fault => exact sameTasks_ctSection _ s

/-- The section under `ct_lock` keeps `ct` or moves it to the selected task. -/
theorem ctSection_ct (highest : Option Addr) (s : Scheduler) :
    (ctSection highest s).state.ct = s.ct ∨ (ctSection highest s).state.ct = highest := by
  have hstep := ctSection_step s highest
  generalize ctSection highest s = result at hstep
  cases hstep with
  | start => exact .inr rfl
  | preempt => exact .inr rfl
  | _ => exact .inl rfl

/-- A step of the dispatching thread keeps `ct` or moves it to the task it picked. -/
theorem DispatcherStep.ct {s t : Scheduler} {pc later : DispatcherPc}
    (hstep : DispatcherStep s pc later t) {cur : Addr} (hcur : t.ct = some cur) :
    s.ct = some cur ∨ pc = .picked (some cur) := by
  have hsection : ∀ highest, (ctSection highest s).state.ct = some cur →
      s.ct = some cur ∨ DispatcherPc.picked highest = .picked (some cur) := by
    intro highest hct
    rcases ctSection_ct highest s with hkept | hmoved
    · exact .inl (hkept ▸ hct)
    · exact .inr (by rw [← hct, hmoved])
  cases hstep with
  | section_ => exact hsection _ hcur
  | fault => exact hsection _ hcur
  | _ => exact .inl hcur

/-- The dispatching thread has picked a task only by a selection, which finds listed tasks. -/
theorem DispatcherStep.picked {s t : Scheduler} {pc later : DispatcherPc}
    (hstep : DispatcherStep s pc later t) {h : Addr} (hpicked : later = .picked (some h)) :
    h ∈ s.tl := by
  cases hstep with
  | pick =>
    rw [DispatcherPc.picked.injEq] at hpicked
    exact (highestReady_spec hpicked).1
  | _ => cases hpicked

/-! ### Every state of every run -/

/-- After a step of thread `i`, the other threads hold what they held, and thread `i` holds what the
step says. -/
theorem held_update {ι : Type*} [DecidableEq ι] {m : Machine ι} (held : Pc → Option Addr)
    {later : Pc} {i : ι}
    (hheld : ∀ a, held later = some a → held (m.threads i) = some a ∨ a ∈ m.sched.tl) (j : ι)
    (a : Addr) (ha : held (Function.update m.threads i later j) = some a) :
    held (m.threads j) = some a ∨ a ∈ m.sched.tl := by
  by_cases hj : j = i
  · rw [hj, Function.update_self] at ha
    exact hj ▸ hheld a ha
  · rw [Function.update_of_ne hj] at ha
    exact .inl ha

/-- No record is linked twice; the listed records, the records that threads hold, the picked one and
the current one are allocated; and the timers of the listed records carry their pids. -/
structure Allocated {ι : Type*} (m : Machine ι) : Prop where
  tl_nodup : m.sched.tl.Nodup
  tl_fresh : ∀ a ∈ m.sched.tl, a < m.sched.fresh
  thread_fresh : ∀ i a, (m.threads i).task = some a → a < m.sched.fresh
  picked_fresh : ∀ h, m.dispatcher = .picked (some h) → h < m.sched.fresh
  ct_fresh : ∀ cur, m.sched.ct = some cur → cur < m.sched.fresh
  timer_data : ∀ a ∈ m.sched.tl, (m.sched.slab a).timer.data = (m.sched.slab a).pid

namespace Allocated

variable {ι : Type*} {platform : Platform} {locks : Locks} {m : Machine ι}

/-- The start has no records in use. -/
theorem start (slab : Addr → Mp2TaskStruct) (now : UInt64) (calls : ι → Call) :
    Allocated (Machine.start (mp2Init slab) now calls) where
  tl_nodup := List.nodup_nil
  tl_fresh := fun _ ha ↦ absurd ha List.not_mem_nil
  thread_fresh := fun _ _ ha ↦ by cases ha
  picked_fresh := fun _ hpicked ↦ by cases hpicked
  ct_fresh := fun _ hcur ↦ by cases hcur
  timer_data := fun _ ha ↦ absurd ha List.not_mem_nil

/-- A step that keeps the records keeps the invariant. Assumes: that the records the threads, the
dispatching thread and `ct` hold afterwards were held before or listed. -/
theorem of_sameRecords (hm : Allocated m) {later : Machine ι}
    (hsame : SameRecords m.sched later.sched)
    (hthread : ∀ i a, (later.threads i).task = some a →
      (m.threads i).task = some a ∨ a ∈ m.sched.tl)
    (hpicked : ∀ h, later.dispatcher = .picked (some h) →
      m.dispatcher = .picked (some h) ∨ h ∈ m.sched.tl)
    (hct : ∀ cur, later.sched.ct = some cur →
      m.sched.ct = some cur ∨ m.dispatcher = .picked (some cur)) : Allocated later where
  tl_nodup := hsame.tl ▸ hm.tl_nodup
  tl_fresh := by
    rw [hsame.tl, hsame.fresh]
    exact hm.tl_fresh
  thread_fresh := by
    intro i a ha
    rw [hsame.fresh]
    exact (hthread i a ha).elim (hm.thread_fresh i a) (hm.tl_fresh a)
  picked_fresh := by
    intro h hh
    rw [hsame.fresh]
    exact (hpicked h hh).elim (hm.picked_fresh h) (hm.tl_fresh h)
  ct_fresh := by
    intro cur hcur
    rw [hsame.fresh]
    exact (hct cur hcur).elim (hm.ct_fresh cur) (hm.picked_fresh cur)
  timer_data := by
    rw [hsame.tl]
    intro a ha
    rw [hsame.timerData, hsame.pid]
    exact hm.timer_data a ha

variable [DecidableEq ι]

/-- Every step of the machine keeps the invariant. -/
theorem next (hm : Allocated m) {label : Label ι} {later : Machine ι}
    (hnext : RateMonotonic.next platform locks m label = some later) : Allocated later := by
  cases next_spec hnext with
  | @thread i pc s hthread =>
    have htask := held_update Pc.task (i := i) fun a ha ↦ hthread.task ha
    have hct : ∀ cur, s.ct = some cur → m.sched.ct = some cur := fun cur hcur ↦
      hthread.ct_some hcur
    have heffect := hthread.effect
    generalize m.threads i = before at heffect
    cases heffect with
    | keep hsame =>
      exact hm.of_sameRecords hsame htask (fun h hh ↦ .inl hh) fun cur hcur ↦ .inl (hct cur hcur)
    | @insert q =>
      have hlt : ∀ {a}, a < m.sched.fresh → a < m.sched.fresh + 1 := fun ha ↦ Nat.lt_succ_of_lt ha
      refine ⟨?_, ?_, ?_, ?_, ?_, ?_⟩
      · refine List.nodup_append.mpr ⟨hm.tl_nodup, List.pairwise_singleton _ _, ?_⟩
        intro a ha b hb
        rw [List.mem_singleton] at hb
        exact hb ▸ (hm.tl_fresh a ha).ne
      · intro a ha
        rcases List.mem_append.mp ha with ha | ha
        · exact hlt (hm.tl_fresh a ha)
        · rw [List.mem_singleton] at ha
          exact ha ▸ Nat.lt_succ_self _
      · intro j a ha
        exact hlt ((htask j a ha).elim (hm.thread_fresh j a) (hm.tl_fresh a))
      · intro h hh
        exact hlt (hm.picked_fresh h hh)
      · intro cur hcur
        exact hlt (hm.ct_fresh cur (hct cur hcur))
      · intro a ha
        rw [insert_slab]
        rcases List.mem_append.mp ha with ha | ha
        · rw [Function.update_of_ne (hm.tl_fresh a ha).ne]
          exact hm.timer_data a ha
        · rw [List.mem_singleton] at ha
          rw [ha, Function.update_self]
          rfl
    | @unlink task =>
      have hsame := sameTasks_delTimer ((m.sched.subUtil task).listDel task) task
      refine ⟨hm.tl_nodup.erase task, ?_, ?_, hm.picked_fresh, fun cur hcur ↦ ?_, ?_⟩
      · intro a ha
        exact hm.tl_fresh a (List.mem_of_mem_erase ha)
      · intro j a ha
        exact (htask j a ha).elim (hm.thread_fresh j a) (hm.tl_fresh a)
      · exact hm.ct_fresh cur (hct cur hcur)
      · intro a ha
        change ((m.sched.removeTask task).slab a).timer.data =
          ((m.sched.removeTask task).slab a).pid
        rw [removeTask, hsame.timerData, hsame.pid]
        exact hm.timer_data a (List.mem_of_mem_erase ha)
  | dispatcher hdispatcher =>
    refine hm.of_sameRecords hdispatcher.sameTasks.sameRecords (fun _ _ ha ↦ .inl ha) ?_ ?_
    · intro h hh
      exact .inr (hdispatcher.picked hh)
    · intro cur hcur
      exact hdispatcher.ct hcur
  | @fire a =>
    refine hm.of_sameRecords (sameTasks_fire m.sched a).sameRecords (fun _ _ ha ↦ .inl ha)
      (fun _ hh ↦ .inl hh) fun cur hcur ↦ .inl ?_
    rw [← fire_ct m.sched a]
    exact hcur
  | callbackWake =>
    exact hm.of_sameRecords (.of_slab_eq rfl rfl rfl) (fun _ _ ha ↦ .inl ha)
      (fun _ hh ↦ .inl hh) fun _ hcur ↦ .inl hcur
  | tick =>
    exact hm.of_sameRecords (.of_slab_eq rfl rfl rfl) (fun _ _ ha ↦ .inl ha)
      (fun _ hh ↦ .inl hh) fun _ hcur ↦ .inl hcur

end Allocated

end KernelModules.RateMonotonic
