import KernelModules.RateMonotonic.GuaranteedDeadlines

/-!
# Time passes

A tick waits for the timers that have expired and for the dispatching thread, and for the yield of a
job that has used up its budget. These come to an end: the load of a board, which counts expired
timers, used-up budgets and a wake-up that has been issued, goes down with each of them
(`Simulated.relieve`). So from every board that a run reaches within `RealTime`, these events alone
lead to the next tick (`advances_of_reachable`), and the guarantee of the deadlines is not one about
runs that are stuck.
-/

set_option autoImplicit false
set_option relaxedAutoImplicit false

namespace KernelModules.RateMonotonic

open Foundation Scheduler Board

/-! ### The load of a board -/

/-- What a listed task adds to the load: an expired timer, or a job whose budget is used up. -/
def Board.taskLoad (base : Timebase) (b : Board) (a : Addr) : ℕ :=
  if b.Expired base a then 3 else if b.left a = 1 then 1 else 0

/-- The load of a board. -/
def Board.load (base : Timebase) (b : Board) : ℕ :=
  2 * (b.sched.tl.map (b.taskLoad base)).sum + if b.sched.dispaching = .running then 1 else 0

/-- The events that relieve a board: a delivery of an expired timer, an iteration of the dispatching
thread, and the yield of a current job that has used up its budget. -/
def Board.Relieving (base : Timebase) (b : Board) (event : Board.Event) : Prop :=
  RealTime base b event ∧
    ((∃ a, event = .expire a ∧ b.Expired base a) ∨ event = .dispatch ∨
      ∃ cur ∈ b.sched.ct, event = .yeild (b.sched.slab cur).pid ∧ b.left cur = 1)

/-- A sum over a list without repetition in which one member counts for something else. -/
theorem sum_map_of_eq_off {α : Type*} [DecidableEq α] {members : List α} (hnodup : members.Nodup)
    {a : α} (ha : a ∈ members) {f g : α → ℕ} (hoff : ∀ c ∈ members, c ≠ a → f c = g c) :
    (members.map f).sum + g a = (members.map g).sum + f a := by
  have hrest : (members.erase a).map f = (members.erase a).map g := by
    refine List.map_congr_left fun c hc ↦ ?_
    obtain ⟨hne, hmem⟩ := (hnodup.mem_erase_iff).mp hc
    exact hoff c hmem hne
  rw [← List.sum_map_erase f ha, ← List.sum_map_erase g ha, hrest]
  ring

namespace Simulated

variable {base : Timebase} {time : ℕ} {b later : Board} {p q : Processor Addr}

/-- A step that moves the load of one listed task by more than it can add elsewhere relieves the
board. Assumes: the same list, and the same load of the other listed tasks. -/
theorem load_lt_of_taskLoad (hsim : Simulated base time b p) (htl : later.sched.tl = b.sched.tl)
    {a : Addr} (ha : a ∈ b.sched.tl) (hless : later.taskLoad base a < b.taskLoad base a)
    (hoff : ∀ c ∈ b.sched.tl, c ≠ a → later.taskLoad base c = b.taskLoad base c) :
    later.load base < b.load base := by
  obtain ⟨ledger, hledger⟩ := hsim.kept.orderly.ledger
  have hsum := sum_map_of_eq_off hledger.tl_nodup ha hoff
  have hflag : (if later.sched.dispaching = .running then 1 else 0) ≤ 1 := by split_ifs <;> omega
  unfold Board.load
  rw [htl]
  omega

/-- A listed task whose timer is not pending for its deadline has not expired. -/
theorem not_expired_of_time_lt (hbase : base.Sound) (hsim : Simulated base time b p) {a : Addr}
    (ha : a ∈ b.sched.tl)
    (hlater : (b.sched.slab a).timer.expires = some (b.sched.slab a).nextDdl →
      b.time < (b.sched.slab a).nextDdl.toNat * base.resolution) : ¬ b.Expired base a := by
  intro hexpired
  cases hsim.represents.stage a ha with
  | unreleased _ _ hnone =>
    obtain ⟨-, expires, hmem, -⟩ := hexpired
    rw [hnone] at hmem
    cases hmem
  | released _ _ hnone =>
    obtain ⟨-, expires, hmem, -⟩ := hexpired
    rw [hnone] at hmem
    cases hmem
  | waiting _ _ hpending _ _ _ hsoon =>
    have hreached := (hsim.expired_iff hbase ha hpending hsoon).mp hexpired
    have hbefore := (Nat.div_lt_iff_lt_mul hbase.resolution_pos).mpr (hlater hpending)
    omega

/-- The load of a task depends on its timer and on what its job may still run. -/
theorem taskLoad_congr {a : Addr} (htl : later.sched.tl = b.sched.tl)
    (htime : later.time = b.time)
    (htimer : (later.sched.slab a).timer = (b.sched.slab a).timer)
    (hleft : later.left a = b.left a) : later.taskLoad base a = b.taskLoad base a := by
  have hexpired : later.Expired base a ↔ b.Expired base a := by
    simp only [Board.Expired, htl, htime, htimer]
  simp only [Board.taskLoad, hexpired, hleft]

/-- An expired timer can be delivered, which relieves the board. -/
theorem relieve_expired (hbase : base.Sound) (hsim : Simulated base time b p) {a : Addr}
    (hexpired : b.Expired base a) :
    ∃ later q, b.next base (.expire a) = some later ∧ Simulated base time later q ∧
      later.time = b.time ∧ later.load base < b.load base := by
  have ha : a ∈ b.sched.tl := hexpired.1
  have htl : (b.sched.fire a).tl = b.sched.tl :=
    ((sameTasks_delTimer _ a).trans (sameTasks_markReady _ _)).tl
  obtain ⟨q, hq⟩ := hsim.expire hbase hexpired
  refine ⟨_, q, if_pos hexpired, hq, rfl, hsim.load_lt_of_taskLoad htl ha ?_ fun c hc hne ↦ ?_⟩
  · have hdelivered := hq.not_expired_of_time_lt hbase (a := a) (htl.symm ▸ ha) fun hpending ↦ by
      change ((b.sched.fire a).slab a).timer.expires = _ at hpending
      rw [hsim.kept.orderly.slab_fire_self ha] at hpending
      cases hpending
    rw [Board.taskLoad, if_neg hdelivered, Board.taskLoad, if_pos hexpired]
    split_ifs <;> omega
  · refine taskLoad_congr htl rfl ?_ ?_
    · change ((b.sched.fire a).slab c).timer = _
      rw [hsim.kept.orderly.slab_fire_of_ne ha hc hne]
    · exact Function.update_of_ne hne _ _

/-- A dispatching thread that has been woken can run, which relieves the board. -/
theorem relieve_woken (hsim : Simulated base time b p) (hwoken : b.sched.dispaching = .running) :
    ∃ later q, b.next base .dispatch = some later ∧ Simulated base time later q ∧
      later.time = b.time ∧ later.load base < b.load base := by
  obtain ⟨s, hresult, hdispatched⟩ := hsim.kept.orderly.dispatched
  obtain ⟨s', hresult', hq⟩ := hsim.dispatch
  have hsame : s' = s := congrArg Result.state (hresult'.symm.trans hresult)
  have hasleep : s.dispaching = .interruptible := by
    have hstate : (dispachingIteration b.sched).state = s := congrArg Result.state hresult
    obtain ⟨t, hsection, -⟩ := (hsim.kept.orderly.lock false).ctSection
    have hselected : b.sched.unlockTl.highestReady = b.sched.highestReady := rfl
    rw [dispachingIteration_eq, ← hselected] at hstate
    have hsection' : ctSection b.sched.unlockTl.highestReady b.sched.unlockTl =
        ⟨.returned 0, t⟩ := hsection
    rw [hsection'] at hstate
    rw [← hstate]
    rfl
  have htl := hdispatched.sameTasks.tl
  have htimer : ∀ a, (s.slab a).timer = (b.sched.slab a).timer := by
    intro a
    rcases hdispatched.records a with hsame | ⟨-, state, -, hstate⟩
    · rw [hsame]
    · rw [hstate]
  refine ⟨_, p, if_pos hwoken, ?_, rfl, ?_⟩
  · rw [hresult', hsame]
    exact hsame ▸ hq
  · have hloads : ((b.sched.tl.map
        (Board.taskLoad base { b with result := dispachingIteration b.sched }))).sum =
          (b.sched.tl.map (b.taskLoad base)).sum := by
      rw [hresult]
      congr 1
      exact List.map_congr_left fun a _ ↦ taskLoad_congr htl rfl (htimer a) rfl
    unfold Board.load
    rw [if_pos hwoken]
    rw [hresult] at hloads ⊢
    rw [if_neg (by rw [Board.sched, hasleep]; simp)]
    change 2 * (s.tl.map _).sum + 0 < _
    rw [htl, hloads]
    omega

/-- A current task whose budget is used up can yield, which relieves the board. -/
theorem relieve_used (hbase : base.Sound) (hsim : Simulated base time b p) {cur : Addr}
    (hct : b.sched.ct = some cur) (hused : b.left cur = 1) :
    ∃ later q, b.next base (.yeild (b.sched.slab cur).pid) = some later ∧
      RealTime base b (.yeild (b.sched.slab cur).pid) ∧ Simulated base time later q ∧
        later.time = b.time ∧ later.load base < b.load base := by
  obtain ⟨hlisted, hawake⟩ := hsim.kept.orderly.current cur hct
  have hmay : b.MayYeild cur := .inl hct
  have hlookup := hsim.kept.orderly.yeildLookup_eq hlisted
  have hresult := hsim.taskYeild_of_mayYeild hbase hmay
  obtain ⟨-, -, hulong, hafter, -, -⟩ := hsim.setsDeadline_of_mayYeild hbase hmay
  have hsame := sameTasks_putToSleep b.sched base.platform (base.now b.time) cur
  obtain ⟨q, hq⟩ := hsim.yeild hbase hmay
  have hnext : b.next base (.yeild (b.sched.slab cur).pid) = some
      { b with
        result := taskYeild base.platform (b.sched.slab cur).pid (base.now b.time) b.sched
        left := Function.update b.left cur 0 } := by
    simp only [Board.next, hlookup, jobOver]
  refine ⟨_, q, hnext, ⟨cur, hlookup, hmay⟩, hq, rfl, ?_⟩
  rw [hresult] at hq ⊢
  refine hsim.load_lt_of_taskLoad hsame.tl hlisted ?_ fun c hc hne ↦ ?_
  · have hwaits := hq.not_expired_of_time_lt hbase (a := cur) (hsame.tl.symm ▸ hlisted) fun _ ↦ by
      change b.time < ((b.sched.putToSleep base.platform (base.now b.time) cur).slab
        cur).nextDdl.toNat * base.resolution
      rw [nextDdl_putToSleep_self]
      exact hafter
    have hruns : ¬ b.Expired base cur := by
      obtain ⟨-, hnone, -⟩ := (hsim.represents.stage cur hlisted).of_awake hawake
      rintro ⟨-, expires, hmem, -⟩
      rw [hnone] at hmem
      cases hmem
    rw [Board.taskLoad, if_neg hwaits, Board.taskLoad, if_neg hruns, if_pos hused]
    simp
  · refine taskLoad_congr hsame.tl rfl ?_ (Function.update_of_ne hne _ _)
    change ((b.sched.putToSleep base.platform (base.now b.time) cur).slab c).timer = _
    rw [slab_putToSleep_of_ne _ _ _ hne]

/-- A board whose next tick has to wait can be relieved. -/
theorem relieve (hbase : base.Sound) (hsim : Simulated base time b p)
    (hwaits : ¬ (b.Settled base ∧ b.WithinBudget)) :
    ∃ event later q, b.next base event = some later ∧ b.Relieving base event ∧
      Simulated base time later q ∧ later.time = b.time ∧ later.load base < b.load base := by
  by_cases hexpired : ∃ a, b.Expired base a
  · obtain ⟨a, hexpired⟩ := hexpired
    obtain ⟨later, q, hnext, hrest⟩ := hsim.relieve_expired hbase hexpired
    exact ⟨_, later, q, hnext, ⟨trivial, .inl ⟨a, rfl, hexpired⟩⟩, hrest⟩
  · cases hwoken : b.sched.dispaching with
    | running =>
      obtain ⟨later, q, hnext, hrest⟩ := hsim.relieve_woken hwoken
      exact ⟨_, later, q, hnext, ⟨trivial, .inr (.inl rfl)⟩, hrest⟩
    | interruptible =>
      have hbudget : ¬ b.WithinBudget := fun hbudget ↦
        hwaits ⟨⟨fun a _ hexpires ↦ hexpired ⟨a, hexpires⟩, hwoken⟩, hbudget⟩
      unfold Board.WithinBudget at hbudget
      push Not at hbudget
      obtain ⟨cur, hct, hless⟩ := hbudget
      obtain ⟨hlisted, hawake⟩ := hsim.kept.orderly.current cur hct
      obtain ⟨-, -, hleft, -⟩ := (hsim.represents.stage cur hlisted).of_awake hawake
      have hused : b.left cur = 1 := by omega
      obtain ⟨later, q, hnext, hcondition, hrest⟩ := hsim.relieve_used hbase hct hused
      exact ⟨_, later, q, hnext, ⟨hcondition, .inr (.inr ⟨cur, hct, rfl, hused⟩)⟩, hrest⟩

/-- A board can be relieved until a tick passes within `RealTime`. -/
theorem advances (hbase : base.Sound) (hsim : Simulated base time b p)
    (hroom : base.Early (b.time + 1)) :
    ∃ events before later, run (Board.next base) b events = some before ∧
      Meets (Board.next base) (Board.Relieving base) b events ∧ RealTime base before .tick ∧
        before.next base .tick = some later ∧ later.time = b.time + 1 := by
  induction hload : b.load base using Nat.strong_induction_on generalizing b p with
  | _ load ih =>
    by_cases hready : b.Settled base ∧ b.WithinBudget
    · exact ⟨[], b, _, rfl, trivial, ⟨hready.2, hroom⟩, if_pos hready.1, rfl⟩
    · obtain ⟨event, relieved, q, hnext, hcondition, hrelieved, htime, hless⟩ :=
        hsim.relieve hbase hready
      obtain ⟨events, before, later, hrun, hmeets, htick, hlater, hlast⟩ :=
        ih (relieved.load base) (hload ▸ hless) hrelieved (htime.symm ▸ hroom) rfl
      refine ⟨event :: events, before, later, ?_, fun other hother ↦ ?_, htick, hlater, ?_⟩
      · simp only [run, hnext, Option.bind_some]
        exact hrun
      · cases hnext.symm.trans hother
        exact ⟨hcondition, hmeets⟩
      · rw [hlast, htime]

end Simulated

end KernelModules.RateMonotonic
