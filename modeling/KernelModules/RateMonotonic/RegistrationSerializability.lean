import KernelModules.Foundation.SerialOrder
import KernelModules.RateMonotonic.LinkedRecords
import KernelModules.RateMonotonic.UtilisationAccounting

/-!
# Serializability of registrations

Concurrent calls of `Task_register` and `Task_deregister` should leave the task list, `total_util`
and the return codes of some order of the calls (`Serializable`). The duplicate check, the admission
test, the update of `total_util` and the insertion of a registration are separate steps, and only
the first and the last hold `tl_lock`; a deregistration drops the lock between its lookup and its
removal.

A registration takes effect at its insertion, or where it is turned down; a deregistration at its
removal, or where its lookup finds nothing. The relation `Serialized` ties a state of the machine to
the state of the calls that have taken effect: the lists agree, and `total_util` is ahead by the
shares that are counted and not yet inserted. `serializable_of_reachable` says that the
linearization rule applies to every run in which each step finds what an earlier step of its call
relied on (`RegistrationFits`).
-/

set_option autoImplicit false
set_option relaxedAutoImplicit false

namespace KernelModules.RateMonotonic

open Foundation Scheduler

/-! ### The system -/

/-- A call of `Task_register` or `Task_deregister`. -/
inductive RegistrationCall
  | register (request : Request)
  | deregister (pid : UInt32)

/-- The call a thread makes. -/
def RegistrationCall.call : RegistrationCall → Call
  | .register request => .register request
  | .deregister pid => .deregister pid

/-- Runs a call from its first statement to its last. -/
def RegistrationCall.perform : RegistrationCall → Scheduler → Result
  | .register q, s => taskRegister q.pid q.period q.procTime q.found s
  | .deregister pid, s => taskDeregister pid s

variable {ι : Type*}

/-- Runs the call of a thread, as an operation on the scheduler with an outcome. -/
def performCall (calls : ι → RegistrationCall) (s : Scheduler) (i : ι) : Outcome × Scheduler :=
  (((calls i).perform s).outcome, ((calls i).perform s).state)

/-- The step of a thread in the system in which only registrations and removals run. -/
def nextRegistration [DecidableEq ι] (platform : Platform) (locks : Locks) (m : Machine ι) (i : ι) :
    Option (Machine ι) :=
  next platform locks m (.thread i)

/-- The start, with the calls that the threads make. -/
def registrationStart (s : Scheduler) (now : UInt64) (calls : ι → RegistrationCall) : Machine ι :=
  Machine.start s now fun i ↦ (calls i).call

/-- Every thread has ended its call or has not started it. -/
def Quiescent (m : Machine ι) : Prop :=
  ∀ i, (m.threads i).outcome ≠ none ∨ ∃ call, m.threads i = .start call

/-- The listed tasks, `total_util` and the outcomes are those of the ended calls, run one after
another in some order from `s`. -/
def Serializable (calls : ι → RegistrationCall) (s : Scheduler) (m : Machine ι) : Prop :=
  ∃ order : List ι, order.Nodup ∧ (∀ i, i ∈ order ↔ (m.threads i).outcome ≠ none) ∧
    m.sched.listing = (serialState (performCall calls) s order).listing ∧
    m.sched.totalUtil = (serialState (performCall calls) s order).totalUtil ∧
    ∀ i outcome, (m.threads i).outcome = some outcome →
      (i, outcome) ∈ serialResults (performCall calls) s order

/-- The sum of the shares of the listed tasks. -/
def Scheduler.listedUtil (s : Scheduler) : ℕ := (s.tl.map fun a ↦ (s.slab a).share.toNat).sum

/-- The next step of a thread finds what its call relies on: a test that turns a request down would
do so on the listed tasks; a store finds `total_util` as it was loaded, with room for the share; an
insertion finds the pid not listed; and a removal finds its record listed. -/
def RegistrationFits (m : Machine ι) (i : ι) : Prop :=
  match m.threads i with
  | .registerTest q => q.period ≠ 0 → m.sched.admits q.period q.procTime = false →
      m.sched.listed q.pid = true ∨ 726663 ≤ m.sched.listedUtil + q.share.toNat
  | .registerStore q loaded =>
      loaded = m.sched.totalUtil ∧ m.sched.totalUtil.toNat + q.share.toNat < 726663
  | .registerInsert q => m.sched.listed q.pid = false
  | .deregUnlink t => t ∈ m.sched.tl
  | _ => True

instance (m : Machine ι) (i : ι) : Decidable (RegistrationFits m i) := by
  unfold RegistrationFits
  split <;> infer_instance

/-! ### The relation -/

/-- What is known of a call by where its thread is: the call has taken effect exactly when it has
its outcome, the faulting division apart, which is decided at the duplicate check. -/
def Phase (calls : ι → RegistrationCall) (s : Scheduler) (results : List (ι × Outcome)) (i : ι) :
    Pc → Prop
  | .start call => call = (calls i).call ∧ ∀ outcome, (i, outcome) ∉ results
  | .registerTest q => calls i = .register q ∧
      (q.period = 0 → (i, .faulted .divideError) ∈ results) ∧
        (q.period ≠ 0 → ∀ outcome, (i, outcome) ∉ results)
  | .registerLoad q => calls i = .register q ∧ q.period ≠ 0 ∧ ∀ outcome, (i, outcome) ∉ results
  | .registerStore q _ => calls i = .register q ∧ q.period ≠ 0 ∧ ∀ outcome, (i, outcome) ∉ results
  | .registerInsert q => calls i = .register q ∧ q.period ≠ 0 ∧ ∀ outcome, (i, outcome) ∉ results
  | .deregCheck t =>
      calls i = .deregister (s.slab t).pid ∧ t < s.fresh ∧ ∀ outcome, (i, outcome) ∉ results
  | .deregClear t =>
      calls i = .deregister (s.slab t).pid ∧ t < s.fresh ∧ ∀ outcome, (i, outcome) ∉ results
  | .deregWake t =>
      calls i = .deregister (s.slab t).pid ∧ t < s.fresh ∧ ∀ outcome, (i, outcome) ∉ results
  | .deregUnlink t =>
      calls i = .deregister (s.slab t).pid ∧ t < s.fresh ∧ ∀ outcome, (i, outcome) ∉ results
  | .returned code => (i, .returned code) ∈ results
  | .faulted fault => (i, .faulted fault) ∈ results
  | _ => False

/-- The shares that are counted in `total_util` by threads that have not inserted their record. -/
structure Outstanding (m : Machine ι) (pending : List (ι × ℕ)) : Prop where
  nodup : pending.Nodup
  mem_iff : ∀ i share, (i, share) ∈ pending ↔
    ∃ q, m.threads i = .registerInsert q ∧ share = q.share.toNat

/-- Two schedulers with the same records, list and total. -/
structure SameStore (s t : Scheduler) : Prop where
  tl : t.tl = s.tl
  fresh : t.fresh = s.fresh
  slab : t.slab = s.slab
  totalUtil : t.totalUtil = s.totalUtil

/-- A state of the machine, and the scheduler and the outcomes of the calls that have taken effect:
the scheduler is backed by a ledger and has the list and the records of the machine, `total_util` of
the machine is ahead by the outstanding shares and below `MAX_UTIL`, and every thread is where its
call says. -/
structure Serialized (calls : ι → RegistrationCall) (m : Machine ι) (a : Scheduler)
    (results : List (ι × Outcome)) : Prop where
  ledger : ∃ ledger, Refines a ledger
  tl : a.tl = m.sched.tl
  fresh : a.fresh = m.sched.fresh
  slab : a.slab = m.sched.slab
  total : ∃ pending, Outstanding m pending ∧
    a.totalUtil.toNat + (pending.map Prod.snd).sum = m.sched.totalUtil.toNat
  total_lt : m.sched.totalUtil.toNat < 726663
  phase : ∀ i, Phase calls m.sched results i (m.threads i)

/-! ### Phases and outstanding shares under a step -/

/-- The place of a call does not depend on the outcomes of other calls, nor on what changes in the
records but the pids. -/
theorem Phase.of_same {calls : ι → RegistrationCall} {s t : Scheduler}
    {results results' : List (ι × Outcome)} {i : ι} {pc : Pc}
    (hphase : Phase calls s results i pc)
    (hpid : ∀ a, a < s.fresh → (t.slab a).pid = (s.slab a).pid) (hfresh : s.fresh ≤ t.fresh)
    (hresults : ∀ outcome, (i, outcome) ∈ results' ↔ (i, outcome) ∈ results) :
    Phase calls t results' i pc := by
  have hrecord : ∀ a, calls i = .deregister (s.slab a).pid ∧ a < s.fresh ∧
      (∀ outcome, (i, outcome) ∉ results) → calls i = .deregister (t.slab a).pid ∧ a < t.fresh ∧
        ∀ outcome, (i, outcome) ∉ results' := by
    rintro a ⟨hcall, ha, hnew⟩
    refine ⟨by rw [hcall, hpid a ha], ha.trans_le hfresh, fun outcome hmem ↦ ?_⟩
    exact hnew outcome ((hresults outcome).mp hmem)
  cases pc with
  | start call => exact ⟨hphase.1, fun outcome hmem ↦ hphase.2 outcome ((hresults _).mp hmem)⟩
  | registerTest q =>
    refine ⟨hphase.1, fun hzero ↦ (hresults _).mpr (hphase.2.1 hzero), fun hne outcome hmem ↦ ?_⟩
    exact hphase.2.2 hne outcome ((hresults _).mp hmem)
  | registerLoad q =>
    exact ⟨hphase.1, hphase.2.1, fun outcome hmem ↦ hphase.2.2 outcome ((hresults _).mp hmem)⟩
  | registerStore q loaded =>
    exact ⟨hphase.1, hphase.2.1, fun outcome hmem ↦ hphase.2.2 outcome ((hresults _).mp hmem)⟩
  | registerInsert q =>
    exact ⟨hphase.1, hphase.2.1, fun outcome hmem ↦ hphase.2.2 outcome ((hresults _).mp hmem)⟩
  | deregCheck t => exact hrecord t hphase
  | deregClear t => exact hrecord t hphase
  | deregWake t => exact hrecord t hphase
  | deregUnlink t => exact hrecord t hphase
  | returned code => exact (hresults _).mpr hphase
  | faulted fault => exact (hresults _).mpr hphase
  | _ => exact hphase

/-- A call that has ended has its outcome. -/
theorem Phase.mem_results {calls : ι → RegistrationCall} {s : Scheduler}
    {results : List (ι × Outcome)} {i : ι} {pc : Pc} (hphase : Phase calls s results i pc)
    {outcome : Outcome} (houtcome : pc.outcome = some outcome) : (i, outcome) ∈ results := by
  cases pc with
  | returned code =>
    cases houtcome
    exact hphase
  | faulted fault =>
    cases houtcome
    exact hphase
  | yeildDone t => exact absurd hphase id
  | _ => cases houtcome

/-- The outcomes after one more call are, for the other calls, the outcomes before. -/
theorem mem_append_of_ne {results : List (ι × Outcome)} {i j : ι} (hj : j ≠ i)
    (mine outcome : Outcome) :
    (j, outcome) ∈ results ++ [(i, mine)] ↔ (j, outcome) ∈ results := by
  rw [List.mem_append, List.mem_singleton, Prod.mk.injEq]
  exact ⟨fun hmem ↦ hmem.resolve_right fun heq ↦ hj heq.1, .inl⟩

namespace Serialized

variable {calls : ι → RegistrationCall} {m : Machine ι} {a : Scheduler}
  {results : List (ι × Outcome)} {i : ι}

/-- The object lists what the machine lists. -/
theorem listed_eq (hm : Serialized calls m a results) (pid : UInt32) :
    a.listed pid = m.sched.listed pid := by
  unfold Scheduler.listed
  rw [hm.tl, hm.slab]

/-- The object counts the listed tasks. -/
theorem totalUtil_eq (hm : Serialized calls m a results) :
    a.totalUtil.toNat = m.sched.listedUtil := by
  obtain ⟨ledger, hledger⟩ := hm.ledger
  rw [hledger.sum_shares, hm.tl, hm.slab]
  rfl

/-- A registration of a listed pid is turned down by the object. -/
theorem performCall_listed (hm : Serialized calls m a results) {q : Request}
    (hcall : calls i = .register q) (hpid : m.sched.listed q.pid = true) :
    performCall calls a i = (.returned (-1), a.lockTl) := by
  rw [performCall, hcall, RegistrationCall.perform,
    taskRegister_of_listed ((hm.listed_eq q.pid).trans hpid)]

/-- A registration with period 0 faults on the object. Assumes: a pid that is not listed. -/
theorem performCall_zero (hm : Serialized calls m a results) {q : Request}
    (hcall : calls i = .register q) (hpid : m.sched.listed q.pid = false)
    (hperiod : q.period = 0) : performCall calls a i = (.faulted .divideError, a.unlockTl) := by
  rw [performCall, hcall, RegistrationCall.perform,
    taskRegister_of_zero ((hm.listed_eq q.pid).trans hpid) hperiod]

/-- A registration is turned down by the object when its pid is listed, or when the listed tasks
leave no room for its share. -/
theorem performCall_full (hm : Serialized calls m a results) {q : Request}
    (hcall : calls i = .register q) (hperiod : q.period ≠ 0)
    (hfull : m.sched.listed q.pid = true ∨ 726663 ≤ m.sched.listedUtil + q.share.toNat) :
    ∃ b, performCall calls a i = (.returned (-1), b) ∧ SameStore a b := by
  obtain ⟨ledger, hledger⟩ := hm.ledger
  cases hpid : m.sched.listed q.pid with
  | true => exact ⟨_, hm.performCall_listed hcall hpid, rfl, rfl, rfl, rfl⟩
  | false =>
    have hle := hfull.resolve_left (by rw [hpid]; exact Bool.false_ne_true)
    have hrefused : a.admits q.period q.procTime = false := by
      rw [← Bool.not_eq_true, admits_iff hledger.totalUtil_lt, hm.totalUtil_eq]
      exact Nat.not_lt.mpr hle
    refine ⟨a.unlockTl, ?_, rfl, rfl, rfl, rfl⟩
    rw [performCall, hcall, RegistrationCall.perform,
      taskRegister_of_full ((hm.listed_eq q.pid).trans hpid) hperiod hrefused]

/-- A deregistration of a pid that is not listed is turned down by the object. -/
theorem performCall_none (hm : Serialized calls m a results) {pid : UInt32}
    (hcall : calls i = .deregister pid) (hnone : m.sched.deregLookup pid = none) :
    performCall calls a i = (.returned (-1), a.unlockTl) := by
  have hnone' : a.deregLookup pid = none := by
    rw [deregLookup_eq_none_iff, hm.listed_eq]
    exact deregLookup_eq_none_iff.mp hnone
  rw [performCall, hcall, RegistrationCall.perform, taskDeregister_of_none hnone']

end Serialized

variable [DecidableEq ι]

namespace Outstanding

variable {m : Machine ι} {pending : List (ι × ℕ)} {i : ι} {pc : Pc} {s : Scheduler}

/-- A step that neither counts nor inserts a share keeps the outstanding ones. -/
theorem update (hm : Outstanding m pending) (hbefore : ∀ q, m.threads i ≠ .registerInsert q)
    (hafter : ∀ q, pc ≠ .registerInsert q) :
    Outstanding { m with sched := s, threads := Function.update m.threads i pc } pending where
  nodup := hm.nodup
  mem_iff := by
    intro j share
    rw [hm.mem_iff]
    by_cases hj : j = i
    · simp only [hj, Function.update_self]
      constructor
      · rintro ⟨q, hq, -⟩
        exact absurd hq (hbefore q)
      · rintro ⟨q, hq, -⟩
        exact absurd hq (hafter q)
    · simp only [Function.update_of_ne hj]

/-- The store of `total_util` counts a share. -/
theorem cons (hm : Outstanding m pending) (hbefore : ∀ q, m.threads i ≠ .registerInsert q)
    (q : Request) :
    Outstanding { m with sched := s, threads := Function.update m.threads i (.registerInsert q) }
      ((i, q.share.toNat) :: pending) where
  nodup := by
    refine List.nodup_cons.mpr ⟨fun hmem ↦ ?_, hm.nodup⟩
    obtain ⟨other, hother, -⟩ := (hm.mem_iff i _).mp hmem
    exact hbefore other hother
  mem_iff := by
    intro j share
    rw [List.mem_cons, Prod.mk.injEq, hm.mem_iff]
    by_cases hj : j = i
    · simp only [hj, Function.update_self]
      constructor
      · rintro (⟨-, hshare⟩ | ⟨other, hother, -⟩)
        · exact ⟨q, rfl, hshare⟩
        · exact absurd hother (hbefore other)
      · rintro ⟨other, hother, hshare⟩
        rw [Pc.registerInsert.injEq] at hother
        exact .inl ⟨trivial, hother ▸ hshare⟩
    · simp only [Function.update_of_ne hj]
      exact ⟨fun hmem ↦ hmem.resolve_left fun heq ↦ hj heq.1, .inr⟩

/-- The insertion of a record takes its share off the outstanding ones. -/
theorem erase (hm : Outstanding m pending) {q : Request} (hi : m.threads i = .registerInsert q)
    (hafter : ∀ q, pc ≠ .registerInsert q) :
    ∃ rest, q.share.toNat + (rest.map Prod.snd).sum = (pending.map Prod.snd).sum ∧
      Outstanding { m with sched := s, threads := Function.update m.threads i pc } rest := by
  have hmem : (i, q.share.toNat) ∈ pending := (hm.mem_iff i _).mpr ⟨q, hi, rfl⟩
  obtain ⟨front, back, rfl⟩ := List.append_of_mem hmem
  obtain ⟨hgone, hrest⟩ := List.nodup_cons.mp (List.nodup_middle.mp hm.nodup)
  refine ⟨front ++ back, ?_, hrest, ?_⟩
  · simp only [List.map_append, List.map_cons, List.sum_append, List.sum_cons]
    omega
  · intro j share
    by_cases hj : j = i
    · simp only [hj, Function.update_self]
      constructor
      · intro hstay
        have hkept : (i, share) ∈ front ++ (i, q.share.toNat) :: back := by
          rcases List.mem_append.mp hstay with hfront | hback
          · exact List.mem_append_left _ hfront
          · exact List.mem_append_right _ (List.mem_cons_of_mem _ hback)
        obtain ⟨other, hother, hshare⟩ := (hm.mem_iff i share).mp hkept
        rw [hi, Pc.registerInsert.injEq] at hother
        rw [hshare, ← hother] at hstay
        exact absurd hstay hgone
      · rintro ⟨other, hother, -⟩
        exact absurd hother (hafter other)
    · simp only [Function.update_of_ne hj]
      rw [← hm.mem_iff]
      simp [hj]

end Outstanding

namespace Serialized

variable {calls : ι → RegistrationCall} {m : Machine ι} {a b : Scheduler}
  {results results' : List (ι × Outcome)} {i : ι} {pc : Pc} {s : Scheduler}

/-- The other calls are where they were. Assumes: a step of thread `i` that keeps the pids, and
outcomes that only change for `i`. -/
theorem phase_update (hm : Serialized calls m a results)
    (hpid : ∀ a, a < m.sched.fresh → (s.slab a).pid = (m.sched.slab a).pid)
    (hfresh : m.sched.fresh ≤ s.fresh)
    (hresults : ∀ j, j ≠ i → ∀ outcome, (j, outcome) ∈ results' ↔ (j, outcome) ∈ results)
    (hphase : Phase calls s results' i pc) (j : ι) :
    Phase calls s results' j (Function.update m.threads i pc j) := by
  by_cases hj : j = i
  · rw [hj, Function.update_self]
    exact hphase
  · rw [Function.update_of_ne hj]
    exact (hm.phase j).of_same hpid hfresh (hresults j hj)

/-- A step that keeps the records, the list and the total keeps the relation, with the object
unchanged or with a call applied that changes none of them either. -/
theorem of_sameStore (hm : Serialized calls m a results) (hs : SameStore m.sched s)
    (hab : SameStore a b) (hbefore : ∀ q, m.threads i ≠ .registerInsert q)
    (hafter : ∀ q, pc ≠ .registerInsert q)
    (hresults : ∀ j, j ≠ i → ∀ outcome, (j, outcome) ∈ results' ↔ (j, outcome) ∈ results)
    (hphase : Phase calls s results' i pc) :
    Serialized calls { m with sched := s, threads := Function.update m.threads i pc } b
      results' := by
  obtain ⟨ledger, hledger⟩ := hm.ledger
  obtain ⟨pending, hpending, hsum⟩ := hm.total
  refine ⟨⟨ledger, hledger.of_sameTasks (.of_slab_eq hab.tl hab.fresh hab.totalUtil hab.slab)⟩,
    ?_, ?_, ?_, ⟨pending, hpending.update hbefore hafter, ?_⟩, ?_, ?_⟩
  · rw [hab.tl, hm.tl, hs.tl]
  · rw [hab.fresh, hm.fresh, hs.fresh]
  · rw [hab.slab, hm.slab, hs.slab]
  · rw [hab.totalUtil, hsum, hs.totalUtil]
  · rw [hs.totalUtil]
    exact hm.total_lt
  · exact hm.phase_update (fun _ _ ↦ by rw [hs.slab]) hs.fresh.ge hresults hphase

end Serialized

/-! ### The linearization points -/

/-- A call that registers. -/
theorem RegistrationCall.eq_register {c : RegistrationCall} {q : Request}
    (hcall : Call.register q = c.call) : c = .register q := by
  cases c with
  | register other =>
    cases hcall
    rfl
  | deregister pid => cases hcall

/-- A call that removes. -/
theorem RegistrationCall.eq_deregister {c : RegistrationCall} {pid : UInt32}
    (hcall : Call.deregister pid = c.call) : c = .deregister pid := by
  cases c with
  | register q => cases hcall
  | deregister other =>
    cases hcall
    rfl

/-- No thread yields. -/
theorem RegistrationCall.ne_yeild (c : RegistrationCall) (pid : UInt32) :
    Call.yeild pid ≠ c.call := by
  cases c with
  | register q => exact nofun
  | deregister other => exact nofun

namespace Serialized

variable {calls : ι → RegistrationCall} {m : Machine ι} {a : Scheduler}
  {results : List (ι × Outcome)} {i : ι}

/-- The insertion of a record applies its registration. Assumes: a pid that is not listed. -/
theorem insert (hm : Serialized calls m a results) {q : Request}
    (hpc : m.threads i = .registerInsert q) (hpid : m.sched.listed q.pid = false) :
    Serialized calls
      { m with sched := m.sched.insert q, threads := Function.update m.threads i (.returned 0) }
      (performCall calls a i).2 (results ++ [(i, (performCall calls a i).1)]) := by
  obtain ⟨ledger, hledger⟩ := hm.ledger
  obtain ⟨pending, hpending, hsum⟩ := hm.total
  have hphase := hm.phase i
  rw [hpc] at hphase
  obtain ⟨hcall, hperiod, -⟩ := hphase
  have hafter : ∀ other, Pc.returned 0 ≠ .registerInsert other := nofun
  obtain ⟨rest, hrest, hpending'⟩ := hpending.erase (s := m.sched.insert q) hpc hafter
  have htotal := hm.total_lt
  have hroom : a.admits q.period q.procTime = true := by
    refine (admits_iff hledger.totalUtil_lt q.period q.procTime).mpr ?_
    change a.totalUtil.toNat + q.share.toNat < 726663
    omega
  have hpid' : a.listed q.pid = false := (hm.listed_eq q.pid).trans hpid
  have hperform : performCall calls a i =
      (.returned 0, a.registered q.pid q.period q.procTime q.found) := by
    rw [performCall, hcall, RegistrationCall.perform, taskRegister_of_room hpid' hperiod hroom]
  rw [hperform]
  refine ⟨⟨_, hledger.registered q.found hpid' hperiod hroom⟩, ?_, ?_, ?_,
    ⟨rest, hpending', ?_⟩, hm.total_lt, ?_⟩
  · rw [registered_tl, hm.tl, hm.fresh, insert_tl]
  · rw [registered_fresh, hm.fresh, insert_fresh]
  · funext b
    simp only [registered_slab, hm.slab, hm.fresh, insert_slab]
    rfl
  · rw [registered_totalUtil, toNat_totalUtil_add_share hledger.totalUtil_lt, insert_totalUtil]
    change a.totalUtil.toNat + q.share.toNat + _ = _
    omega
  · refine hm.phase_update (fun b hb ↦ ?_) (Nat.le_succ _)
      (fun j hj outcome ↦ mem_append_of_ne hj _ outcome)
      (List.mem_append_right _ (List.mem_singleton.mpr rfl))
    rw [insert_slab, Function.update_of_ne hb.ne]

/-- The removal of a record applies its deregistration. Assumes: a record that is listed. -/
theorem unlink (hm : Serialized calls m a results) {t : Addr}
    (hpc : m.threads i = .deregUnlink t) (ht : t ∈ m.sched.tl) :
    Serialized calls
      { m with
        sched := (m.sched.removeTask t).unlockTl
        threads := Function.update m.threads i (.returned 0) }
      (performCall calls a i).2 (results ++ [(i, (performCall calls a i).1)]) := by
  obtain ⟨ledger, hledger⟩ := hm.ledger
  obtain ⟨pending, hpending, hsum⟩ := hm.total
  have hphase := hm.phase i
  rw [hpc] at hphase
  obtain ⟨hcall, -, -⟩ := hphase
  have ht' : t ∈ a.tl := hm.tl ▸ ht
  have hfound : a.deregLookup (m.sched.slab t).pid = some t := hm.slab ▸ hledger.deregLookup_eq ht'
  have hperform : performCall calls a i =
      (.returned 0, ((a.lockTl.releaseCt t).removeTask t).unlockTl) := by
    rw [performCall, hcall, RegistrationCall.perform,
      taskDeregister_of_some hfound (hledger.period_ne_zero t ht')]
  have hsame := (sameTasks_lockTl a).trans (sameTasks_releaseCt a.lockTl t)
  have hle : (m.sched.slab t).share.toNat ≤ a.totalUtil.toNat := hm.slab ▸ hledger.share_le ht'
  have hpid := slab_removeTask_of_keep (fun record ↦ record.pid) (fun _ _ ↦ rfl) m.sched t
  rw [hperform]
  refine ⟨⟨_, ((hledger.of_sameTasks hsame).removeTask (hsame.tl ▸ ht')).of_sameTasks
    (sameTasks_unlockTl _)⟩, ?_, ?_, ?_, ⟨_, hpending.update ?_ nofun, ?_⟩, ?_, ?_⟩
  · rw [unlockTl_tl, removeTask_tl, hsame.tl, hm.tl]
    rfl
  · rw [unlockTl_fresh, removeTask_fresh, hsame.fresh, hm.fresh]
    rfl
  · change ((a.lockTl.releaseCt t).removeTask t).slab = (m.sched.removeTask t).slab
    have hslab : (a.lockTl.releaseCt t).slab = m.sched.slab :=
      (releaseCt_slab a.lockTl t).trans hm.slab
    rw [removeTask_slab, removeTask_slab, hslab]
  · intro q hq
    rw [hpc] at hq
    cases hq
  · simp only [unlockTl_totalUtil, removeTask_totalUtil, releaseCt_totalUtil, releaseCt_slab,
      lockTl_totalUtil, lockTl_slab, hm.slab]
    rw [UInt64.toNat_sub_of_le _ _ (UInt64.le_iff_toNat_le.mpr hle),
      UInt64.toNat_sub_of_le _ _ (UInt64.le_iff_toNat_le.mpr (by omega))]
    omega
  · have htotal := hm.total_lt
    simp only [unlockTl_totalUtil, removeTask_totalUtil]
    rw [UInt64.toNat_sub_of_le _ _ (UInt64.le_iff_toNat_le.mpr (by omega))]
    omega
  · exact hm.phase_update (fun b _ ↦ hpid b) le_rfl
      (fun j hj outcome ↦ mem_append_of_ne hj _ outcome)
      (List.mem_append_right _ (List.mem_singleton.mpr rfl))

/-- The store of `total_util` counts the share of a request that has not taken effect. Assumes: a
total that was not changed since it was loaded, with room for the share. -/
theorem store (hm : Serialized calls m a results) {q : Request} {loaded : UInt64}
    (hpc : m.threads i = .registerStore q loaded) (hloaded : loaded = m.sched.totalUtil)
    (hroom : m.sched.totalUtil.toNat + q.share.toNat < 726663) :
    Serialized calls
      { m with
        sched := m.sched.storeUtil (loaded + q.share)
        threads := Function.update m.threads i (.registerInsert q) } a results := by
  obtain ⟨pending, hpending, hsum⟩ := hm.total
  have hphase := hm.phase i
  rw [hpc] at hphase
  have hstored : (loaded + q.share).toNat = m.sched.totalUtil.toNat + q.share.toNat :=
    hloaded ▸ toNat_totalUtil_add_share hm.total_lt q.procTime q.period
  refine ⟨hm.ledger, hm.tl, hm.fresh, hm.slab, ⟨_, hpending.cons ?_ q, ?_⟩, ?_, ?_⟩
  · intro other hother
    rw [hpc] at hother
    cases hother
  · rw [storeUtil_totalUtil, hstored, List.map_cons, List.sum_cons]
    omega
  · rw [storeUtil_totalUtil, hstored]
    exact hroom
  · exact hm.phase_update (fun _ _ ↦ rfl) le_rfl (fun _ _ _ ↦ Iff.rfl) hphase

/-- A step without effect on the store keeps the relation. -/
theorem keep (hm : Serialized calls m a results) {before pc : Pc} {s : Scheduler}
    (hpc : m.threads i = before) (hs : SameStore m.sched s)
    (hbefore : ∀ q, before ≠ .registerInsert q) (hafter : ∀ q, pc ≠ .registerInsert q)
    (hphase : Phase calls s results i pc) :
    Serialized calls { m with sched := s, threads := Function.update m.threads i pc } a results :=
  hm.of_sameStore hs ⟨rfl, rfl, rfl, rfl⟩ (hpc ▸ hbefore) hafter (fun _ _ _ ↦ Iff.rfl) hphase

/-- A step without effect on the store keeps the relation with a call applied that has no effect
on the object. -/
theorem applied (hm : Serialized calls m a results) {before pc : Pc} {s b : Scheduler}
    {outcome : Outcome} (hpc : m.threads i = before) (hs : SameStore m.sched s)
    (hperform : performCall calls a i = (outcome, b)) (hab : SameStore a b)
    (hbefore : ∀ q, before ≠ .registerInsert q) (hafter : ∀ q, pc ≠ .registerInsert q)
    (hphase : Phase calls s (results ++ [(i, outcome)]) i pc) :
    Serialized calls { m with sched := s, threads := Function.update m.threads i pc }
      (performCall calls a i).2 (results ++ [(i, (performCall calls a i).1)]) := by
  rw [hperform]
  exact hm.of_sameStore hs hab (hpc ▸ hbefore) hafter
    (fun j hj other ↦ mem_append_of_ne hj outcome other) hphase

end Serialized

/-- Every step that fits keeps the relation, or applies the call of its thread. -/
theorem serialized_next {platform : Platform} {locks : Locks} {calls : ι → RegistrationCall}
    {m later : Machine ι} {i : ι} {a : Scheduler} {results : List (ι × Outcome)}
    (hm : Serialized calls m a results) (hfits : RegistrationFits m i)
    (hnext : nextRegistration platform locks m i = some later) :
    Serialized calls later a results ∨
      ∃ call, call ∉ results.map Prod.fst ∧
        Serialized calls later (performCall calls a call).2
          (results ++ [(call, (performCall calls a call).1)]) := by
  cases next_spec hnext with
  | @thread i pc s hthread =>
  have hphase := hm.phase i
  have hnew : (∀ outcome, (i, outcome) ∉ results) → i ∉ results.map Prod.fst := by
    intro hnot hmem
    obtain ⟨⟨j, outcome⟩, hentry, rfl⟩ := List.mem_map.mp hmem
    exact hnot outcome hentry
  have hmine : ∀ outcome, (i, outcome) ∈ results ++ [(i, outcome)] := fun outcome ↦
    List.mem_append_right _ (List.mem_singleton.mpr rfl)
  unfold RegistrationFits at hfits
  generalize hpc : m.threads i = before at hthread hphase hfits
  cases hthread with
  | @duplicate q hpid =>
    have hcall := RegistrationCall.eq_register hphase.1
    exact .inr ⟨i, hnew hphase.2, hm.applied hpc ⟨rfl, rfl, rfl, rfl⟩
      (hm.performCall_listed hcall hpid) ⟨rfl, rfl, rfl, rfl⟩ nofun nofun (hmine _)⟩
  | @unlisted q hpid =>
    have hcall := RegistrationCall.eq_register hphase.1
    by_cases hperiod : q.period = 0
    · -- the division by zero is decided here, although it happens at the test
      exact .inr ⟨i, hnew hphase.2, hm.applied hpc ⟨rfl, rfl, rfl, rfl⟩
        (hm.performCall_zero hcall hpid hperiod) ⟨rfl, rfl, rfl, rfl⟩ nofun nofun
        ⟨hcall, fun _ ↦ hmine _, fun hne ↦ absurd hperiod hne⟩⟩
    · exact .inl (hm.keep hpc ⟨rfl, rfl, rfl, rfl⟩ nofun nofun
        ⟨hcall, fun hzero ↦ absurd hzero hperiod, fun _ ↦ hphase.2⟩)
  | divide hperiod =>
    exact .inl (hm.keep hpc ⟨rfl, rfl, rfl, rfl⟩ nofun nofun (hphase.2.1 hperiod))
  | @reject q hperiod hfull =>
    obtain ⟨hcall, -, hnot⟩ := hphase
    obtain ⟨b, hperform, hab⟩ := hm.performCall_full hcall hperiod (hfits hperiod hfull)
    exact .inr ⟨i, hnew (hnot hperiod), hm.applied hpc ⟨rfl, rfl, rfl, rfl⟩ hperform hab nofun
      nofun (hmine _)⟩
  | admitted hperiod =>
    exact .inl (hm.keep hpc ⟨rfl, rfl, rfl, rfl⟩ nofun nofun
      ⟨hphase.1, hperiod, hphase.2.2 hperiod⟩)
  | load => exact .inl (hm.keep hpc ⟨rfl, rfl, rfl, rfl⟩ nofun nofun hphase)
  | store => exact .inl (hm.store hpc hfits.1 hfits.2)
  | insert => exact .inr ⟨i, hnew hphase.2.2, hm.insert hpc hfits⟩
  | yeildNone => exact absurd hphase.1 (RegistrationCall.ne_yeild _ _)
  | yeildFound => exact absurd hphase.1 (RegistrationCall.ne_yeild _ _)
  | @deregNone pid hnone =>
    have hcall := RegistrationCall.eq_deregister hphase.1
    exact .inr ⟨i, hnew hphase.2, hm.applied hpc ⟨rfl, rfl, rfl, rfl⟩
      (hm.performCall_none hcall hnone) ⟨rfl, rfl, rfl, rfl⟩ nofun nofun (hmine _)⟩
  | @deregFound pid t hfound =>
    obtain ⟨ledger, hledger⟩ := hm.ledger
    obtain ⟨ht, hpid⟩ := mem_of_deregLookup hfound
    have hcall := RegistrationCall.eq_deregister hphase.1
    refine .inl (hm.keep hpc ⟨rfl, rfl, rfl, rfl⟩ nofun nofun ⟨?_, ?_, hphase.2⟩)
    · rw [hcall, ← hpid]
      rfl
    · have hlt := hledger.tl_fresh t (hm.tl ▸ ht)
      rw [hm.fresh] at hlt
      exact hlt
  | current => exact .inl (hm.keep hpc ⟨rfl, rfl, rfl, rfl⟩ nofun nofun hphase)
  | other => exact .inl (hm.keep hpc ⟨rfl, rfl, rfl, rfl⟩ nofun nofun hphase)
  | deregClear => exact .inl (hm.keep hpc ⟨rfl, rfl, rfl, rfl⟩ nofun nofun hphase)
  | deregWake => exact .inl (hm.keep hpc ⟨rfl, rfl, rfl, rfl⟩ nofun nofun hphase)
  | @unlinkDivide t hzero =>
    -- a listed record has a nonzero period
    obtain ⟨ledger, hledger⟩ := hm.ledger
    have hperiod := hledger.period_ne_zero t (hm.tl ▸ hfits)
    rw [hm.slab] at hperiod
    exact absurd hzero hperiod
  | unlink => exact .inr ⟨i, hnew hphase.2.2, hm.unlink hpc hfits⟩
  | _ => exact absurd hphase id

/-! ### Runs -/

/-- In every run of registrations and removals whose steps fit, from any state that whole operations
leave: no pid is listed twice, `total_util` is below `MAX_UTIL`, and whenever no call is in progress
the state is that of the ended calls in some order. -/
theorem serializable_of_reachable {platform : Platform} {locks : Locks}
    {slab : Addr → Mp2TaskStruct} {ops : List Op} {now : UInt64} {calls : ι → RegistrationCall}
    {m : Machine ι}
    (hreach : ReachableUnder (nextRegistration platform locks) RegistrationFits
      (registrationStart (execAll platform (startOp slab) ops).state now calls) m) :
    ((m.sched.tl.map fun a ↦ (m.sched.slab a).pid).Nodup ∧ m.sched.totalUtil < maxUtil) ∧
      (Quiescent m → Serializable calls (execAll platform (startOp slab) ops).state m) := by
  have hbacked := exists_ledger (reachable_execAll platform (startOp slab) ops)
  generalize (execAll platform (startOp slab) ops).state = s at hreach hbacked
  obtain ⟨ledger, hledger⟩ := hbacked
  have hstart : Serialized calls (registrationStart s now calls) s [] := by
    refine ⟨⟨ledger, hledger⟩, rfl, rfl, rfl, ⟨[], ⟨List.nodup_nil, ?_⟩, ?_⟩,
      hledger.totalUtil_lt, fun i ↦ ⟨rfl, fun _ ↦ List.not_mem_nil⟩⟩
    · intro i share
      exact iff_of_false List.not_mem_nil fun ⟨_, hinsert, _⟩ ↦ by cases hinsert
    · rfl
  obtain ⟨order, hnodup, hm⟩ := hreach.exists_serialOrder (performCall calls) hstart
    fun before i later current results hbefore hfits hnext ↦ serialized_next hbefore hfits hnext
  obtain ⟨ledger', hledger'⟩ := hm.ledger
  refine ⟨⟨?_, ?_⟩, fun hquiet ↦ ?_⟩
  · have hpids := hledger'.pids_nodup
    rw [hm.tl, hm.slab] at hpids
    exact hpids
  · rw [UInt64.lt_iff_toNat_lt, toNat_maxUtil]
    exact hm.total_lt
  · refine ⟨order, hnodup, fun i ↦ ?_, ?_, ?_, fun i outcome ↦ (hm.phase i).mem_results⟩
    · rw [← map_fst_serialResults (performCall calls) s order, List.mem_map]
      constructor
      · rintro ⟨⟨j, outcome⟩, hmem, rfl⟩
        refine (hquiet j).resolve_right ?_
        rintro ⟨call, hcall⟩
        have hphase := hm.phase j
        rw [hcall] at hphase
        exact hphase.2 outcome hmem
      · intro hended
        obtain ⟨outcome, houtcome⟩ := Option.ne_none_iff_exists'.mp hended
        exact ⟨(i, outcome), (hm.phase i).mem_results houtcome, rfl⟩
    · unfold Scheduler.listing
      rw [hm.tl, hm.slab]
    · -- no share is outstanding when no call is in progress
      obtain ⟨pending, hpending, hsum⟩ := hm.total
      have hempty : pending = [] := by
        refine List.eq_nil_iff_forall_not_mem.mpr ?_
        rintro ⟨i, share⟩ hmem
        obtain ⟨q, hq, -⟩ := (hpending.mem_iff i share).mp hmem
        rcases hquiet i with hended | ⟨call, hcall⟩
        · rw [hq] at hended
          exact hended rfl
        · rw [hq] at hcall
          cases hcall
      rw [hempty] at hsum
      exact UInt64.toNat_inj.mp hsum.symm

/-- Two registrations that interleave in every step but the updates of `total_util`: both are
admitted, and the state is that of some order. -/
theorem serializable_of_reachable_interleaved :
    let calls : Fin 2 → RegistrationCall := fun i ↦
      if i = 0 then .register ⟨1, 100, 10, some 1⟩ else .register ⟨2, 200, 10, some 2⟩
    let s := (execAll platformHz1000 (startOp zeroSlab) []).state
    ∃ m, m.sched.tl = [0, 1] ∧ Serializable calls s m := by
  intro calls s
  obtain ⟨m, hreach, htl, hreturned⟩ : ∃ m, ReachableUnder (nextRegistration platformHz1000 mutexes)
      RegistrationFits (registrationStart s 5 calls) m ∧ m.sched.tl = [0, 1] ∧
        ∀ i, (m.threads i).outcome = some (.returned 0) :=
    exists_reachableUnder_of_run [0, 1, 0, 0, 0, 1, 1, 1, 1, 0] (by decide +kernel)
      (by decide +kernel)
  refine ⟨m, htl, (serializable_of_reachable hreach).2 fun i ↦ .inl ?_⟩
  rw [hreturned]
  exact Option.some_ne_none _

/-- The operation of a call. -/
def RegistrationCall.op : RegistrationCall → Op
  | .register q => .register q.pid q.period q.procTime q.found
  | .deregister pid => .deregister pid

omit [DecidableEq ι] in
/-- Calls run one after another never list a pid twice. Assumes: a scheduler backed by a ledger. -/
theorem pids_nodup_serialState {calls : ι → RegistrationCall} {s : Scheduler}
    (hs : ∃ ledger, Refines s ledger) (order : List ι) :
    ((serialState (performCall calls) s order).listing.map Mp2TaskStruct.pid).Nodup := by
  suffices hledger : ∃ ledger, Refines (serialState (performCall calls) s order) ledger by
    obtain ⟨ledger, hledger⟩ := hledger
    rw [Scheduler.listing, List.map_map]
    exact hledger.pids_nodup
  induction order generalizing s with
  | nil => exact hs
  | cons i rest ih =>
    obtain ⟨ledger, hledger⟩ := hs
    have hexec : (performCall calls s i).2 = (exec platformHz1000 (calls i).op s).state := by
      unfold performCall
      cases calls i with
      | register q => rfl
      | deregister pid => rfl
    refine ih ⟨ledgerStep (calls i).op ledger, ?_⟩
    rw [hexec]
    exact refines_exec hledger platformHz1000 (calls i).op

/-- Two registrations of pid 1 pass the duplicate check before either inserts its record: both
return 0 and pid 1 is listed twice, which no order of the calls gives. -/
theorem serializable_lost :
    let calls : Fin 2 → RegistrationCall := fun _ ↦ .register ⟨1, 100, 10, some 1⟩
    let s := (execAll platformHz1000 (startOp zeroSlab) []).state
    ∃ m, Reachable (nextRegistration platformHz1000 mutexes) (registrationStart s 5 calls) m ∧
      (∀ i, (m.threads i).outcome = some (.returned 0)) ∧ ¬ Serializable calls s m := by
  intro calls s
  obtain ⟨m, hreach, hreturned, htwice⟩ :
      ∃ m, Reachable (nextRegistration platformHz1000 mutexes) (registrationStart s 5 calls) m ∧
        (∀ i, (m.threads i).outcome = some (.returned 0)) ∧
          ¬ (m.sched.listing.map Mp2TaskStruct.pid).Nodup :=
    exists_reachableUnder_of_run [0, 1, 0, 0, 0, 0, 1, 1, 1, 1] (by decide +kernel)
      (by decide +kernel)
  refine ⟨m, hreach, hreturned, ?_⟩
  rintro ⟨order, -, -, hlisting, -⟩
  rw [hlisting] at htwice
  exact htwice (pids_nodup_serialState
    (exists_ledger (reachable_execAll platformHz1000 (startOp zeroSlab) [])) order)

end KernelModules.RateMonotonic
