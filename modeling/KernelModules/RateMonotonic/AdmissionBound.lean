import KernelModules.RateMonotonic.UtilisationAccounting

/-!
# Admission control in exact arithmetic

The admission test bounds `total_util`, a sum of 64-bit fixed-point shares. What it should bound is
the exact utilisation, the rational sum of `proc_time / period` over the registered tasks, by a
figure just under `ln 2` (`utilBound`). A share leaves out what the shift loses modulo `2^64` and
what the division truncates (`droppedUtil`), and the exact utilisation is the counted one plus what
the shares of the listed tasks leave out (`exactUtil_eq`).

One step keeps the bound exactly when what the shares drop fits in what `total_util` leaves below it
(`AdmissionFits`). That is so for requests with a nonzero period whose shift does not overflow, as
long as at most 106 tasks are listed (`admissionFits_of_few_tasks`), and so in every run of such
requests no registration divides by zero and the exact utilisation stays bounded
(`admissionSound_of_reachable`).
-/

set_option autoImplicit false
set_option relaxedAutoImplicit false

namespace KernelModules.RateMonotonic

open Foundation Scheduler

/-! ### Exact and counted utilisation -/

/-- The bound on the exact utilisation, just under the Liu-Layland limit `ln 2`. -/
def utilBound : ℚ := 6931 / 10000

/-- The utilisation `proc_time / period` of a request. -/
def utilOf (procTime period : UInt64) : ℚ := (procTime.toNat : ℚ) / period.toNat

/-- What the share of a request leaves out of its utilisation. -/
def droppedUtil (procTime period : UInt64) : ℚ :=
  utilOf procTime period - ((share procTime period).toNat : ℚ) / 2 ^ 20

namespace Scheduler

/-- The exact utilisation of the registered tasks. -/
def exactUtil (s : Scheduler) : ℚ :=
  (s.tl.map fun a ↦ utilOf (s.slab a).procTime (s.slab a).period).sum

/-- What the shares of the registered tasks leave out. -/
def dropped (s : Scheduler) : ℚ :=
  (s.tl.map fun a ↦ droppedUtil (s.slab a).procTime (s.slab a).period).sum

end Scheduler

/-- Over any tasks, the utilisation is what the shares count plus what they leave out. -/
theorem sum_utilOf_eq (slab : Addr → Mp2TaskStruct) (tasks : List Addr) :
    (tasks.map fun a ↦ utilOf (slab a).procTime (slab a).period).sum =
      ((tasks.map fun a ↦ (slab a).share.toNat).sum : ℚ) / 2 ^ 20 +
        (tasks.map fun a ↦ droppedUtil (slab a).procTime (slab a).period).sum := by
  induction tasks with
  | nil => simp
  | cons a rest ih =>
    simp only [List.map_cons, List.sum_cons] at ih ⊢
    rw [ih]
    unfold droppedUtil Mp2TaskStruct.share
    push_cast
    ring

/-- The exact utilisation is the counted one plus what the shares leave out. Assumes: a scheduler
backed by a ledger. -/
theorem exactUtil_eq {s : Scheduler} {ledger : Ledger UInt32 726663} (hs : Refines s ledger) :
    s.exactUtil = (s.totalUtil.toNat : ℚ) / 2 ^ 20 + s.dropped := by
  unfold Scheduler.exactUtil Scheduler.dropped
  rw [sum_utilOf_eq, hs.sum_shares]

/-- The utilisation of a request is not negative. -/
theorem utilOf_nonneg (procTime period : UInt64) : 0 ≤ utilOf procTime period := by
  unfold utilOf
  positivity

/-- A share without overflow leaves out less than one unit of the fixed-point scale. Assumes: a
nonzero period, and a processing time whose shift does not overflow. -/
theorem droppedUtil_lt {procTime period : UInt64} (hperiod : period ≠ 0)
    (hprocTime : procTime.toNat < 2 ^ 44) : droppedUtil procTime period < 1 / 2 ^ 20 := by
  have hpositive : 0 < period.toNat := by
    refine Nat.pos_of_ne_zero fun hzero ↦ hperiod ?_
    rw [← UInt64.toNat_inj, hzero]
    rfl
  have hmod : procTime.toNat * 2 ^ 20 % 2 ^ 64 = procTime.toNat * 2 ^ 20 :=
    Nat.mod_eq_of_lt (by omega)
  have hfloor : procTime.toNat * 2 ^ 20 < ((share procTime period).toNat + 1) * period.toNat := by
    rw [toNat_share, hmod, mul_comm _ period.toNat]
    exact Nat.lt_mul_div_succ _ hpositive
  have hcast : (procTime.toNat : ℚ) * 2 ^ 20 <
      ((share procTime period).toNat + 1) * period.toNat := by exact_mod_cast hfloor
  have hpositive' : (0 : ℚ) < period.toNat := by exact_mod_cast hpositive
  unfold droppedUtil utilOf
  rw [sub_lt_iff_lt_add, div_lt_iff₀ hpositive']
  have hscale : (procTime.toNat : ℚ) =
      (procTime.toNat : ℚ) * 2 ^ 20 / 2 ^ 20 := by field_simp
  rw [hscale, div_lt_iff₀ (by positivity)]
  calc (procTime.toNat : ℚ) * 2 ^ 20
      < ((share procTime period).toNat + 1) * period.toNat := hcast
    _ = (1 / 2 ^ 20 + (share procTime period).toNat / 2 ^ 20) * period.toNat * 2 ^ 20 := by
      field_simp
      ring

/-! ### What the operations do to the exact utilisation -/

/-- Operations that keep the tasks keep the exact utilisation. -/
theorem SameTasks.exactUtil {s t : Scheduler} (hsame : SameTasks s t) :
    t.exactUtil = s.exactUtil := by
  unfold Scheduler.exactUtil
  rw [hsame.tl]
  simp only [hsame.procTime, hsame.period]

/-- A registration adds the utilisation of the request. Assumes: listed records that are
allocated. -/
theorem exactUtil_registered {s : Scheduler} (hfresh : ∀ a ∈ s.tl, a < s.fresh) (pid : UInt32)
    (period procTime : UInt64) (found : Option LinuxTask) :
    (s.registered pid period procTime found).exactUtil =
      s.exactUtil + utilOf procTime period := by
  have hold : ∀ a ∈ s.tl, (s.registered pid period procTime found).slab a = s.slab a := by
    intro a ha
    rw [registered_slab, Function.update_of_ne (hfresh a ha).ne]
  have hnew : (s.registered pid period procTime found).slab s.fresh =
      newTask pid period procTime found := by
    rw [registered_slab, Function.update_self]
  unfold Scheduler.exactUtil
  rw [registered_tl, List.map_append, List.sum_append, List.map_singleton, List.sum_singleton, hnew]
  congr 2
  exact List.map_congr_left fun a ha ↦ by rw [hold a ha]

/-- A removal takes the utilisation of the task away. -/
theorem exactUtil_removeTask {s : Scheduler} {t : Addr} (ht : t ∈ s.tl) :
    utilOf (s.slab t).procTime (s.slab t).period + (s.removeTask t).exactUtil = s.exactUtil := by
  have hperiod := slab_removeTask_of_keep (fun task ↦ task.period) (fun _ _ ↦ rfl) s t
  have hprocTime := slab_removeTask_of_keep (fun task ↦ task.procTime) (fun _ _ ↦ rfl) s t
  unfold Scheduler.exactUtil
  simp only [removeTask_tl, hperiod, hprocTime]
  exact List.sum_map_erase (fun a ↦ utilOf (s.slab a).procTime (s.slab a).period) ht

/-- A removal adds no utilisation. -/
theorem exactUtil_removeTask_le {s : Scheduler} {t : Addr} (ht : t ∈ s.tl) :
    (s.removeTask t).exactUtil ≤ s.exactUtil := by
  have hsum := exactUtil_removeTask ht
  have hnonneg := utilOf_nonneg (s.slab t).procTime (s.slab t).period
  linarith

/-! ### The law over runs -/

/-- No division by zero ended the operation, and the exact utilisation is bounded. -/
def AdmissionSound (r : Result) : Prop :=
  r.outcome ≠ .faulted .divideError ∧ r.state.exactUtil ≤ utilBound

/-- A registration of a pid that is not listed has a nonzero period and, when the test admits it,
what the shares leave out fits in what the new total leaves below the bound. -/
def AdmissionFits (s : Scheduler) : Op → Prop
  | .register pid period procTime _ => s.listed pid = true ∨
      (period ≠ 0 ∧ (s.admits period procTime = true →
        s.dropped + droppedUtil procTime period ≤
          utilBound - (s.totalUtil.toNat + (share procTime period).toNat : ℕ) / 2 ^ 20))
  | _ => True

/-- A request fits when the listed tasks and the request have no overflow in their shift and fewer
than 106 tasks are listed. Assumes: a scheduler backed by a ledger. -/
theorem admissionFits_of_few_tasks {s : Scheduler} {ledger : Ledger UInt32 726663}
    (hs : Refines s ledger) (hlisted : ∀ a ∈ s.tl, (s.slab a).procTime.toNat < 2 ^ 44)
    (hlength : s.tl.length < 106) {period procTime : UInt64} (hperiod : period ≠ 0)
    (hprocTime : procTime.toNat < 2 ^ 44) (pid : UInt32) (found : Option LinuxTask) :
    AdmissionFits s (.register pid period procTime found) := by
  refine .inr ⟨hperiod, fun hroom ↦ ?_⟩
  have hown := droppedUtil_lt hperiod hprocTime
  have hdropped : s.dropped ≤ s.tl.length * (1 / 2 ^ 20) := by
    have hsum : s.dropped ≤ (s.tl.map fun _ ↦ (1 / 2 ^ 20 : ℚ)).sum :=
      List.sum_le_sum fun a ha ↦ (droppedUtil_lt (hs.period_ne_zero a ha) (hlisted a ha)).le
    rw [List.map_const', List.sum_replicate, nsmul_eq_mul] at hsum
    exact hsum
  have hlength' : (s.tl.length : ℚ) ≤ 105 := by
    have hle : s.tl.length ≤ 105 := by omega
    exact_mod_cast hle
  have htotal := (admits_iff hs.totalUtil_lt period procTime).mp hroom
  have htotal' : ((s.totalUtil.toNat + (share procTime period).toNat : ℕ) : ℚ) ≤ 726662 := by
    have hle : s.totalUtil.toNat + (share procTime period).toNat ≤ 726662 := by omega
    exact_mod_cast hle
  unfold utilBound
  linarith

/-- The section under `ct_lock` does not divide. -/
theorem ctSection_ne_divideError (highest : Option Addr) (s : Scheduler) :
    (ctSection highest s).outcome ≠ .faulted .divideError := by
  have hstep := ctSection_step s highest
  generalize ctSection highest s = result at hstep
  cases hstep <;> simp

/-- An operation keeps the law exactly when it fits. Assumes: a scheduler backed by a ledger, with
bounded exact utilisation. -/
theorem admissionSound_exec_iff {s : Scheduler} {ledger : Ledger UInt32 726663}
    (hledger : Refines s ledger) (hs : s.exactUtil ≤ utilBound) (platform : Platform) (op : Op) :
    AdmissionSound (exec platform op s) ↔ AdmissionFits s op := by
  have hkept : ∀ t, SameTasks s t → t.exactUtil ≤ utilBound := fun t hsame ↦ by
    rw [hsame.exactUtil]
    exact hs
  cases op with
  | register pid period procTime found =>
    simp only [exec, AdmissionFits]
    rcases taskRegister_cases pid period procTime found s with
      ⟨hpid, hresult⟩ | ⟨hpid, hperiod, hresult⟩ | ⟨hpid, hperiod, hroom, hresult⟩ |
        ⟨hpid, hperiod, hroom, hresult⟩
    · rw [hresult]
      exact iff_of_true ⟨by simp, hkept _ (sameTasks_lockTl s)⟩ (.inl hpid)
    · rw [hresult]
      refine iff_of_false (fun hsound ↦ hsound.1 rfl) ?_
      rintro (hlisted | ⟨hne, -⟩)
      · rw [hpid] at hlisted
        cases hlisted
      · exact hne hperiod
    · rw [hresult]
      refine iff_of_true ⟨by simp, hkept _ (sameTasks_unlockTl s)⟩ (.inr ⟨hperiod, fun hadmit ↦ ?_⟩)
      rw [hroom] at hadmit
      cases hadmit
    · have hexact : (s.registered pid period procTime found).exactUtil =
          s.dropped + droppedUtil procTime period +
            (s.totalUtil.toNat + (share procTime period).toNat : ℕ) / 2 ^ 20 := by
        rw [exactUtil_registered hledger.tl_fresh, exactUtil_eq hledger, droppedUtil]
        push_cast
        ring
      rw [hresult]
      constructor
      · rintro ⟨-, hbound⟩
        refine .inr ⟨hperiod, fun _ ↦ ?_⟩
        change (s.registered pid period procTime found).exactUtil ≤ utilBound at hbound
        rw [hexact] at hbound
        linarith
      · rintro (hlisted | ⟨-, hfits⟩)
        · rw [hpid] at hlisted
          cases hlisted
        · refine ⟨by simp, ?_⟩
          change (s.registered pid period procTime found).exactUtil ≤ utilBound
          have hfits' := hfits hroom
          rw [hexact]
          linarith
  | yeild pid now =>
    refine iff_of_true ⟨?_, hkept _ (sameTasks_taskYeild platform pid now s)⟩ trivial
    simp only [exec]
    rcases taskYeild_cases platform pid now s with
      ⟨-, hresult⟩ | ⟨t, -, ⟨-, hresult⟩ | ⟨-, -, hresult⟩ | ⟨-, -, hresult⟩⟩ <;>
      simp [hresult]
  | deregister pid =>
    refine iff_of_true ?_ trivial
    simp only [exec]
    rcases taskDeregister_cases pid s with
      ⟨-, hresult⟩ | ⟨t, hfound, ⟨hperiod, -⟩ | ⟨-, hresult⟩⟩
    · rw [hresult]
      exact ⟨by simp, hkept _ (sameTasks_unlockTl s)⟩
    · exact absurd hperiod (hledger.period_ne_zero t (mem_of_deregLookup hfound).1)
    · have hsame := (sameTasks_lockTl s).trans (sameTasks_releaseCt s.lockTl t)
      have hle := exactUtil_removeTask_le (s := s.lockTl.releaseCt t)
        (hsame.tl ▸ (mem_of_deregLookup hfound).1)
      rw [hresult]
      exact ⟨by simp, hle.trans (hkept _ hsame)⟩
  | timer data =>
    exact iff_of_true ⟨by simp [exec], hkept _ (sameTasks_mp2TimerCallback data s)⟩ trivial
  | dispatch =>
    refine iff_of_true ⟨?_, hkept _ (sameTasks_dispachingIteration s)⟩ trivial
    simp only [exec]
    rw [dispachingIteration_eq]
    unfold Result.andThen
    split
    · simp
    · exact ctSection_ne_divideError s.highestReady s.unlockTl

/-- A registration of a pid that is not listed has a nonzero period and a `proc_time` whose shift
does not overflow, and comes while fewer than 106 tasks are listed. -/
def RequestFits (s : Scheduler) : Op → Prop
  | .register pid period procTime _ => s.listed pid = true ∨
      (period ≠ 0 ∧ procTime.toNat < 2 ^ 44 ∧ s.tl.length < 106)
  | _ => True

instance (s : Scheduler) : DecidablePred (RequestFits s)
  | .register _ _ _ _ => inferInstanceAs (Decidable (_ ∨ (_ ∧ _ ∧ _)))
  | .yeild _ _ => isTrue trivial
  | .deregister _ => isTrue trivial
  | .timer _ => isTrue trivial
  | .dispatch => isTrue trivial

/-- What runs of fitting requests keep: a ledger behind the scheduler, shifts that do not overflow,
and the law. -/
structure Admitted (r : Result) : Prop where
  ledger : ∃ ledger, Refines r.state ledger
  procTime_lt : ∀ a ∈ r.state.tl, (r.state.slab a).procTime.toNat < 2 ^ 44
  sound : AdmissionSound r

/-- An operation whose request fits keeps what is known. -/
theorem Admitted.exec {r : Result} (hr : Admitted r) (platform : Platform) {op : Op}
    (hfits : RequestFits r.state op) : Admitted (exec platform op r.state) := by
  obtain ⟨ledger, hledger⟩ := hr.ledger
  refine ⟨⟨_, refines_exec hledger platform op⟩, fun a ha ↦ ?_, ?_⟩
  · rcases fixed_of_mem_tl_exec platform ha with
      ⟨hlisted, hfixed⟩ | ⟨pid, period, procTime, found, rfl, hpid, hnew⟩
    · have hsame := congrArg (·.2.2.1) hfixed
      exact lt_of_eq_of_lt (congrArg UInt64.toNat hsame) (hr.procTime_lt a hlisted)
    · rcases hfits with hlisted | ⟨-, hsmall, -⟩
      · cases hpid.symm.trans hlisted
      · rw [hnew]
        exact hsmall
  · refine (admissionSound_exec_iff hledger hr.sound.2 platform op).mpr ?_
    cases op with
    | register pid period procTime found =>
      rcases hfits with hlisted | ⟨hperiod, hsmall, hfew⟩
      · exact Or.inl hlisted
      · exact admissionFits_of_few_tasks hledger hr.procTime_lt hfew hperiod hsmall pid found
    | _ => trivial

/-- What runs of fitting requests keep holds in every state that they reach. -/
theorem Admitted.of_reachable {platform : Platform} {slab : Addr → Mp2TaskStruct} {r : Result}
    (hreach : ReachableUnder (nextOp platform) (fun r op ↦ RequestFits r.state op) (startOp slab)
      r) : Admitted r := by
  refine hreach.invariant Admitted ⟨⟨_, refines_mp2Init slab⟩, fun a ha ↦ ?_, ?_⟩ ?_
  · exact absurd ha List.not_mem_nil
  · exact ⟨by simp [startOp], by norm_num [startOp, mp2Init, Scheduler.exactUtil, utilBound]⟩
  · rintro before op later hbefore hfits hnext
    cases hnext
    exact hbefore.exec platform hfits

/-- In every run in which every registration of a pid that is not listed has a nonzero period and a
`proc_time` below `2^44`, and comes while fewer than 106 tasks are listed, no registration divides
by zero and the exact utilisation is bounded. -/
theorem admissionSound_of_reachable {platform : Platform} {slab : Addr → Mp2TaskStruct}
    {r : Result}
    (hreach : ReachableUnder (nextOp platform) (fun r op ↦ RequestFits r.state op) (startOp slab)
      r) : AdmissionSound r :=
  (Admitted.of_reachable hreach).sound

/-- Two tasks with utilisation 1/3 each: a third one with 1/3 is refused. -/
theorem admissionSound_of_reachable_twoTasks :
    ∃ r, r.state.tl.length = 2 ∧ r.outcome = .returned (-1) ∧ AdmissionSound r := by
  have hreach : ReachableUnder (nextOp platformHz1000) (fun r op ↦ RequestFits r.state op)
      (startOp zeroSlab) (execAll platformHz1000 (startOp zeroSlab)
        [.register 1 30 10 (some 1), .register 2 60 20 (some 2), .register 3 3 1 (some 3)]) :=
    Meets.reachableUnder .refl (by decide +kernel) (run_nextOp platformHz1000 (startOp zeroSlab) _)
  exact ⟨_, by decide +kernel, by decide +kernel, admissionSound_of_reachable hreach⟩

/-- A first registration with period 0 divides by zero; one with `proc_time` `2^44` and period 1 has
share 0 and is admitted with utilisation `2^44`. -/
theorem admissionSound_lost :
    ¬ AdmissionSound (execAll platformHz1000 (startOp zeroSlab) [.register 1 0 1 (some 1)]) ∧
      ¬ AdmissionSound (execAll platformHz1000 (startOp zeroSlab)
        [.register 1 1 (2 ^ 44) (some 1)]) := by
  constructor
  · rintro ⟨hfault, -⟩
    exact hfault (by decide)
  · rintro ⟨-, hbound⟩
    have hexact : (execAll platformHz1000 (startOp zeroSlab)
        [.register 1 1 (2 ^ 44) (some 1)]).state.exactUtil = 2 ^ 44 := by
      decide +kernel
    rw [hexact] at hbound
    norm_num [utilBound] at hbound

end KernelModules.RateMonotonic
