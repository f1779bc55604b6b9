import KernelModules.Foundation.Ledger
import KernelModules.RateMonotonic.AtomicRuns

/-!
# Utilisation accounting

`total_util` is kept incrementally by `Task_register` and `Task_deregister`, which each recompute
the share of the task on 64 bits. The scheduler refines a `Ledger` of reservations under the bound
`MAX_UTIL`: the listed pids with their shares are its entries and `total_util` is its total
(`Refines`). A registration is a reservation, a deregistration a release, and every other operation
changes nothing (`refines_exec`), so every state of every run is backed by a ledger.

The admission test is exact because its sum does not wrap. The shifted value is a multiple of `2^20`
below `2^64`, so a share is at most `2^64 - 2^20`, and `total_util` is below `MAX_UTIL < 2^20`
(`toNat_share_le`, `toNat_totalUtil_add_share`).
-/

set_option autoImplicit false
set_option relaxedAutoImplicit false

namespace KernelModules.RateMonotonic

open Foundation Scheduler

/-! ### Shares -/

/-- `MAX_UTIL` as a natural number. -/
theorem toNat_maxUtil : maxUtil.toNat = 726663 := rfl

/-- The bits that survive the shift form a multiple of `2^20`. -/
theorem shifted_eq (procTime : ℕ) : procTime * 2 ^ 20 % 2 ^ 64 = procTime % 2 ^ 44 * 2 ^ 20 := by
  have hpow : (2 : ℕ) ^ 64 = 2 ^ 44 * 2 ^ 20 := by norm_num
  rw [hpow, Nat.mul_mod_mul_right]

/-- A share is at most `2^64 - 2^20`. -/
theorem toNat_share_le (procTime period : UInt64) :
    (share procTime period).toNat ≤ 2 ^ 64 - 2 ^ 20 := by
  rw [toNat_share, shifted_eq]
  have hmod : procTime.toNat % 2 ^ 44 ≤ 2 ^ 44 - 1 := by
    have := Nat.mod_lt procTime.toNat (by norm_num : 0 < 2 ^ 44)
    omega
  calc procTime.toNat % 2 ^ 44 * 2 ^ 20 / period.toNat
      ≤ procTime.toNat % 2 ^ 44 * 2 ^ 20 := Nat.div_le_self _ _
    _ ≤ (2 ^ 44 - 1) * 2 ^ 20 := Nat.mul_le_mul_right _ hmod
    _ = 2 ^ 64 - 2 ^ 20 := by norm_num

/-- The sum of the admission test does not wrap. Assumes: a total below `MAX_UTIL`. -/
theorem toNat_totalUtil_add_share {s : Scheduler} (hs : s.totalUtil.toNat < 726663)
    (procTime period : UInt64) :
    (s.totalUtil + share procTime period).toNat =
      s.totalUtil.toNat + (share procTime period).toNat := by
  have hshare := toNat_share_le procTime period
  rw [UInt64.toNat_add]
  exact Nat.mod_eq_of_lt (by omega)

/-- The admission test compares exact sums. Assumes: a total below `MAX_UTIL`. -/
theorem admits_iff {s : Scheduler} (hs : s.totalUtil.toNat < 726663) (period procTime : UInt64) :
    s.admits period procTime = true ↔
      s.totalUtil.toNat + (share procTime period).toNat < 726663 := by
  rw [← toNat_totalUtil_add_share hs, admits, Bool.not_eq_true', decide_eq_false_iff_not,
    UInt64.le_iff_toNat_le, toNat_maxUtil, not_le]

/-! ### The scheduler refines a ledger -/

/-- The listed pids with their shares, in list order. -/
def Scheduler.reservations (s : Scheduler) : List (UInt32 × ℕ) :=
  s.tl.map fun a ↦ ((s.slab a).pid, (s.slab a).share.toNat)

/-- The scheduler is backed by a ledger: the listed tasks are the reservations, `total_util` is
their total, and the listed records are allocated, with nonzero periods. -/
structure Refines (s : Scheduler) (ledger : Ledger UInt32 726663) : Prop where
  entries : s.reservations = ledger.entries
  total : s.totalUtil.toNat = ledger.total
  tl_fresh : ∀ a ∈ s.tl, a < s.fresh
  period_ne_zero : ∀ a ∈ s.tl, (s.slab a).period ≠ 0

/-- What an operation does to the ledger. -/
def ledgerStep : Op → Ledger UInt32 726663 → Ledger UInt32 726663
  | .register pid period procTime _, ledger =>
    if period = 0 then ledger else ledger.reserve pid (share procTime period).toNat
  | .deregister pid, ledger => ledger.release pid
  | _, ledger => ledger

namespace Refines

variable {s t : Scheduler} {ledger : Ledger UInt32 726663}

/-- The total is below `MAX_UTIL`. -/
theorem totalUtil_lt (hs : Refines s ledger) : s.totalUtil.toNat < 726663 :=
  lt_of_eq_of_lt hs.total ledger.total_lt

/-- The keys of the ledger are the listed pids. -/
theorem keys_eq (hs : Refines s ledger) : ledger.keys = s.tl.map fun a ↦ (s.slab a).pid := by
  rw [Ledger.keys, ← hs.entries, reservations, List.map_map]
  rfl

/-- A pid is listed exactly when it holds a reservation. -/
theorem listed_iff_mem_keys (hs : Refines s ledger) (pid : UInt32) :
    s.listed pid = true ↔ pid ∈ ledger.keys := by
  rw [Scheduler.listed_iff, hs.keys_eq, List.mem_map]

/-- No pid is listed twice. -/
theorem pids_nodup (hs : Refines s ledger) : (s.tl.map fun a ↦ (s.slab a).pid).Nodup :=
  hs.keys_eq ▸ ledger.keys_nodup

/-- No record is linked twice. -/
theorem tl_nodup (hs : Refines s ledger) : s.tl.Nodup := List.Nodup.of_map _ hs.pids_nodup

/-- Listed tasks with the same pid are the same task. -/
theorem eq_of_pid_eq (hs : Refines s ledger) {a b : Addr} (ha : a ∈ s.tl) (hb : b ∈ s.tl)
    (hpid : (s.slab a).pid = (s.slab b).pid) : a = b :=
  List.inj_on_of_nodup_map hs.pids_nodup ha hb hpid

/-- The lookup of the pid of a listed task finds that task. -/
theorem deregLookup_eq (hs : Refines s ledger) {a : Addr} (ha : a ∈ s.tl) :
    s.deregLookup (s.slab a).pid = some a := by
  cases hfound : s.deregLookup (s.slab a).pid with
  | none =>
    have hlisted : s.listed (s.slab a).pid = true := Scheduler.listed_iff.mpr ⟨a, ha, rfl⟩
    rw [deregLookup_eq_none_iff.mp hfound] at hlisted
    cases hlisted
  | some b =>
    obtain ⟨hb, hpid⟩ := mem_of_deregLookup hfound
    rw [hs.eq_of_pid_eq hb ha hpid]

/-- The sum of the shares of the listed tasks. -/
theorem sum_shares (hs : Refines s ledger) :
    s.totalUtil.toNat = (s.tl.map fun a ↦ (s.slab a).share.toNat).sum := by
  rw [hs.total, Ledger.total, ← hs.entries, reservations, List.map_map]
  rfl

/-- The share of a listed task is at most the total. -/
theorem share_le (hs : Refines s ledger) {a : Addr} (ha : a ∈ s.tl) :
    (s.slab a).share.toNat ≤ s.totalUtil.toNat := by
  have hentry : ((s.slab a).pid, (s.slab a).share.toNat) ∈ ledger.entries :=
    hs.entries ▸ List.mem_map.mpr ⟨a, ha, rfl⟩
  exact (ledger.weight_le_total hentry).trans_eq hs.total.symm

/-- An operation that keeps the tasks keeps the ledger. -/
theorem of_sameTasks (hs : Refines s ledger) (hsame : SameTasks s t) : Refines t ledger where
  entries := by
    rw [← hs.entries, reservations, reservations, hsame.tl]
    refine List.map_congr_left fun a _ ↦ ?_
    rw [hsame.pid, hsame.share]
  total := by rw [hsame.totalUtil, hs.total]
  tl_fresh := by
    rw [hsame.tl, hsame.fresh]
    exact hs.tl_fresh
  period_ne_zero := by
    intro a ha
    rw [hsame.period]
    exact hs.period_ne_zero a (hsame.tl ▸ ha)

/-- An admitted registration is a reservation. Assumes: a pid that is not listed, a nonzero period,
and a share the bound leaves room for. -/
theorem registered (hs : Refines s ledger) {pid : UInt32} {period procTime : UInt64}
    (found : Option LinuxTask) (hpid : s.listed pid = false) (hperiod : period ≠ 0)
    (hroom : s.admits period procTime = true) :
    Refines (s.registered pid period procTime found)
      (ledger.reserve pid (share procTime period).toNat) := by
  have hkey : pid ∉ ledger.keys := by
    rw [← hs.listed_iff_mem_keys, hpid]
    exact Bool.false_ne_true
  have hsum : s.totalUtil.toNat + (share procTime period).toNat < 726663 :=
    (admits_iff hs.totalUtil_lt period procTime).mp hroom
  have hentries := Ledger.entries_reserve hkey (hs.total ▸ hsum)
  have hold : ∀ a ∈ s.tl, (s.registered pid period procTime found).slab a = s.slab a := by
    intro a ha
    rw [registered_slab, Function.update_of_ne (hs.tl_fresh a ha).ne]
  have hnew : (s.registered pid period procTime found).slab s.fresh =
      newTask pid period procTime found := by
    rw [registered_slab, Function.update_self]
  refine ⟨?_, ?_, ?_, ?_⟩
  · rw [hentries, ← hs.entries, reservations, registered_tl, List.map_append, List.map_singleton,
      hnew, reservations]
    congr 1
    exact List.map_congr_left fun a ha ↦ by rw [hold a ha]
  · rw [registered_totalUtil, toNat_totalUtil_add_share hs.totalUtil_lt, Ledger.total, hentries,
      List.map_append, List.sum_append, hs.total]
    rfl
  · intro a ha
    rw [registered_tl, List.mem_append, List.mem_singleton] at ha
    rw [registered_fresh]
    rcases ha with ha | rfl
    · exact Nat.lt_succ_of_lt (hs.tl_fresh a ha)
    · exact Nat.lt_succ_self _
  · intro a ha
    rw [registered_tl, List.mem_append, List.mem_singleton] at ha
    rcases ha with ha | rfl
    · rw [hold a ha]
      exact hs.period_ne_zero a ha
    · rw [hnew]
      exact hperiod

/-- The removal of a listed task is the release of its pid. -/
theorem removeTask (hs : Refines s ledger) {t : Addr} (ht : t ∈ s.tl) :
    Refines (s.removeTask t) (ledger.release (s.slab t).pid) := by
  have hpid := slab_removeTask_of_keep (fun task ↦ task.pid) (fun _ _ ↦ rfl) s t
  have hperiod := slab_removeTask_of_keep (fun task ↦ task.period) (fun _ _ ↦ rfl) s t
  have hshare := slab_removeTask_of_keep Mp2TaskStruct.share (fun _ _ ↦ rfl) s t
  have hentry : ((s.slab t).pid, (s.slab t).share.toNat) ∈ ledger.entries :=
    hs.entries ▸ List.mem_map.mpr ⟨t, ht, rfl⟩
  refine ⟨?_, ?_, ?_, ?_⟩
  · have herase : s.tl.eraseP (fun a ↦ (s.slab a).pid = (s.slab t).pid) = s.tl.erase t :=
      eraseP_key_eq_erase (fun a ↦ (s.slab a).pid) hs.pids_nodup ht
    have hreleased : (ledger.release (s.slab t).pid).entries =
        s.reservations.eraseP fun entry ↦ entry.1 = (s.slab t).pid := by
      rw [hs.entries]
      rfl
    rw [hreleased, reservations, reservations, removeTask_tl, List.eraseP_map, ← herase]
    simp only [hpid, hshare]
    rfl
  · have hle : (s.slab t).share ≤ s.totalUtil := UInt64.le_iff_toNat_le.mpr (hs.share_le ht)
    have htotal := Ledger.total_release_add hentry
    rw [removeTask_totalUtil, UInt64.toNat_sub_of_le _ _ hle, hs.total]
    omega
  · intro a ha
    exact hs.tl_fresh a (List.mem_of_mem_erase ha)
  · intro a ha
    rw [hperiod]
    exact hs.period_ne_zero a (List.mem_of_mem_erase ha)

end Refines

/-! ### Runs -/

/-- The ledger of the scheduler after `mp2_init`. -/
theorem refines_mp2Init (slab : Addr → Mp2TaskStruct) :
    Refines (mp2Init slab) (Ledger.empty (by norm_num)) where
  entries := rfl
  total := rfl
  tl_fresh := fun _ ha ↦ absurd ha List.not_mem_nil
  period_ne_zero := fun _ ha ↦ absurd ha List.not_mem_nil

/-- Every operation does to the scheduler what `ledgerStep` does to its ledger. -/
theorem refines_exec {s : Scheduler} {ledger : Ledger UInt32 726663} (hs : Refines s ledger)
    (platform : Platform) (op : Op) :
    Refines (exec platform op s).state (ledgerStep op ledger) := by
  cases op with
  | register pid period procTime found =>
    simp only [exec, ledgerStep]
    rcases taskRegister_cases pid period procTime found s with
      ⟨hpid, hresult⟩ | ⟨-, hperiod, hresult⟩ | ⟨-, hperiod, hroom, hresult⟩ |
        ⟨hpid, hperiod, hroom, hresult⟩
    · rw [hresult, Ledger.reserve_of_mem ((hs.listed_iff_mem_keys pid).mp hpid), ite_self]
      exact hs.of_sameTasks (sameTasks_lockTl s)
    · rw [hresult, if_pos hperiod]
      exact hs.of_sameTasks (sameTasks_unlockTl s)
    · have hfull : 726663 ≤ ledger.total + (share procTime period).toNat := by
        rw [← hs.total, ← not_lt, ← admits_iff hs.totalUtil_lt, hroom]
        exact Bool.false_ne_true
      rw [hresult, Ledger.reserve_of_full hfull, ite_self]
      exact hs.of_sameTasks (sameTasks_unlockTl s)
    · rw [hresult, if_neg hperiod]
      exact hs.registered found hpid hperiod hroom
  | yeild pid now => exact hs.of_sameTasks (sameTasks_taskYeild platform pid now s)
  | deregister pid =>
    simp only [exec, ledgerStep]
    rcases taskDeregister_cases pid s with
      ⟨hnone, hresult⟩ | ⟨t, hfound, ⟨hperiod, hresult⟩ | ⟨-, hresult⟩⟩
    · have hkey : pid ∉ ledger.keys := by
        rw [← hs.listed_iff_mem_keys, deregLookup_eq_none_iff.mp hnone]
        exact Bool.false_ne_true
      rw [hresult, Ledger.release_of_not_mem hkey]
      exact hs.of_sameTasks (sameTasks_unlockTl s)
    · exact absurd hperiod (hs.period_ne_zero t (mem_of_deregLookup hfound).1)
    · obtain ⟨ht, hpid⟩ := mem_of_deregLookup hfound
      have hsame := (sameTasks_lockTl s).trans (sameTasks_releaseCt s.lockTl t)
      have hremoved := (hs.of_sameTasks hsame).removeTask (hsame.tl ▸ ht)
      rw [hsame.pid, hpid] at hremoved
      rw [hresult]
      exact hremoved.of_sameTasks (sameTasks_unlockTl _)
  | timer data => exact hs.of_sameTasks (sameTasks_mp2TimerCallback data s)
  | dispatch => exact hs.of_sameTasks (sameTasks_dispachingIteration s)

/-- Every state of every run is backed by a ledger. -/
theorem exists_ledger {platform : Platform} {condition : Result → Op → Prop}
    {slab : Addr → Mp2TaskStruct} {r : Result}
    (hreach : ReachableUnder (nextOp platform) condition (startOp slab) r) :
    ∃ ledger, Refines r.state ledger := by
  refine hreach.invariant (fun r ↦ ∃ ledger, Refines r.state ledger)
    ⟨_, refines_mp2Init slab⟩ ?_
  rintro before op later ⟨ledger, hledger⟩ - hnext
  cases hnext
  exact ⟨ledgerStep op ledger, refines_exec hledger platform op⟩

/-- The accounting over whole runs. After any operations, with any arguments and outcomes,
`total_util` is the sum over the listed tasks of `((proc_time * 2^20) mod 2^64) / period` and below
`MAX_UTIL`; the addition of the admission test does not wrap for any request; and the subtraction of
`Task_deregister` does not underflow for any task its search finds. -/
theorem totalUtil_accounting (platform : Platform) (slab : Addr → Mp2TaskStruct) (ops : List Op) :
    let s := (execAll platform (startOp slab) ops).state
    s.totalUtil.toNat =
        (s.tl.map fun a ↦
          (s.slab a).procTime.toNat * 2 ^ 20 % 2 ^ 64 / (s.slab a).period.toNat).sum ∧
      s.totalUtil < maxUtil ∧
      (∀ procTime period, s.totalUtil.toNat + (share procTime period).toNat < 2 ^ 64) ∧
      ∀ pid t, s.deregLookup pid = some t → (s.slab t).share ≤ s.totalUtil := by
  intro s
  obtain ⟨ledger, hledger⟩ := exists_ledger (reachable_execAll platform (startOp slab) ops)
  refine ⟨?_, ?_, ?_, ?_⟩
  · have hsum := hledger.sum_shares
    simp only [Mp2TaskStruct.share, toNat_share] at hsum
    exact hsum
  · rw [UInt64.lt_iff_toNat_lt, toNat_maxUtil]
    exact hledger.totalUtil_lt
  · intro procTime period
    have hshare := toNat_share_le procTime period
    have htotal := hledger.totalUtil_lt
    change s.totalUtil.toNat < 726663 at htotal
    omega
  · intro pid t hfound
    exact UInt64.le_iff_toNat_le.mpr (hledger.share_le (mem_of_deregLookup hfound).1)

end KernelModules.RateMonotonic
