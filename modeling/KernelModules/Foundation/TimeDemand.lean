import Mathlib

/-!
# The time-demand test

Tasks with a period and a cost, on one processor that always serves the shortest period. The demand
at a level, up to a time `t` after an instant at which all tasks with a period up to the level ask
for the processor, is what these can ask for in that time (`TaskSet.demand`). A level passes the
test when the demand is met at some time within the level (`TaskSet.Feasible`).

A set of tasks whose shares have `∏ (1 + cost / period) ≤ 2` passes the test at every level
(`TaskSet.feasible_of_prod_le`), and so does one whose shares sum to at most `ln 2`
(`TaskSet.feasible_of_utilisation_le`). The proof stretches every period to its last multiple within
the level. With the stretched periods in increasing order, a task set that fails the test has
`1 + share` above the growth of a partial sum of costs, and the growth multiplies up to 2.
-/

set_option autoImplicit false
set_option relaxedAutoImplicit false

namespace KernelModules.Foundation

/-! ### Task sets -/

/-- Tasks with a period and a cost. Every period is positive. -/
structure TaskSet (ι : Type*) where
  members : Finset ι
  period : ι → ℕ
  cost : ι → ℕ
  period_pos : ∀ i ∈ members, 0 < period i

namespace TaskSet

variable {ι : Type*} (tasks : TaskSet ι)

/-- The tasks whose period is at most a level. -/
def within (level : ℕ) : Finset ι := tasks.members.filter fun j ↦ tasks.period j ≤ level

/-- What the tasks within a level can ask for in a time `t`: each its cost at the start and once
more at every period. -/
def demand (level t : ℕ) : ℕ := ∑ j ∈ tasks.within level, t ⌈/⌉ tasks.period j * tasks.cost j

/-- The time-demand test: the demand at a level is met at some time within the level. -/
def Feasible (level : ℕ) : Prop := ∃ t, 0 < t ∧ t ≤ level ∧ tasks.demand level t ≤ t

/-- The share of the processor that a task asks for. -/
def share (i : ι) : ℚ := (tasks.cost i : ℚ) / tasks.period i

/-- The share of the processor that all tasks ask for. -/
def utilisation : ℚ := ∑ i ∈ tasks.members, tasks.share i

variable {tasks}

/-- The tasks within a level are the members with a period up to it. -/
theorem mem_within {level : ℕ} {j : ι} :
    j ∈ tasks.within level ↔ j ∈ tasks.members ∧ tasks.period j ≤ level :=
  Finset.mem_filter

/-- A task that is not a member is within no level. -/
theorem ne_of_mem_within {level : ℕ} {i j : ι} (hi : i ∉ tasks.members)
    (hj : j ∈ tasks.within level) : j ≠ i :=
  fun heq ↦ hi (heq ▸ (mem_within.mp hj).1)

/-- A share is not negative. -/
theorem share_nonneg (i : ι) : 0 ≤ tasks.share i := by
  unfold share
  positivity

/-! ### Stretched periods -/

/-- How often the period of a task fits into a level. -/
def fits (tasks : TaskSet ι) (level : ℕ) (j : ι) : ℕ := level / tasks.period j

section Stretched

variable {level : ℕ} {j k : ι}

/-- The period of a task within a level fits at least once. -/
theorem one_le_fits (hj : j ∈ tasks.within level) : 1 ≤ tasks.fits level j := by
  obtain ⟨hmember, hle⟩ := mem_within.mp hj
  exact (Nat.one_le_div_iff (tasks.period_pos j hmember)).mpr hle

/-- Stretching the period and the cost of a task by the same factor keeps its share. -/
theorem share_eq_stretched (hj : j ∈ tasks.within level) :
    tasks.share j =
      (tasks.fits level j * tasks.cost j : ℕ) / (tasks.fits level j * tasks.period j : ℕ) := by
  have hfits : (tasks.fits level j : ℚ) ≠ 0 := by
    exact_mod_cast (Nat.one_le_iff_ne_zero.mp (one_le_fits hj))
  unfold share
  push_cast
  rw [mul_div_mul_left _ _ hfits]

/-- Up to the stretched period of another task, a task asks at most once more than its period fits,
and no more than it fits when its own stretched period is not shorter. -/
theorem requests_le (hj : j ∈ tasks.within level) :
    (tasks.fits level k * tasks.period k) ⌈/⌉ tasks.period j ≤
      tasks.fits level j +
        if tasks.fits level j * tasks.period j < tasks.fits level k * tasks.period k then 1
        else 0 := by
  have hpos := tasks.period_pos j (mem_within.mp hj).1
  rw [ceilDiv_le_iff_le_mul hpos]
  split_ifs with hshorter
  · have hwithin : tasks.fits level k * tasks.period k ≤ level := Nat.div_mul_le_self _ _
    have hnext : level < tasks.period j * (tasks.fits level j + 1) := Nat.lt_mul_div_succ _ hpos
    exact hwithin.trans hnext.le
  · rw [add_zero, mul_comm (tasks.period j)]
    exact not_lt.mp hshorter

/-- The demand at a stretched period is at most all stretched costs, and once more those of the
tasks with a shorter stretched period. -/
theorem demand_stretched_le :
    tasks.demand level (tasks.fits level k * tasks.period k) ≤
      ∑ j ∈ tasks.within level, tasks.fits level j * tasks.cost j +
        ∑ j ∈ (tasks.within level).filter fun j ↦
            tasks.fits level j * tasks.period j < tasks.fits level k * tasks.period k,
          tasks.fits level j * tasks.cost j := by
  unfold demand
  rw [Finset.sum_filter, ← Finset.sum_add_distrib]
  refine Finset.sum_le_sum fun j hj ↦ ?_
  have hrequests := Nat.mul_le_mul_right (tasks.cost j) (requests_le (k := k) hj)
  have honce : tasks.cost j ≤ tasks.fits level j * tasks.cost j :=
    Nat.le_mul_of_pos_left _ (one_le_fits hj)
  split_ifs at hrequests ⊢ with hshorter
  · rw [Nat.add_mul, one_mul] at hrequests
    omega
  · rw [add_zero] at hrequests ⊢
    exact hrequests

end Stretched

/-! ### The growth of the costs -/

/-- Costs that are added in the order of their periods. Assumes: every period is shorter than a base
and the costs with a shorter period. The sum of the costs then grows by less than the product of
`1 + cost / period`, once it grows at all. -/
theorem growth_lt_prod (period cost : ι → ℕ) {base : ℕ} (s : Finset ι)
    (hperiod : ∀ k ∈ s, 0 < period k)
    (hshort : ∀ k ∈ s, period k < base + ∑ j ∈ s.filter fun j ↦ period j < period k, cost j) :
    ((base + ∑ j ∈ s, cost j : ℕ) : ℚ) ≤ base * ∏ j ∈ s, (1 + (cost j : ℚ) / period j) ∧
      (0 < ∑ j ∈ s, cost j →
        ((base + ∑ j ∈ s, cost j : ℕ) : ℚ) < base * ∏ j ∈ s, (1 + (cost j : ℚ) / period j)) := by
  classical
  induction s using Finset.induction_on_max_value period with
  | empty => simp
  | insert a s ha hmax ih =>
    -- the longest period comes last, so that the others meet the assumption without it
    have hrest : ∀ k ∈ s,
        (insert a s).filter (fun j ↦ period j < period k) =
          s.filter fun j ↦ period j < period k := by
      intro k hk
      rw [Finset.filter_insert, if_neg (not_lt.mpr (hmax k hk))]
    obtain ⟨hle, hlt⟩ := ih (fun k hk ↦ hperiod k (Finset.mem_insert_of_mem hk)) fun k hk ↦ by
      rw [← hrest k hk]
      exact hshort k (Finset.mem_insert_of_mem hk)
    have hfront : period a < base + ∑ j ∈ s, cost j := by
      have hbefore : ∑ j ∈ (insert a s).filter (fun j ↦ period j < period a), cost j ≤
          ∑ j ∈ s, cost j := by
        rw [Finset.filter_insert, if_neg (lt_irrefl _)]
        exact Finset.sum_le_sum_of_subset (Finset.filter_subset _ _)
      have hshorter := hshort a (Finset.mem_insert_self a s)
      omega
    have hpos : (0 : ℚ) < period a := by exact_mod_cast hperiod a (Finset.mem_insert_self a s)
    rw [Finset.sum_insert ha, Finset.prod_insert ha, Nat.add_left_comm, mul_left_comm]
    generalize base + ∑ j ∈ s, cost j = total at *
    generalize (base : ℚ) * ∏ j ∈ s, (1 + (cost j : ℚ) / period j) = product at *
    have hratio : (1 : ℚ) < total / period a := by
      rw [lt_div_iff₀ hpos, one_mul]
      exact_mod_cast hfront
    have hgrow : (total : ℚ) + total / period a * cost a =
        (1 + (cost a : ℚ) / period a) * total := by ring
    have hfactor : (0 : ℚ) < 1 + cost a / period a := by positivity
    have hstep := mul_le_mul_of_nonneg_left hle hfactor.le
    push_cast
    refine ⟨?_, fun hsum ↦ ?_⟩
    · have hmore : (cost a : ℚ) ≤ total / period a * cost a :=
        le_mul_of_one_le_left (Nat.cast_nonneg _) hratio.le
      linarith
    · rcases Nat.eq_zero_or_pos (cost a) with hzero | hpositive
      · have hstrict := hlt (by omega)
        rw [hzero]
        simpa using hstrict
      · have hmore : (cost a : ℚ) < total / period a * cost a :=
          lt_mul_of_one_lt_left (by exact_mod_cast hpositive) hratio
        linarith

/-! ### The tests on the shares -/

/-- The hyperbolic bound. Assumes: the shares have `∏ (1 + share) ≤ 2`. Every level passes the
time-demand test. -/
theorem feasible_of_prod_le (hprod : ∏ j ∈ tasks.members, (1 + tasks.share j) ≤ 2) {level : ℕ}
    (hlevel : 0 < level) : tasks.Feasible level := by
  by_contra hinfeasible
  have hexceeds : ∀ t, 0 < t → t ≤ level → t < tasks.demand level t := by
    intro t hpos hle
    by_contra hmet
    exact hinfeasible ⟨t, hpos, hle, not_lt.mp hmet⟩
  have hstretched : ∀ k ∈ tasks.within level, 0 < tasks.fits level k * tasks.period k :=
    fun k hk ↦ Nat.mul_pos (one_le_fits hk) (tasks.period_pos k (mem_within.mp hk).1)
  have hshort : ∀ k ∈ tasks.within level, tasks.fits level k * tasks.period k <
      ∑ j ∈ tasks.within level, tasks.fits level j * tasks.cost j +
        ∑ j ∈ (tasks.within level).filter fun j ↦
            tasks.fits level j * tasks.period j < tasks.fits level k * tasks.period k,
          tasks.fits level j * tasks.cost j := fun k hk ↦
    (hexceeds _ (hstretched k hk) (Nat.div_mul_le_self _ _)).trans_le demand_stretched_le
  -- tasks that ask for nothing would meet their demand at once
  have hbase : 0 < ∑ j ∈ tasks.within level, tasks.fits level j * tasks.cost j := by
    by_contra hzero
    have hnothing : tasks.demand level level = 0 := by
      refine Finset.sum_eq_zero fun j hj ↦ ?_
      have hcost : tasks.fits level j * tasks.cost j = 0 :=
        Finset.sum_eq_zero_iff.mp (Nat.eq_zero_of_not_pos hzero) j hj
      have hfits := one_le_fits hj
      rw [(Nat.mul_eq_zero.mp hcost).resolve_left (by omega), mul_zero]
    have hmet := hexceeds level hlevel le_rfl
    omega
  have hgrowth := (growth_lt_prod (fun j ↦ tasks.fits level j * tasks.period j)
    (fun j ↦ tasks.fits level j * tasks.cost j) (tasks.within level) hstretched hshort).2 hbase
  have hshares : ∏ j ∈ tasks.within level, (1 + ((tasks.fits level j * tasks.cost j : ℕ) : ℚ) /
      (tasks.fits level j * tasks.period j : ℕ)) =
        ∏ j ∈ tasks.within level, (1 + tasks.share j) :=
    Finset.prod_congr rfl fun j hj ↦ by rw [share_eq_stretched hj]
  have hwithin : ∏ j ∈ tasks.within level, (1 + tasks.share j) ≤ 2 :=
    (Finset.prod_le_prod_of_subset_of_one_le (Finset.filter_subset _ _)
      (fun j _ ↦ by linarith [tasks.share_nonneg j])
      fun j _ _ ↦ by linarith [tasks.share_nonneg j]).trans hprod
  rw [hshares] at hgrowth
  have hbase' : (0 : ℚ) < (∑ j ∈ tasks.within level, tasks.fits level j * tasks.cost j : ℕ) := by
    exact_mod_cast hbase
  have hdouble := mul_le_mul_of_nonneg_left hwithin hbase'.le
  push_cast at hgrowth hdouble hbase'
  linarith

/-- The Liu-Layland bound for any number of tasks. Assumes: the shares sum to at most 0.6931, which
is just under `ln 2`. Every level passes the time-demand test. -/
theorem feasible_of_utilisation_le (hbound : tasks.utilisation ≤ 6931 / 10000) {level : ℕ}
    (hlevel : 0 < level) : tasks.Feasible level := by
  refine feasible_of_prod_le ?_ hlevel
  have hexp : ((∏ j ∈ tasks.members, (1 + tasks.share j) : ℚ) : ℝ) ≤
      Real.exp ((tasks.utilisation : ℚ) : ℝ) := by
    unfold utilisation
    push_cast
    rw [Real.exp_sum]
    refine Finset.prod_le_prod (fun j _ ↦ ?_) fun j _ ↦ ?_
    · have hnonneg : (0 : ℝ) ≤ tasks.share j := by exact_mod_cast tasks.share_nonneg j
      linarith
    · rw [add_comm]
      exact Real.add_one_le_exp _
  have hln : ((tasks.utilisation : ℚ) : ℝ) ≤ Real.log 2 := by
    have hcast : ((tasks.utilisation : ℚ) : ℝ) ≤ ((6931 / 10000 : ℚ) : ℝ) := by
      exact_mod_cast hbound
    have hlog := Real.log_two_gt_d9
    refine hcast.trans (le_trans ?_ hlog.le)
    push_cast
    norm_num
  have htwo : ((∏ j ∈ tasks.members, (1 + tasks.share j) : ℚ) : ℝ) ≤ 2 := by
    refine hexp.trans ?_
    rw [← Real.exp_log (show (0 : ℝ) < 2 by norm_num)]
    exact Real.exp_le_exp.mpr hln
  exact_mod_cast htwo

end TaskSet

end KernelModules.Foundation
