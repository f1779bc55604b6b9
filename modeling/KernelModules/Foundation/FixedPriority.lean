import KernelModules.Foundation.TimeDemand
import KernelModules.Foundation.TransitionSystem

/-!
# A processor with fixed priorities

What rate-monotonic scheduling is for. A processor serves the jobs of tasks, one unit of time after
the other, and always a job of a task with the shortest period (`Processor.Foremost`). A task joins
with a period and a cost; it releases a job at most once in each period, and the job may use the
processor for up to the cost before it finishes. A job is late when it has not finished at the end
of its period (`Processor.Late`).

No job is late in any run while every level passes the time-demand test (`not_late_of_reachable`).
For every level the invariant has an instant since which the processor has not met the demand of the
level (`Busy`). A step that would meet it finds that all jobs within the level are finished, and
starts anew.
-/

set_option autoImplicit false
set_option relaxedAutoImplicit false

namespace KernelModules.Foundation

variable {ι : Type*}

/-! ### Processors -/

/-- The tasks, the time, what each job may still use of the processor, and the end of its period. A
task without a job has nothing left. -/
structure Processor (ι : Type*) where
  tasks : TaskSet ι
  now : ℕ
  left : ι → ℕ
  due : ι → ℕ

namespace Processor

/-- The tasks within a level have no unfinished job. -/
def Quiet (p : Processor ι) (level : ℕ) : Prop := ∀ j ∈ p.tasks.within level, p.left j = 0

/-- A job is late: it is unfinished at the end of its period. -/
def Late (p : Processor ι) : Prop := ∃ i ∈ p.tasks.members, 0 < p.left i ∧ p.due i ≤ p.now

/-! ### Busy since an instant -/

/-- Since an instant, the processor has not met the demand of a level. `jobs` counts the jobs
released within the level since then. -/
structure Busy (p : Processor ι) (level since : ℕ) (jobs : ι → ℕ) : Prop where
  since_le : since ≤ p.now
  work : ∑ j ∈ p.tasks.within level, p.left j + (p.now - since) ≤
    ∑ j ∈ p.tasks.within level, jobs j * p.tasks.cost j
  spaced : ∀ j ∈ p.tasks.within level, 0 < jobs j →
    since + jobs j * p.tasks.period j ≤ p.due j
  unmet : ∀ t, 0 < t → t ≤ p.now - since → t < p.tasks.demand level t
  pending : ∀ j ∈ p.tasks.within level, 0 < p.left j → since + p.tasks.period j ≤ p.due j

/-- The end of the last period of every task is at most a period away, and every level has been busy
since some instant. -/
structure Accounted (p : Processor ι) : Prop where
  due_le : ∀ j ∈ p.tasks.members, p.due j ≤ p.now + p.tasks.period j
  busy : ∀ level, ∃ since jobs, p.Busy level since jobs

variable {p later : Processor ι} {level since : ℕ} {jobs : ι → ℕ}

/-- A level that is quiet is busy since now. -/
theorem Quiet.busy (hquiet : p.Quiet level) : p.Busy level p.now fun _ ↦ 0 where
  since_le := le_rfl
  work := by
    rw [Finset.sum_eq_zero hquiet]
    simp
  spaced := fun _ _ hjobs ↦ absurd hjobs (lt_irrefl 0)
  unmet := fun t hpos hle ↦ by omega
  pending := fun j hj hleft ↦ absurd (hquiet j hj) hleft.ne'

/-- The jobs released since an instant are at most the requests up to the next unit of time. -/
theorem Busy.jobs_le (hdue : ∀ j ∈ p.tasks.members, p.due j ≤ p.now + p.tasks.period j)
    (hbusy : p.Busy level since jobs) {j : ι} (hj : j ∈ p.tasks.within level) :
    jobs j ≤ (p.now + 1 - since) ⌈/⌉ p.tasks.period j := by
  have hmember := (TaskSet.mem_within.mp hj).1
  have hpos := p.tasks.period_pos j hmember
  rcases Nat.eq_zero_or_pos (jobs j) with hzero | hjobs
  · rw [hzero]
    exact Nat.zero_le _
  · by_contra hfewer
    have hbelow : (p.now + 1 - since) ⌈/⌉ p.tasks.period j ≤ jobs j - 1 := by omega
    rw [ceilDiv_le_iff_le_mul hpos] at hbelow
    have hspaced := hbusy.spaced j hj hjobs
    have hlast : jobs j * p.tasks.period j =
        p.tasks.period j * (jobs j - 1) + p.tasks.period j := by
      rw [← Nat.mul_succ, Nat.succ_eq_add_one, Nat.sub_add_cancel hjobs, mul_comm]
    have hsince := hbusy.since_le
    have hsoon := hdue j hmember
    omega

/-- A unit of time within a busy level: the level stays busy, or is quiet after it. Assumes: the
unit took one from what the tasks within the level have left. -/
theorem Busy.tick (hdue : ∀ j ∈ p.tasks.members, p.due j ≤ p.now + p.tasks.period j)
    (hbusy : p.Busy level since jobs) (htasks : later.tasks = p.tasks)
    (hnow : later.now = p.now + 1) (hends : later.due = p.due)
    (hleft : ∀ j, later.left j ≤ p.left j)
    (hserved : ∑ j ∈ p.tasks.within level, later.left j + 1 =
      ∑ j ∈ p.tasks.within level, p.left j) :
    later.Busy level since jobs ∨ later.Quiet level := by
  have hsince := hbusy.since_le
  have hwork := hbusy.work
  by_cases hmet : p.tasks.demand level (p.now + 1 - since) ≤ p.now + 1 - since
  · refine .inr ?_
    have hjobs : ∑ j ∈ p.tasks.within level, jobs j * p.tasks.cost j ≤
        p.tasks.demand level (p.now + 1 - since) :=
      Finset.sum_le_sum fun j hj ↦ Nat.mul_le_mul_right _ (hbusy.jobs_le hdue hj)
    have hnothing : ∑ j ∈ p.tasks.within level, later.left j = 0 := by omega
    unfold Quiet
    rw [htasks]
    exact Finset.sum_eq_zero_iff.mp hnothing
  · refine .inl ⟨by omega, ?_, ?_, fun t hpos hle ↦ ?_, fun j hj hpositive ↦ ?_⟩
    · rw [htasks, hnow]
      omega
    · rw [htasks, hends]
      exact hbusy.spaced
    · rw [htasks]
      rcases Nat.lt_or_ge (p.now - since) t with hlast | hearlier
      · have heq : t = p.now + 1 - since := by omega
        rw [heq]
        exact not_le.mp hmet
      · exact hbusy.unmet t hpos hearlier
    · rw [htasks] at hj ⊢
      rw [hends]
      exact hbusy.pending j hj (hpositive.trans_le (hleft j))

/-- No job is late where every level passes the time-demand test. -/
theorem Accounted.not_late (hp : p.Accounted)
    (hfeasible : ∀ level, 0 < level → p.tasks.Feasible level) : ¬ p.Late := by
  rintro ⟨i, hi, hleft, hdue⟩
  obtain ⟨since, jobs, hbusy⟩ := hp.busy (p.tasks.period i)
  obtain ⟨t, hpos, hle, hmet⟩ := hfeasible _ (p.tasks.period_pos i hi)
  have hpending := hbusy.pending i (TaskSet.mem_within.mpr ⟨hi, le_rfl⟩) hleft
  have hunmet := hbusy.unmet t hpos (by omega)
  omega

end Processor

variable [DecidableEq ι]

/-! ### Tasks that join -/

namespace TaskSet

/-- A task joins. -/
@[simps] def join (tasks : TaskSet ι) (i : ι) (period cost : ℕ) (hpos : 0 < period) :
    TaskSet ι where
  members := insert i tasks.members
  period := Function.update tasks.period i period
  cost := Function.update tasks.cost i cost
  period_pos := by
    intro j hj
    by_cases hji : j = i
    · rw [hji, Function.update_self]
      exact hpos
    · rw [Function.update_of_ne hji]
      exact tasks.period_pos j ((Finset.mem_insert.mp hj).resolve_left hji)

variable {tasks : TaskSet ι} {i : ι} {period cost : ℕ} {hpos : 0 < period}

/-- A task that joins comes into the levels from its period on. -/
theorem within_join (hi : i ∉ tasks.members) (level : ℕ) :
    (tasks.join i period cost hpos).within level =
      if period ≤ level then insert i (tasks.within level) else tasks.within level := by
  have hrest : tasks.members.filter
      (fun j ↦ Function.update tasks.period i period j ≤ level) = tasks.within level := by
    refine Finset.filter_congr fun j hj ↦ ?_
    have hne : j ≠ i := fun heq ↦ hi (heq ▸ hj)
    rw [Function.update_of_ne hne]
  simp only [within, join_members, join_period] at hrest ⊢
  rw [Finset.filter_insert, Function.update_self, hrest]

/-- A sum over a level in which a task that joins counts for nothing. -/
theorem sum_within_join (hi : i ∉ tasks.members) (level : ℕ) {f g : ι → ℕ} (hself : f i = 0)
    (hrest : ∀ j ∈ tasks.within level, f j = g j) :
    ∑ j ∈ (tasks.join i period cost hpos).within level, f j =
      ∑ j ∈ tasks.within level, g j := by
  have hnew : i ∉ tasks.within level := fun hmem ↦ hi (mem_within.mp hmem).1
  rw [within_join hi, ← Finset.sum_congr rfl hrest]
  split_ifs
  · rw [Finset.sum_insert hnew, hself, zero_add]
  · rfl

/-- A task that joins takes nothing from the demand. -/
theorem demand_le_join (hi : i ∉ tasks.members) (level t : ℕ) :
    tasks.demand level t ≤ (tasks.join i period cost hpos).demand level t := by
  have hrest : tasks.demand level t = ∑ j ∈ tasks.within level,
      t ⌈/⌉ (tasks.join i period cost hpos).period j *
        (tasks.join i period cost hpos).cost j := by
    refine Finset.sum_congr rfl fun j hj ↦ ?_
    have hne := ne_of_mem_within hi hj
    simp only [join, Function.update_of_ne hne]
  rw [hrest, demand, within_join hi]
  split_ifs
  · exact Finset.sum_le_sum_of_subset (Finset.subset_insert _ _)
  · exact le_rfl

/-- A task that joins adds its share. -/
theorem utilisation_join (hi : i ∉ tasks.members) :
    (tasks.join i period cost hpos).utilisation = tasks.utilisation + (cost : ℚ) / period := by
  have hrest : ∀ j ∈ tasks.members, (tasks.join i period cost hpos).share j = tasks.share j := by
    intro j hj
    have hne : j ≠ i := fun heq ↦ hi (heq ▸ hj)
    simp only [share, join_period, join_cost, Function.update_of_ne hne]
  have hnew : (tasks.join i period cost hpos).share i = (cost : ℚ) / period := by
    simp only [share, join_period, join_cost, Function.update_self]
  unfold utilisation
  rw [join_members, Finset.sum_insert hi, hnew, Finset.sum_congr rfl hrest, add_comm]

end TaskSet

/-! ### The machine -/

namespace Processor

/-- What can happen on the processor. -/
inductive Move (ι : Type*)
  | join (i : ι) (period cost : ℕ)
  | release (i : ι)
  | finish (i : ι)
  | serve (i : ι)
  | idle

/-- A task may be served: it has a job, and no task with a job has a shorter period. -/
def Foremost (p : Processor ι) (i : ι) : Prop :=
  i ∈ p.tasks.members ∧ 0 < p.left i ∧
    ∀ j ∈ p.tasks.members, 0 < p.left j → p.tasks.period i ≤ p.tasks.period j

/-- A task may release a job: it has none, and its last period has ended. -/
def MayRelease (p : Processor ι) (i : ι) : Prop :=
  i ∈ p.tasks.members ∧ p.left i = 0 ∧ p.due i ≤ p.now

instance (p : Processor ι) (i : ι) : Decidable (p.Foremost i) :=
  inferInstanceAs (Decidable (_ ∧ _ ∧ ∀ j ∈ p.tasks.members, _))

instance (p : Processor ι) (i : ι) : Decidable (p.MayRelease i) :=
  inferInstanceAs (Decidable (_ ∧ _ ∧ _))

/-- A task joins without a job. -/
@[simps] def joined (p : Processor ι) (i : ι) (period cost : ℕ) (hpos : 0 < period) :
    Processor ι where
  tasks := p.tasks.join i period cost hpos
  now := p.now
  left := Function.update p.left i 0
  due := Function.update p.due i p.now

/-- A job is released, with a period from now on. -/
@[simps] def released (p : Processor ι) (i : ι) : Processor ι :=
  { p with
    left := Function.update p.left i (p.tasks.cost i)
    due := Function.update p.due i (p.now + p.tasks.period i) }

/-- A job finishes, whatever it may still use. -/
@[simps] def finished (p : Processor ι) (i : ι) : Processor ι :=
  { p with left := Function.update p.left i 0 }

/-- A unit of time passes with a task. -/
@[simps] def served (p : Processor ι) (i : ι) : Processor ι :=
  { p with now := p.now + 1, left := Function.update p.left i (p.left i - 1) }

/-- A unit of time passes idle. -/
@[simps] def idled (p : Processor ι) : Processor ι := { p with now := p.now + 1 }

/-- The step of the machine. Time passes with a task that may be served, or idle when no task has a
job. -/
def next (p : Processor ι) : Move ι → Option (Processor ι)
  | .join i period cost =>
    if henabled : i ∉ p.tasks.members ∧ 0 < period then some (p.joined i period cost henabled.2)
    else none
  | .release i => if p.MayRelease i then some (p.released i) else none
  | .finish i => some (p.finished i)
  | .serve i => if p.Foremost i then some (p.served i) else none
  | .idle => if ∀ j ∈ p.tasks.members, p.left j = 0 then some p.idled else none

/-- The processor before any task has joined. -/
def start (now : ℕ) : Processor ι where
  tasks := ⟨∅, fun _ ↦ 0, fun _ ↦ 0, fun _ hi ↦ absurd hi (Finset.notMem_empty _)⟩
  now := now
  left := fun _ ↦ 0
  due := fun _ ↦ 0

/-! ### What a step does to the account -/

variable {p later : Processor ι}

/-- What an update with at most the old value leaves is at most what there was. -/
theorem update_le (left : ι → ℕ) {i : ι} {value : ℕ} (hle : value ≤ left i) (j : ι) :
    Function.update left i value j ≤ left j := by
  rw [Function.update_apply]
  split_ifs with hji
  · exact hji ▸ hle
  · exact le_rfl

/-- An update outside a set leaves a sum over it. -/
theorem sum_update_of_notMem {s : Finset ι} {i : ι} (hi : i ∉ s) (f : ι → ℕ) (value : ℕ)
    (weight : ι → ℕ) :
    ∑ j ∈ s, Function.update f i value j * weight j = ∑ j ∈ s, f j * weight j := by
  refine Finset.sum_congr rfl fun j hj ↦ ?_
  have hne : j ≠ i := fun heq ↦ hi (heq ▸ hj)
  rw [Function.update_of_ne hne]

/-- An update inside a set moves a sum over it by the difference. -/
theorem sum_update_of_mem {s : Finset ι} {i : ι} (hi : i ∈ s) (f : ι → ℕ) (value : ℕ)
    (weight : ι → ℕ) :
    ∑ j ∈ s, Function.update f i value j * weight j + f i * weight i =
      ∑ j ∈ s, f j * weight j + value * weight i := by
  have herase : ∑ j ∈ s.erase i, Function.update f i value j * weight j =
      ∑ j ∈ s.erase i, f j * weight j := sum_update_of_notMem (Finset.notMem_erase i s) f _ _
  rw [← Finset.add_sum_erase _ _ hi, ← Finset.add_sum_erase s (fun j ↦ f j * weight j) hi,
    Function.update_self, herase]
  ring

namespace Accounted

/-- A task that joins keeps the account. -/
theorem joined (hp : p.Accounted) {i : ι} (hi : i ∉ p.tasks.members) {period : ℕ} (cost : ℕ)
    (hpos : 0 < period) : (p.joined i period cost hpos).Accounted where
  due_le := by
    intro j hj
    by_cases hji : j = i
    · rw [hji, joined_due, Function.update_self]
      exact Nat.le_add_right _ _
    · rw [joined_due, joined_tasks, TaskSet.join_period, Function.update_of_ne hji,
        Function.update_of_ne hji]
      exact hp.due_le j ((Finset.mem_insert.mp hj).resolve_left hji)
  busy := by
    intro level
    obtain ⟨since, jobs, hbusy⟩ := hp.busy level
    have hold : ∀ j ∈ (p.tasks.join i period cost hpos).within level, j ≠ i →
        j ∈ p.tasks.within level := by
      intro j hj hne
      rw [TaskSet.within_join hi] at hj
      split_ifs at hj
      · exact (Finset.mem_insert.mp hj).resolve_left hne
      · exact hj
    have hleft : ∀ j ∈ p.tasks.within level, Function.update p.left i 0 j = p.left j :=
      fun j hj ↦ Function.update_of_ne (TaskSet.ne_of_mem_within hi hj) _ _
    have hjobs : ∀ j ∈ p.tasks.within level,
        Function.update jobs i 0 j * Function.update p.tasks.cost i cost j =
          jobs j * p.tasks.cost j := by
      intro j hj
      have hne := TaskSet.ne_of_mem_within hi hj
      rw [Function.update_of_ne hne, Function.update_of_ne hne]
    refine ⟨since, Function.update jobs i 0, hbusy.since_le, ?_, ?_, ?_, ?_⟩
    · simp only [joined_tasks, joined_left, joined_now, TaskSet.join_cost]
      rw [TaskSet.sum_within_join hi level (by simp) hleft,
        TaskSet.sum_within_join hi level (by simp) hjobs]
      exact hbusy.work
    · intro j hj hpositive
      by_cases hji : j = i
      · rw [hji, Function.update_self] at hpositive
        exact absurd hpositive (lt_irrefl 0)
      · simp only [joined_tasks, joined_due, TaskSet.join_period,
          Function.update_of_ne hji] at hpositive ⊢
        exact hbusy.spaced j (hold j hj hji) hpositive
    · intro t hpositive hle
      have hdemand : p.tasks.demand level t ≤ (p.tasks.join i period cost hpos).demand level t :=
        TaskSet.demand_le_join hi level t
      exact (hbusy.unmet t hpositive hle).trans_le hdemand
    · intro j hj hpositive
      by_cases hji : j = i
      · rw [hji, joined_left, Function.update_self] at hpositive
        exact absurd hpositive (lt_irrefl 0)
      · simp only [joined_tasks, joined_left, joined_due, TaskSet.join_period,
          Function.update_of_ne hji] at hpositive ⊢
        exact hbusy.pending j (hold j hj hji) hpositive

/-- A job that is released keeps the account. -/
theorem released (hp : p.Accounted) {i : ι} (hmay : p.MayRelease i) :
    (p.released i).Accounted where
  due_le := by
    intro j hj
    by_cases hji : j = i
    · rw [hji, released_due, Function.update_self]
      exact le_rfl
    · rw [released_due, Function.update_of_ne hji]
      exact hp.due_le j hj
  busy := by
    intro level
    obtain ⟨since, jobs, hbusy⟩ := hp.busy level
    obtain ⟨-, hnone, hended⟩ := hmay
    have hsince := hbusy.since_le
    refine ⟨since, Function.update jobs i (jobs i + 1), hsince, ?_, ?_, hbusy.unmet, ?_⟩
    · have hwork := hbusy.work
      have hone : ∀ f : ι → ℕ, ∑ j ∈ p.tasks.within level, f j * 1 =
          ∑ j ∈ p.tasks.within level, f j := fun f ↦ by simp only [mul_one]
      simp only [released_tasks, released_left, released_now]
      by_cases hi : i ∈ p.tasks.within level
      · have hjobs := sum_update_of_mem hi jobs (jobs i + 1) p.tasks.cost
        have hleft := sum_update_of_mem hi p.left (p.tasks.cost i) fun _ ↦ 1
        rw [hone, hone, hnone] at hleft
        rw [Nat.add_mul] at hjobs
        omega
      · have hleft := sum_update_of_notMem hi p.left (p.tasks.cost i) fun _ ↦ 1
        rw [hone, hone] at hleft
        rw [hleft, sum_update_of_notMem hi]
        exact hwork
    · intro j hj hpositive
      by_cases hji : j = i
      · subst hji
        rw [released_due, Function.update_self, Function.update_self, Nat.add_mul, one_mul]
        rcases Nat.eq_zero_or_pos (jobs j) with hzero | hjobs
        · rw [hzero, released_tasks]
          omega
        · have hspaced := hbusy.spaced j hj hjobs
          rw [released_tasks]
          omega
      · rw [Function.update_of_ne hji] at hpositive
        rw [released_due, Function.update_of_ne hji, Function.update_of_ne hji]
        exact hbusy.spaced j hj hpositive
    · intro j hj hpositive
      by_cases hji : j = i
      · rw [hji, released_due, Function.update_self]
        exact Nat.add_le_add_right hsince _
      · rw [released_left, Function.update_of_ne hji] at hpositive
        rw [released_due, Function.update_of_ne hji]
        exact hbusy.pending j hj hpositive

/-- A job that finishes keeps the account. -/
theorem finished (hp : p.Accounted) (i : ι) : (p.finished i).Accounted where
  due_le := hp.due_le
  busy := by
    intro level
    obtain ⟨since, jobs, hbusy⟩ := hp.busy level
    have hle := update_le p.left (Nat.zero_le (p.left i))
    refine ⟨since, jobs, hbusy.since_le, ?_, hbusy.spaced, hbusy.unmet, ?_⟩
    · exact (Nat.add_le_add_right (Finset.sum_le_sum fun j _ ↦ hle j) _).trans hbusy.work
    · exact fun j hj hpositive ↦ hbusy.pending j hj (hpositive.trans_le (hle j))

/-- A unit of time with a foremost task keeps the account. -/
theorem served (hp : p.Accounted) {i : ι} (hforemost : p.Foremost i) :
    (p.served i).Accounted where
  due_le := fun j hj ↦ (hp.due_le j hj).trans (Nat.add_le_add_right (Nat.le_succ _) _)
  busy := by
    intro level
    obtain ⟨hmember, hpositive, hshortest⟩ := hforemost
    by_cases hlevel : p.tasks.period i ≤ level
    · obtain ⟨since, jobs, hbusy⟩ := hp.busy level
      have hi : i ∈ p.tasks.within level := TaskSet.mem_within.mpr ⟨hmember, hlevel⟩
      have hserved := sum_update_of_mem hi p.left (p.left i - 1) fun _ ↦ 1
      simp only [mul_one] at hserved
      have hstep : (p.served i).Busy level since jobs ∨ (p.served i).Quiet level :=
        hbusy.tick hp.due_le rfl rfl rfl (update_le p.left (Nat.sub_le _ _))
          (by simp only [served_left]; omega)
      rcases hstep with hstill | hquiet
      · exact ⟨since, jobs, hstill⟩
      · exact ⟨_, _, hquiet.busy⟩
    · -- the tasks within the level have no jobs, since the shortest period is beyond it
      refine ⟨_, _, Quiet.busy fun j hj ↦ ?_⟩
      obtain ⟨hj', hwithin⟩ := TaskSet.mem_within.mp hj
      have hne : j ≠ i := fun heq ↦ hlevel (heq ▸ hwithin)
      rw [served_left, Function.update_of_ne hne]
      by_contra hjob
      have hle := hshortest j hj' (Nat.pos_of_ne_zero hjob)
      exact hlevel (hle.trans hwithin)

omit [DecidableEq ι] in
/-- A unit of time that passes idle keeps the account. -/
theorem idled (hp : p.Accounted) (hidle : ∀ j ∈ p.tasks.members, p.left j = 0) :
    p.idled.Accounted where
  due_le := fun j hj ↦ (hp.due_le j hj).trans (Nat.add_le_add_right (Nat.le_succ _) _)
  busy := fun _ ↦ ⟨_, _, Quiet.busy fun j hj ↦ hidle j (TaskSet.mem_within.mp hj).1⟩

/-- A step keeps the account. -/
theorem step (hp : p.Accounted) {move : Move ι} (hstep : p.next move = some later) :
    later.Accounted := by
  cases move with
  | join i period cost =>
    simp only [next, Option.dite_none_right_eq_some, Option.some.injEq] at hstep
    obtain ⟨henabled, hlater⟩ := hstep
    exact hlater ▸ hp.joined henabled.1 cost henabled.2
  | release i =>
    simp only [next, Option.ite_none_right_eq_some, Option.some.injEq] at hstep
    obtain ⟨hmay, hlater⟩ := hstep
    exact hlater ▸ hp.released hmay
  | finish i =>
    simp only [next, Option.some.injEq] at hstep
    exact hstep ▸ hp.finished i
  | serve i =>
    simp only [next, Option.ite_none_right_eq_some, Option.some.injEq] at hstep
    obtain ⟨hforemost, hlater⟩ := hstep
    exact hlater ▸ hp.served hforemost
  | idle =>
    simp only [next, Option.ite_none_right_eq_some, Option.some.injEq] at hstep
    obtain ⟨hidle, hlater⟩ := hstep
    exact hlater ▸ hp.idled hidle

end Accounted

/-- The account of every state that is reached. -/
theorem accounted_of_reachable {now : ℕ} (hreach : Reachable next (start now) p) :
    p.Accounted := by
  refine hreach.invariant Accounted ⟨fun j hj ↦ absurd hj (Finset.notMem_empty j), fun _ ↦ ?_⟩
    fun before move later hbefore _ hstep ↦ hbefore.step hstep
  exact ⟨_, _, Quiet.busy fun j hj ↦
    absurd (TaskSet.mem_within.mp hj).1 (Finset.notMem_empty j)⟩

/-- In every run no job is late while every level passes the time-demand test. -/
theorem not_late_of_reachable {now : ℕ} (hreach : Reachable next (start now) p)
    (hfeasible : ∀ level, 0 < level → p.tasks.Feasible level) : ¬ p.Late :=
  (accounted_of_reachable hreach).not_late hfeasible

end Processor

end KernelModules.Foundation
