import Mathlib.Data.List.Basic

/-!
# Runs of a labelled transition system

A system is a partial step function `next : σ → ℓ → Option σ`; a label that is not enabled in a
state has no successor there. `run` follows a list of labels, `Reachable` collects the states some
run ends in, and `ReachableUnder` those reached by steps that all meet a condition on the state
before the step and on its label.

Rules carry a fact about one step to whole runs. `ReachableUnder.invariant` is the invariant rule.
`always_iff_meets` is its exact form: when an invariant is kept by every step that meets a
condition, and every step that does not meet it ends in a state without the property, the property
holds in all states of a run if and only if every step of the run meets the condition. Where a step
that does not meet the condition only shows at the end, the two directions stand apart:
`Meets.always` for all runs, and `Always.meets_of_final` for those that come to their end.
-/

set_option autoImplicit false
set_option relaxedAutoImplicit false

namespace KernelModules.Foundation

variable {σ ℓ : Type*} {next : σ → ℓ → Option σ}

/-! ### Runs and reachable states -/

/-- Runs the labels from a state, oldest first. A run ends without a state at a label that is not
enabled. -/
def run (next : σ → ℓ → Option σ) : σ → List ℓ → Option σ
  | state, [] => some state
  | state, label :: rest => (next state label).bind fun later ↦ run next later rest

/-- The states reached from `start` by steps that all meet `condition`. -/
inductive ReachableUnder (next : σ → ℓ → Option σ) (condition : σ → ℓ → Prop) (start : σ) : σ → Prop
  | refl : ReachableUnder next condition start start
  | step {state later : σ} {label : ℓ} : ReachableUnder next condition start state →
      condition state label → next state label = some later →
        ReachableUnder next condition start later

/-- The states that some run from `start` reaches. -/
abbrev Reachable (next : σ → ℓ → Option σ) (start : σ) : σ → Prop :=
  ReachableUnder next (fun _ _ ↦ True) start

/-- The invariant rule. Assumes: an invariant of the start that every step meeting the condition
keeps. It holds in every state reached by such steps. -/
theorem ReachableUnder.invariant {condition : σ → ℓ → Prop} {start state : σ} (inv : σ → Prop)
    (hstart : inv start)
    (hstep : ∀ before label later, inv before → condition before label →
      next before label = some later → inv later)
    (hreach : ReachableUnder next condition start state) : inv state := by
  induction hreach with
  | refl => exact hstart
  | step _ hcondition hnext ih => exact hstep _ _ _ ih hcondition hnext

/-- A weaker condition reaches more. -/
theorem ReachableUnder.mono {condition weaker : σ → ℓ → Prop} {start state : σ}
    (himp : ∀ before label, condition before label → weaker before label)
    (hreach : ReachableUnder next condition start state) : ReachableUnder next weaker start state :=
  hreach.invariant (ReachableUnder next weaker start) .refl
    fun before label _ hbefore hcondition hnext ↦ hbefore.step (himp before label hcondition) hnext

/-! ### Properties of all states of a run -/

/-- The property holds in every state of the run, the first and the last included. -/
def Always (next : σ → ℓ → Option σ) (property : σ → Prop) : σ → List ℓ → Prop
  | state, [] => property state
  | state, label :: rest =>
    property state ∧ ∀ later, next state label = some later → Always next property later rest

/-- Every step of the run meets the condition, in the state it is taken from. -/
def Meets (next : σ → ℓ → Option σ) (condition : σ → ℓ → Prop) : σ → List ℓ → Prop
  | _, [] => True
  | state, label :: rest =>
    ∀ later, next state label = some later →
      condition state label ∧ Meets next condition later rest

/-- A condition that can be decided for each step can be decided for a run. -/
instance decidableMeets {condition : σ → ℓ → Prop}
    [hdecidable : ∀ state label, Decidable (condition state label)] :
    ∀ start labels, Decidable (Meets next condition start labels)
  | _, [] => isTrue trivial
  | start, label :: rest =>
    match hnext : next start label with
    | none => isTrue fun later hlater ↦ by
      rw [hnext] at hlater
      cases hlater
    | some later =>
      haveI : Decidable (Meets next condition later rest) := decidableMeets later rest
      decidable_of_iff (condition start label ∧ Meets next condition later rest) <| by
        rw [Meets, hnext]
        exact ⟨fun hboth _ heq ↦ Option.some.inj heq ▸ hboth, fun hall ↦ hall later rfl⟩

/-- A property of every state of a run holds in its first state. -/
theorem Always.head {property : σ → Prop} {start : σ} {labels : List ℓ}
    (halways : Always next property start labels) : property start := by
  cases labels with
  | nil => exact halways
  | cons label rest => exact halways.1

/-- The end of a run whose steps all meet a condition is reached under it. -/
theorem Meets.reachableUnder {condition : σ → ℓ → Prop} {start state last : σ} {labels : List ℓ}
    (hstart : ReachableUnder next condition start state)
    (hmeets : Meets next condition state labels) (hrun : run next state labels = some last) :
    ReachableUnder next condition start last := by
  induction labels generalizing state with
  | nil =>
    cases hrun
    exact hstart
  | cons label rest ih =>
    obtain ⟨later, hnext, hrest⟩ := Option.bind_eq_some_iff.mp hrun
    obtain ⟨hcondition, hlater⟩ := hmeets later hnext
    exact ih (hstart.step hcondition hnext) hlater hrest

/-- A run meets a condition that all of its labels have in every state. -/
theorem meets_of_forall {condition : σ → ℓ → Prop} {start : σ} {labels : List ℓ}
    (hlabels : ∀ label ∈ labels, ∀ state, condition state label) :
    Meets next condition start labels := by
  induction labels generalizing start with
  | nil => exact trivial
  | cons label rest ih =>
    exact fun later _ ↦ ⟨hlabels label (List.mem_cons_self ..) start,
      ih fun other hother ↦ hlabels other (List.mem_cons_of_mem label hother)⟩

/-- The end of a run is reachable. -/
theorem reachable_of_run {start last : σ} {labels : List ℓ}
    (hrun : run next start labels = some last) : Reachable next start last := by
  have hmeets : ∀ (labels : List ℓ) (state : σ), Meets next (fun _ _ ↦ True) state labels := by
    intro labels
    induction labels with
    | nil => exact fun _ ↦ trivial
    | cons label rest ih => exact fun _ later _ ↦ ⟨trivial, ih later⟩
  exact (hmeets labels start).reachableUnder .refl hrun

/-- A run whose steps meet a condition, and whose last state has a property that can be decided,
reaches a state with the property. -/
theorem exists_reachableUnder_of_run {condition : σ → ℓ → Prop} {property : σ → Prop}
    [DecidablePred property] {start : σ} (labels : List ℓ)
    (hmeets : Meets next condition start labels)
    (hrun : (run next start labels).any (fun last ↦ decide (property last)) = true) :
    ∃ last, ReachableUnder next condition start last ∧ property last := by
  obtain ⟨last, hlast, hproperty⟩ := (Option.any_eq_true _ _).mp hrun
  exact ⟨last, hmeets.reachableUnder .refl hlast, of_decide_eq_true hproperty⟩

/-- A run whose steps all meet a condition has a property in every state. Assumes: an invariant that
implies the property and is kept by every step that meets the condition. -/
theorem Meets.always {condition : σ → ℓ → Prop} (inv : σ → Prop) {property : σ → Prop}
    (himp : ∀ state, inv state → property state)
    (hkeep : ∀ before label later, inv before → next before label = some later →
      condition before label → inv later)
    {start : σ} (hstart : inv start) {labels : List ℓ}
    (hmeets : Meets next condition start labels) :
    Always next property start labels := by
  induction labels generalizing start with
  | nil => exact himp start hstart
  | cons label rest ih =>
    refine ⟨himp start hstart, fun later hnext ↦ ?_⟩
    obtain ⟨hcondition, hrest⟩ := hmeets later hnext
    exact ih (hkeep start label later hstart hnext hcondition) hrest

/-- A run with a property in every state meets a condition at every step. Assumes: an invariant that
is kept by every step that meets the condition, and from which every step that does not meet it ends
in a state without the property. -/
theorem Always.meets {condition : σ → ℓ → Prop} (inv : σ → Prop) {property : σ → Prop}
    (hkeep : ∀ before label later, inv before → next before label = some later →
      condition before label → inv later)
    (hbreak : ∀ before label later, inv before → next before label = some later →
      ¬ condition before label → ¬ property later)
    {start : σ} (hstart : inv start) {labels : List ℓ}
    (halways : Always next property start labels) :
    Meets next condition start labels := by
  induction labels generalizing start with
  | nil => trivial
  | cons label rest ih =>
    intro later hnext
    have hcondition : condition start label := by
      by_contra hnot
      exact hbreak start label later hstart hnext hnot (halways.2 later hnext).head
    exact ⟨hcondition, ih (hkeep start label later hstart hnext hcondition) (halways.2 later hnext)⟩

/-- The exact rule for runs. Assumes: an invariant that implies the property, is kept by every step
that meets the condition, and from which every step that does not meet it ends in a state without
the property. Along a run from a state with the invariant, the property holds in every state if and
only if every step meets the condition. -/
theorem always_iff_meets {condition : σ → ℓ → Prop} (inv : σ → Prop) {property : σ → Prop}
    (himp : ∀ state, inv state → property state)
    (hkeep : ∀ before label later, inv before → next before label = some later →
      condition before label → inv later)
    (hbreak : ∀ before label later, inv before → next before label = some later →
      ¬ condition before label → ¬ property later)
    {start : σ} (hstart : inv start) (labels : List ℓ) :
    Always next property start labels ↔ Meets next condition start labels :=
  ⟨Always.meets inv hkeep hbreak hstart, Meets.always inv himp hkeep hstart⟩

/-- Two conditions are met by the same runs. Assumes: a condition that the run meets, under which
the two agree. -/
theorem meets_congr {assumed condition other : σ → ℓ → Prop}
    (hagree : ∀ before label, assumed before label → (condition before label ↔ other before label))
    {start : σ} {labels : List ℓ} (hassumed : Meets next assumed start labels) :
    Meets next condition start labels ↔ Meets next other start labels := by
  induction labels generalizing start with
  | nil => exact Iff.rfl
  | cons label rest ih =>
    refine forall_congr' fun later ↦ forall_congr' fun hnext ↦ ?_
    obtain ⟨hlabel, hrest⟩ := hassumed later hnext
    exact and_congr (hagree start label hlabel) (ih hrest)

/-- A property of every state of a run holds in its last state. -/
theorem Always.last {property : σ → Prop} {start last : σ} {labels : List ℓ}
    (halways : Always next property start labels) (hrun : run next start labels = some last) :
    property last := by
  induction labels generalizing start with
  | nil =>
    cases hrun
    exact halways
  | cons label rest ih =>
    obtain ⟨later, hnext, hrest⟩ := Option.bind_eq_some_iff.mp hrun
    exact ih (halways.2 later hnext) hrest

/-- A property that fails in the last state of a run does not hold in every state. -/
theorem not_always_of_run {property : σ → Prop} [DecidablePred property] {start : σ}
    {labels : List ℓ}
    (hrun : (run next start labels).any (fun last ↦ decide (¬ property last)) = true) :
    ¬ Always next property start labels := by
  obtain ⟨last, hlast, hfails⟩ := (Option.any_eq_true _ _).mp hrun
  exact fun halways ↦ of_decide_eq_true hfails (halways.last hlast)

/-- What every step keeps holds at the end of a run. -/
theorem keep_of_run {kept : σ → Prop}
    (hkept : ∀ before label later, kept before → next before label = some later → kept later)
    {start last : σ} (hstart : kept start) {labels : List ℓ}
    (hrun : run next start labels = some last) : kept last := by
  have hreach : Reachable next start last := reachable_of_run hrun
  exact hreach.invariant kept hstart fun before label later hbefore _ hnext ↦
    hkept before label later hbefore hnext

/-- The converse for runs that come to their end. Assumes: an invariant that is kept by every step
that meets the condition; every other step from it loses the run; a lost run stays lost, and its
final states do not have the property. A run to a final state with the property in every state meets
the condition at every step. -/
theorem Always.meets_of_final {condition : σ → ℓ → Prop} (inv lost : σ → Prop)
    {property final : σ → Prop}
    (hkeep : ∀ before label later, inv before → next before label = some later →
      condition before label → inv later)
    (hlose : ∀ before label later, inv before → next before label = some later →
      ¬ condition before label → lost later)
    (hlost : ∀ before label later, lost before → next before label = some later → lost later)
    (hend : ∀ state, lost state → final state → ¬ property state)
    {start last : σ} (hstart : inv start) {labels : List ℓ}
    (halways : Always next property start labels) (hrun : run next start labels = some last)
    (hfinal : final last) : Meets next condition start labels := by
  induction labels generalizing start with
  | nil => trivial
  | cons label rest ih =>
    obtain ⟨later, hnext, hrest⟩ := Option.bind_eq_some_iff.mp hrun
    intro other hother
    cases hnext.symm.trans hother
    have hcondition : condition start label := by
      by_contra hnot
      have hlast := keep_of_run hlost (hlose start label later hstart hnext hnot) hrest
      exact hend last hlast hfinal (halways.last hrun)
    exact ⟨hcondition, ih (hkeep start label later hstart hnext hcondition)
      (halways.2 later hnext) hrest⟩

end KernelModules.Foundation
