import KernelModules.Foundation.TransitionSystem

/-!
# Serial orders of concurrent calls

Calls `ι` act on an object with states `α`: `apply state call` is the result of the call run alone
from `state`, and the state it leaves. `serialState` and `serialResults` run calls one after another
in a given order.

`ReachableUnder.exists_serialOrder` is the linearization rule. A concurrent system is related to the
object by a relation between its states, the states of the object, and the results the object has
given. When every step of the system either keeps the relation, or keeps it once one more call is
applied to the object, every reachable state is related to the outcome of a serial order.
-/

set_option autoImplicit false
set_option relaxedAutoImplicit false

namespace KernelModules.Foundation

variable {α ι ρ : Type*}

/-- The state after the calls of a list, run one after another. -/
def serialState (apply : α → ι → ρ × α) : α → List ι → α
  | state, [] => state
  | state, call :: rest => serialState apply (apply state call).2 rest

/-- The results of the calls of a list, run one after another. -/
def serialResults (apply : α → ι → ρ × α) : α → List ι → List (ι × ρ)
  | _, [] => []
  | state, call :: rest =>
    (call, (apply state call).1) :: serialResults apply (apply state call).2 rest

/-- The state after one more call. -/
theorem serialState_concat (apply : α → ι → ρ × α) (start : α) (order : List ι) (call : ι) :
    serialState apply start (order ++ [call]) = (apply (serialState apply start order) call).2 := by
  induction order generalizing start with
  | nil => rfl
  | cons first rest ih => exact ih (apply start first).2

/-- The results after one more call. -/
theorem serialResults_concat (apply : α → ι → ρ × α) (start : α) (order : List ι) (call : ι) :
    serialResults apply start (order ++ [call]) =
      serialResults apply start order ++
        [(call, (apply (serialState apply start order) call).1)] := by
  induction order generalizing start with
  | nil => rfl
  | cons first rest ih =>
    simp only [List.cons_append, serialResults, serialState]
    rw [ih]

/-- The results name the calls in their order. -/
@[simp] theorem map_fst_serialResults (apply : α → ι → ρ × α) (start : α) (order : List ι) :
    (serialResults apply start order).map Prod.fst = order := by
  induction order generalizing start with
  | nil => rfl
  | cons first rest ih =>
    simp only [serialResults, List.map_cons]
    rw [ih]

variable {σ ℓ : Type*} {next : σ → ℓ → Option σ}

/-- The linearization rule. Assumes: a relation that holds at the start with no call applied, and
that every step meeting the condition keeps, with the object unchanged or with one call applied that
was not applied before. Every state reached by such steps is related to the outcome of a serial
order without repetition. -/
theorem ReachableUnder.exists_serialOrder {condition : σ → ℓ → Prop} {start state : σ}
    (apply : α → ι → ρ × α) {object : α} {related : σ → α → List (ι × ρ) → Prop}
    (hstart : related start object [])
    (hstep : ∀ before label later current results, related before current results →
      condition before label → next before label = some later →
        related later current results ∨
          ∃ call, call ∉ results.map Prod.fst ∧
            related later (apply current call).2 (results ++ [(call, (apply current call).1)]))
    (hreach : ReachableUnder next condition start state) :
    ∃ order : List ι, order.Nodup ∧
      related state (serialState apply object order) (serialResults apply object order) := by
  refine hreach.invariant (fun state ↦ ∃ order : List ι, order.Nodup ∧
    related state (serialState apply object order) (serialResults apply object order))
    ⟨[], List.nodup_nil, hstart⟩ ?_
  rintro before label later ⟨order, hnodup, hrelated⟩ hcondition hnext
  rcases hstep before label later _ _ hrelated hcondition hnext with hsame | ⟨call, hnew, happlied⟩
  · exact ⟨order, hnodup, hsame⟩
  · rw [map_fst_serialResults] at hnew
    refine ⟨order ++ [call], ?_, ?_⟩
    · refine List.nodup_append.mpr ⟨hnodup, List.pairwise_singleton _ call, ?_⟩
      intro first hfirst second hsecond heq
      rw [List.mem_singleton] at hsecond
      exact hnew (hsecond ▸ heq ▸ hfirst)
    · rw [serialState_concat, serialResults_concat]
      exact happlied

end KernelModules.Foundation
