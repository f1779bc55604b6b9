import KernelModules.Foundation.HeapProgram

/-!
# Programs that run alone

`Program.Runs` is the run of a program by itself, from a heap to its outcome and the heap it leaves.
A program that ensures something with the whole heap has a run, whatever it is
(`Ensures.exists_runs`), and no other one (`Runs.unique`): it is not stuck and comes to its end. A
run of two programs is one of the first and one of the second (`Runs.of_bind`).

`Program.loop` is a counted loop, and `Ensures.loop` and `Ensures.forM` are the rules for loops, by
what one turn keeps.
-/

set_option autoImplicit false
set_option relaxedAutoImplicit false

namespace KernelModules.Foundation

variable {Block Res Fault α β : Type}

namespace Program

/-! ### Runs -/

section Runs

variable [DecidableEq Res]

/-- The run of a program from a heap, with its outcome and the heap it leaves. -/
inductive Runs :
    Program Block Res Fault α → Heap Block Res → Except Fault α → Heap Block Res → Prop
  | ended {program : Program Block Res Fault α} {heap : Heap Block Res} {result : Except Fault α} :
    program.outcome = some result → Runs program heap result heap
  | step {program rest : Program Block Res Fault α} {heap later last : Heap Block Res}
    {result : Except Fault α} : program.step heap = some (rest, later) →
      Runs rest later result last → Runs program heap result last

/-- A program has one run. -/
theorem Runs.unique {program : Program Block Res Fault α} {heap first second : Heap Block Res}
    {result other : Except Fault α} (hfirst : Runs program heap result first)
    (hsecond : Runs program heap other second) : result = other ∧ first = second := by
  induction hfirst with
  | ended houtcome =>
    cases hsecond with
    | ended hother => exact ⟨Option.some.inj (houtcome.symm.trans hother), rfl⟩
    | step hstep _ =>
      rw [outcome_eq_none_of_step hstep] at houtcome
      cases houtcome
  | step hstep _ ih =>
    cases hsecond with
    | ended hother =>
      rw [outcome_eq_none_of_step hstep] at hother
      cases hother
    | step hother hrest =>
      rw [hstep] at hother
      cases hother
      exact ih hrest

/-- A program that has not ended takes its operation also with more behind it. -/
theorem step_bind {first : Program Block Res Fault α} {after : α → Program Block Res Fault β}
    {heap : Heap Block Res} (hfirst : first.outcome = none) :
    (first.bind after).step heap =
      (first.step heap).map fun next ↦ (next.1.bind after, next.2) := by
  cases first with
  | done result => cases hfirst
  | fault reason => cases hfirst
  | stuck => rfl
  | alloc content next => cases content <;> rfl
  | free pointer next =>
    cases pointer with
    | none => rfl
    | some a => simp only [Program.bind, Program.step, Option.map_map, Function.comp_def]
  | load reason pointer next =>
    cases pointer with
    | none => rfl
    | some a => simp only [Program.bind, Program.step, Option.map_map, Function.comp_def]
  | update reason pointer change next =>
    cases pointer with
    | none => rfl
    | some a => simp only [Program.bind, Program.step, Option.map_map, Function.comp_def]
  | acquire r next => rfl
  | release r next =>
    simp only [Program.bind, Program.step]
    split_ifs <;> rfl

omit [DecidableEq Res] in
/-- A program that has not ended has not ended with more behind it. -/
theorem outcome_bind {first : Program Block Res Fault α} {after : α → Program Block Res Fault β}
    (hfirst : first.outcome = none) : (first.bind after).outcome = none := by
  cases first with
  | done result => cases hfirst
  | fault reason => cases hfirst
  | _ => rfl

/-- Behind a program that has ended runs the other one. -/
theorem Runs.of_bind_of_outcome {first : Program Block Res Fault α}
    {after : α → Program Block Res Fault β} {heap last : Heap Block Res} {result : Except Fault β}
    {outcome : Except Fault α} (hfirst : first.outcome = some outcome)
    (hruns : Runs (first.bind after) heap result last) :
    ∃ middle later, Runs first heap middle later ∧
      ∀ value, middle = .ok value → Runs (after value) later result last := by
  refine ⟨outcome, heap, .ended hfirst, fun value hvalue ↦ ?_⟩
  cases first with
  | done middle =>
    cases hvalue
    cases hfirst
    exact hruns
  | fault reason =>
    cases hvalue
    cases hfirst
  | _ => cases hfirst

/-- A run of two programs, one after the other, is a run of the first and one of the second. -/
theorem Runs.of_bind {first : Program Block Res Fault α} {after : α → Program Block Res Fault β}
    {heap last : Heap Block Res} {result : Except Fault β}
    (hruns : Runs (first >>= after) heap result last) :
    ∃ middle later, Runs first heap middle later ∧
      ∀ value, middle = .ok value → Runs (after value) later result last := by
  change Runs (first.bind after) heap result last at hruns
  generalize hprogram : first.bind after = program at hruns
  induction hruns generalizing first with
  | ended houtcome =>
    cases hfirst : first.outcome with
    | some outcome => exact Runs.of_bind_of_outcome hfirst (hprogram ▸ .ended houtcome)
    | none =>
      rw [← hprogram, outcome_bind hfirst] at houtcome
      cases houtcome
  | step hstep hrest ih =>
    cases hfirst : first.outcome with
    | some outcome => exact Runs.of_bind_of_outcome hfirst (hprogram ▸ .step hstep hrest)
    | none =>
      rw [← hprogram, step_bind hfirst, Option.map_eq_some_iff] at hstep
      obtain ⟨next, hnext, heq⟩ := hstep
      obtain ⟨hafter, rfl⟩ := Prod.mk.inj heq
      obtain ⟨middle, later, hmiddle, hvalue⟩ := ih hafter
      exact ⟨middle, later, .step hnext hmiddle, hvalue⟩

/-- A program that ensures something with the whole heap comes to its end, and has ensured it. -/
theorem Ensures.exists_runs {post : Except Fault α → Owned Block Res → Prop}
    {program : Program Block Res Fault α} {heap : Heap Block Res} (hheap : heap.WellFormed)
    (hensures : program.Ensures (fun _ ↦ none) post ⟨heap.blocks, heap.refs⟩) :
    ∃ result last, Runs program heap result last ∧ post result ⟨last.blocks, last.refs⟩ := by
  induction program generalizing heap with
  | done result => exact ⟨_, _, .ended rfl, hensures⟩
  | fault reason => exact ⟨_, _, .ended rfl, hensures⟩
  | stuck => exact hensures.elim
  | alloc content next ih =>
    cases content with
    | none =>
      obtain ⟨result, last, hruns, hpost⟩ := ih none hheap hensures
      exact ⟨result, last, .step rfl hruns, hpost⟩
    | some content =>
      obtain ⟨result, last, hruns, hpost⟩ := ih (some heap.fresh) (hheap.alloc content)
        (hensures heap.fresh (hheap heap.fresh le_rfl) rfl)
      exact ⟨result, last, .step rfl hruns, hpost⟩
  | free pointer next ih =>
    cases pointer with
    | none =>
      obtain ⟨result, last, hruns, hpost⟩ := ih hheap hensures
      exact ⟨result, last, .step rfl hruns, hpost⟩
    | some a =>
      obtain ⟨⟨content, ha⟩, hnext⟩ := hensures
      have hblock : heap.blocks a = some content := ha
      have hlater : (heap.set a none).WellFormed := hheap.set (hheap.lt_fresh hblock) none
      obtain ⟨result, last, hruns, hpost⟩ := ih hlater hnext
      have hstep : (free (some a) next).step heap = some (next, heap.set a none) := by
        rw [Program.step, hblock, Option.map_some]
      exact ⟨result, last, .step hstep hruns, hpost⟩
  | load reason pointer next ih =>
    cases pointer with
    | none => exact ⟨_, _, .step rfl (.ended rfl), hensures⟩
    | some a =>
      obtain ⟨content, hcontent, hnext⟩ := hensures
      have hblock : heap.blocks a = some content :=
        hcontent.resolve_right fun hnone ↦ (by cases hnone)
      obtain ⟨result, last, hruns, hpost⟩ := ih content hheap hnext
      have hstep : (load reason (some a) next).step heap = some (next content, heap) := by
        rw [Program.step, hblock, Option.map_some]
      exact ⟨result, last, .step hstep hruns, hpost⟩
  | update reason pointer change next ih =>
    cases pointer with
    | none => exact ⟨_, _, .step rfl (.ended rfl), hensures⟩
    | some a =>
      obtain ⟨content, changed, ha, hchange, hnext⟩ := hensures
      have hblock : heap.blocks a = some content := ha
      have hlater : (heap.set a (some changed)).WellFormed := hheap.set (hheap.lt_fresh hblock) _
      obtain ⟨result, last, hruns, hpost⟩ := ih hlater hnext
      have hstep : (update reason (some a) change next).step heap =
          some (next, heap.set a (some changed)) := by
        rw [Program.step, hblock, Option.bind_some, hchange, Option.map_some]
      exact ⟨result, last, .step hstep hruns, hpost⟩
  | acquire r next ih =>
    have hlater : (heap.setRefs r (heap.refs r + 1)).WellFormed := hheap
    obtain ⟨result, last, hruns, hpost⟩ := ih hlater hensures
    exact ⟨result, last, .step rfl hruns, hpost⟩
  | release r next ih =>
    obtain ⟨hpos, hnext⟩ := hensures
    have hne : heap.refs r ≠ 0 := Nat.pos_iff_ne_zero.mp hpos
    have hlater : (heap.setRefs r (heap.refs r - 1)).WellFormed := hheap
    obtain ⟨result, last, hruns, hpost⟩ := ih hlater hnext
    exact ⟨result, last, .step (if_neg hne) hruns, hpost⟩

end Runs

/-! ### Loops -/

/-- A result is handed on. -/
@[simp] theorem done_bind (result : α) (after : α → Program Block Res Fault β) :
    (done result >>= after) = after result := rfl

/-- A loop with a number of turns. -/
def loop (body : β → Program Block Res Fault β) : ℕ → β → Program Block Res Fault β
  | 0, s => .done s
  | turns + 1, s => body s >>= loop body turns

section Rules

variable [DecidableEq Res] {view : ℕ → Option Block}

/-- The rule for a loop, with an invariant over the turns left. Assumes: every turn takes the
invariant on. -/
theorem Ensures.loop (inv : ℕ → β → Owned Block Res → Prop) {body : β → Program Block Res Fault β}
    (hbody : ∀ left s own, inv (left + 1) s own → (body s).Ensures view
      (fun result later ↦ ∃ next, result = .ok next ∧ inv left next later) own)
    {turns : ℕ} {s : β} {own : Owned Block Res} (hs : inv turns s own) :
    (loop body turns s).Ensures view
      (fun result later ↦ ∃ last, result = .ok last ∧ inv 0 last later) own := by
  induction turns generalizing s own with
  | zero => exact ⟨s, rfl, hs⟩
  | succ turns ih =>
    refine (hbody turns s own hs).bind (fun next later hnext ↦ ?_) fun reason later hfault ↦ ?_
    · obtain ⟨value, hvalue, hinv⟩ := hnext
      cases hvalue
      exact ih hinv
    · obtain ⟨value, hvalue, -⟩ := hfault
      cases hvalue

/-- The rule for a loop over a list. Assumes: every turn takes the invariant on. -/
theorem Ensures.forM (inv : List β → Owned Block Res → Prop)
    {body : β → Program Block Res Fault Unit}
    (hbody : ∀ x rest own, inv (x :: rest) own →
      (body x).Ensures view (fun result later ↦ result = .ok () ∧ inv rest later) own)
    {xs : List β} {own : Owned Block Res} (hxs : inv xs own) :
    (xs.forM body).Ensures view (fun result later ↦ result = .ok () ∧ inv [] later) own := by
  induction xs generalizing own with
  | nil => exact ⟨rfl, hxs⟩
  | cons x rest ih =>
    change (body x >>= fun _ ↦ rest.forM body).Ensures view _ own
    refine (hbody x rest own hxs).bind (fun _ later hlater ↦ ih hlater.2) fun _ _ hfault ↦ ?_
    cases hfault.1

end Rules

end Program

end KernelModules.Foundation
