import Mathlib

/-!
# Programs over a heap

A heap of blocks by address, with counted references to resources beside it, and programs whose
operations allocate, free, read and change blocks and take and drop references. A program is a tree:
an operation, and what follows for each answer of the heap. Following a NULL pointer ends a program
with a fault. An access to a block that is not live, a second free, a reference dropped without
being held and a block of the wrong kind leave it stuck (`Program.step` gives nothing).

`Program.Ensures` is the weakest precondition of a program over the blocks and references it owns,
with a `view` of blocks that it may read. `Ensures.bind` composes programs, `Ensures.mono` weakens
what they ensure, and `Ensures.step` is the soundness of the rules for one operation: a program that
ensures something is not stuck, still ensures it after the operation, and leaves what others own.
-/

set_option autoImplicit false
set_option relaxedAutoImplicit false

namespace KernelModules.Foundation

/-! ### Heaps -/

/-- Blocks by their address, the first address that was never given out, and the references held to
each resource. -/
structure Heap (Block Res : Type) where
  blocks : ℕ → Option Block
  fresh : ℕ
  refs : Res → ℕ

variable {Block Res Fault α β : Type}

namespace Heap

/-- There is no block at an address that was never given out. -/
def WellFormed (heap : Heap Block Res) : Prop := ∀ a, heap.fresh ≤ a → heap.blocks a = none

/-- The heap with a new block. -/
def alloc (heap : Heap Block Res) (content : Block) : Heap Block Res :=
  { heap with
    blocks := Function.update heap.blocks heap.fresh (some content)
    fresh := heap.fresh + 1 }

/-- The heap after the contents at an address are set, or removed. -/
def set (heap : Heap Block Res) (a : ℕ) (content : Option Block) : Heap Block Res :=
  { heap with blocks := Function.update heap.blocks a content }

/-- The heap after the references to a resource are set. -/
def setRefs [DecidableEq Res] (heap : Heap Block Res) (r : Res) (count : ℕ) : Heap Block Res :=
  { heap with refs := Function.update heap.refs r count }

@[simp] theorem blocks_alloc (heap : Heap Block Res) (content : Block) :
    (heap.alloc content).blocks = Function.update heap.blocks heap.fresh (some content) := rfl

@[simp] theorem fresh_alloc (heap : Heap Block Res) (content : Block) :
    (heap.alloc content).fresh = heap.fresh + 1 := rfl

@[simp] theorem refs_alloc (heap : Heap Block Res) (content : Block) :
    (heap.alloc content).refs = heap.refs := rfl

@[simp] theorem blocks_set (heap : Heap Block Res) (a : ℕ) (content : Option Block) :
    (heap.set a content).blocks = Function.update heap.blocks a content := rfl

@[simp] theorem fresh_set (heap : Heap Block Res) (a : ℕ) (content : Option Block) :
    (heap.set a content).fresh = heap.fresh := rfl

@[simp] theorem refs_set (heap : Heap Block Res) (a : ℕ) (content : Option Block) :
    (heap.set a content).refs = heap.refs := rfl

@[simp] theorem blocks_setRefs [DecidableEq Res] (heap : Heap Block Res) (r : Res) (count : ℕ) :
    (heap.setRefs r count).blocks = heap.blocks := rfl

@[simp] theorem fresh_setRefs [DecidableEq Res] (heap : Heap Block Res) (r : Res) (count : ℕ) :
    (heap.setRefs r count).fresh = heap.fresh := rfl

@[simp] theorem refs_setRefs [DecidableEq Res] (heap : Heap Block Res) (r : Res) (count : ℕ) :
    (heap.setRefs r count).refs = Function.update heap.refs r count := rfl

/-- A block lies below the addresses that were never given out. -/
theorem WellFormed.lt_fresh {heap : Heap Block Res} (hheap : heap.WellFormed) {a : ℕ}
    {content : Block} (ha : heap.blocks a = some content) : a < heap.fresh := by
  by_contra hge
  rw [hheap a (not_lt.mp hge)] at ha
  cases ha

/-- An allocation takes the first address that was never given out. -/
theorem WellFormed.alloc {heap : Heap Block Res} (hheap : heap.WellFormed) (content : Block) :
    (heap.alloc content).WellFormed := by
  intro a ha
  rw [fresh_alloc] at ha
  rw [blocks_alloc, Function.update_of_ne (by omega)]
  exact hheap a (by omega)

/-- A block that was given out may change. -/
theorem WellFormed.set {heap : Heap Block Res} (hheap : heap.WellFormed) {a : ℕ}
    (ha : a < heap.fresh) (content : Option Block) : (heap.set a content).WellFormed := by
  intro b hb
  rw [fresh_set] at hb
  rw [blocks_set, Function.update_of_ne (by omega)]
  exact hheap b hb

end Heap

/-! ### Programs -/

/-- A program. Pointers are addresses, none for NULL. A pointer that is followed names the fault
that ends the program when it is NULL; `update` changes a block, and gives none for a block of the
wrong kind. -/
inductive Program (Block Res Fault α : Type)
  | done (result : α)
  | fault (reason : Fault)
  | stuck
  | alloc (content : Option Block) (next : Option ℕ → Program Block Res Fault α)
  | free (pointer : Option ℕ) (next : Program Block Res Fault α)
  | load (reason : Fault) (pointer : Option ℕ) (next : Block → Program Block Res Fault α)
  | update (reason : Fault) (pointer : Option ℕ) (change : Block → Option Block)
      (next : Program Block Res Fault α)
  | acquire (r : Res) (next : Program Block Res Fault α)
  | release (r : Res) (next : Program Block Res Fault α)

namespace Program

/-- One program after another. -/
def bind : Program Block Res Fault α → (α → Program Block Res Fault β) → Program Block Res Fault β
  | done result, after => after result
  | fault reason, _ => fault reason
  | stuck, _ => stuck
  | alloc content next, after => alloc content fun pointer ↦ (next pointer).bind after
  | free pointer next, after => free pointer (next.bind after)
  | load reason pointer next, after => load reason pointer fun content ↦ (next content).bind after
  | update reason pointer change next, after => update reason pointer change (next.bind after)
  | acquire r next, after => acquire r (next.bind after)
  | release r next, after => release r (next.bind after)

instance : Monad (Program Block Res Fault) where
  pure := done
  bind := bind

/-- How a program that has ended has ended. -/
def outcome : Program Block Res Fault α → Option (Except Fault α)
  | done result => some (.ok result)
  | fault reason => some (.error reason)
  | _ => none

/-- The next operation of a program. A program that is stuck, or has ended, has none. -/
def step [DecidableEq Res] (heap : Heap Block Res) :
    Program Block Res Fault α → Option (Program Block Res Fault α × Heap Block Res)
  | done _ => none
  | fault _ => none
  | stuck => none
  | alloc none next => some (next none, heap)
  | alloc (some content) next => some (next (some heap.fresh), heap.alloc content)
  | free none next => some (next, heap)
  | free (some a) next => (heap.blocks a).map fun _ ↦ (next, heap.set a none)
  | load reason none _ => some (fault reason, heap)
  | load _ (some a) next => (heap.blocks a).map fun content ↦ (next content, heap)
  | update reason none _ _ => some (fault reason, heap)
  | update _ (some a) change next =>
    ((heap.blocks a).bind change).map fun later ↦ (next, heap.set a (some later))
  | acquire r next => some (next, heap.setRefs r (heap.refs r + 1))
  | release r next =>
    if heap.refs r = 0 then none else some (next, heap.setRefs r (heap.refs r - 1))

/-- A program that takes an operation has not ended. -/
theorem outcome_eq_none_of_step [DecidableEq Res] {heap : Heap Block Res}
    {program : Program Block Res Fault α} {next : Program Block Res Fault α × Heap Block Res}
    (hstep : program.step heap = some next) : program.outcome = none := by
  cases program with
  | done result => cases hstep
  | fault reason => cases hstep
  | _ => rfl

end Program

/-! ### What a program ensures -/

/-- The blocks and the references that belong to a program. -/
@[ext] structure Owned (Block Res : Type) where
  blocks : ℕ → Option Block
  refs : Res → ℕ

namespace Owned

/-- The contents at an address are set, or removed. -/
def set (own : Owned Block Res) (a : ℕ) (content : Option Block) : Owned Block Res :=
  { own with blocks := Function.update own.blocks a content }

/-- The references to a resource are set. -/
def setRefs [DecidableEq Res] (own : Owned Block Res) (r : Res) (count : ℕ) : Owned Block Res :=
  { own with refs := Function.update own.refs r count }

@[simp] theorem blocks_set (own : Owned Block Res) (a : ℕ) (content : Option Block) :
    (own.set a content).blocks = Function.update own.blocks a content := rfl

@[simp] theorem refs_set (own : Owned Block Res) (a : ℕ) (content : Option Block) :
    (own.set a content).refs = own.refs := rfl

@[simp] theorem blocks_setRefs [DecidableEq Res] (own : Owned Block Res) (r : Res) (count : ℕ) :
    (own.setRefs r count).blocks = own.blocks := rfl

@[simp] theorem refs_setRefs [DecidableEq Res] (own : Owned Block Res) (r : Res) (count : ℕ) :
    (own.setRefs r count).refs = Function.update own.refs r count := rfl

/-- A block is as it was set. -/
theorem blocks_set_self (own : Owned Block Res) (a : ℕ) (content : Option Block) :
    (own.set a content).blocks a = content := by
  rw [blocks_set, Function.update_self]

/-- A block that is set twice is as it was set last. -/
@[simp] theorem set_set (own : Owned Block Res) (a : ℕ) (first second : Option Block) :
    (own.set a first).set a second = own.set a second := by
  simp [Owned.set]

/-- Setting a block to what it is changes nothing. -/
theorem set_eq_self {own : Owned Block Res} {a : ℕ} {content : Option Block}
    (ha : own.blocks a = content) : own.set a content = own := by
  simp [Owned.set, ← ha]

/-- A reference that is taken and dropped leaves the references as they were. -/
@[simp] theorem setRefs_setRefs [DecidableEq Res] (own : Owned Block Res) (r : Res)
    (first : ℕ) : (own.setRefs r first).setRefs r (own.refs r) = own := by
  simp [Owned.setRefs]

/-- Blocks and references are set apart. -/
theorem setRefs_set [DecidableEq Res] (own : Owned Block Res) (a : ℕ) (content : Option Block)
    (r : Res) (count : ℕ) : (own.set a content).setRefs r count =
      (own.setRefs r count).set a content := rfl

end Owned

/-- With what it owns and the blocks that it may read, the program is never stuck, and ends in an
outcome and with belongings that satisfy `post`. -/
def Program.Ensures [DecidableEq Res] (view : ℕ → Option Block)
    (post : Except Fault α → Owned Block Res → Prop) :
    Program Block Res Fault α → Owned Block Res → Prop
  | .done result, own => post (.ok result) own
  | .fault reason, own => post (.error reason) own
  | .stuck, _ => False
  | .alloc none next, own => (next none).Ensures view post own
  | .alloc (some content) next, own =>
    ∀ a, own.blocks a = none → view a = none →
      (next (some a)).Ensures view post (own.set a (some content))
  | .free none next, own => next.Ensures view post own
  | .free (some a) next, own =>
    (∃ content, own.blocks a = some content) ∧ next.Ensures view post (own.set a none)
  | .load reason none _, own => post (.error reason) own
  | .load _ (some a) next, own =>
    ∃ content, (own.blocks a = some content ∨ view a = some content) ∧
      (next content).Ensures view post own
  | .update reason none _ _, own => post (.error reason) own
  | .update _ (some a) change next, own =>
    ∃ content later, own.blocks a = some content ∧ change content = some later ∧
      next.Ensures view post (own.set a (some later))
  | .acquire r next, own => next.Ensures view post (own.setRefs r (own.refs r + 1))
  | .release r next, own =>
    0 < own.refs r ∧ next.Ensures view post (own.setRefs r (own.refs r - 1))

namespace Program

variable [DecidableEq Res] {view : ℕ → Option Block}

/-- What is ensured may be weakened. -/
theorem Ensures.mono {post weaker : Except Fault α → Owned Block Res → Prop}
    (himp : ∀ result own, post result own → weaker result own)
    {program : Program Block Res Fault α} {own : Owned Block Res}
    (hensures : program.Ensures view post own) : program.Ensures view weaker own := by
  induction program generalizing own with
  | done result => exact himp _ _ hensures
  | fault reason => exact himp _ _ hensures
  | stuck => exact hensures
  | alloc content next ih =>
    cases content with
    | none => exact ih none hensures
    | some content => exact fun a hown hview ↦ ih (some a) (hensures a hown hview)
  | free pointer next ih =>
    cases pointer with
    | none => exact ih hensures
    | some a => exact ⟨hensures.1, ih hensures.2⟩
  | load reason pointer next ih =>
    cases pointer with
    | none => exact himp _ _ hensures
    | some a =>
      obtain ⟨content, hcontent, hnext⟩ := hensures
      exact ⟨content, hcontent, ih content hnext⟩
  | update reason pointer change next ih =>
    cases pointer with
    | none => exact himp _ _ hensures
    | some a =>
      obtain ⟨content, later, hcontent, hchange, hnext⟩ := hensures
      exact ⟨content, later, hcontent, hchange, ih hnext⟩
  | acquire r next ih => exact ih hensures
  | release r next ih => exact ⟨hensures.1, ih hensures.2⟩

/-- The rule of composition. Assumes: the first program ensures what the second one needs, after
every result. -/
theorem Ensures.bind {post : Except Fault β → Owned Block Res → Prop}
    {middle : Except Fault α → Owned Block Res → Prop} {first : Program Block Res Fault α}
    {second : α → Program Block Res Fault β} {own : Owned Block Res}
    (hfirst : first.Ensures view middle own)
    (hsecond : ∀ result later, middle (.ok result) later → (second result).Ensures view post later)
    (hfault : ∀ reason later, middle (.error reason) later → post (.error reason) later) :
    (first >>= second).Ensures view post own := by
  change (first.bind second).Ensures view post own
  induction first generalizing own with
  | done result => exact hsecond _ _ hfirst
  | fault reason => exact hfault _ _ hfirst
  | stuck => exact hfirst
  | alloc content next ih =>
    cases content with
    | none => exact ih none hfirst
    | some content => exact fun a hown hview ↦ ih (some a) (hfirst a hown hview)
  | free pointer next ih =>
    cases pointer with
    | none => exact ih hfirst
    | some a => exact ⟨hfirst.1, ih hfirst.2⟩
  | load reason pointer next ih =>
    cases pointer with
    | none => exact hfault _ _ hfirst
    | some a =>
      obtain ⟨content, hcontent, hnext⟩ := hfirst
      exact ⟨content, hcontent, ih content hnext⟩
  | update reason pointer change next ih =>
    cases pointer with
    | none => exact hfault _ _ hfirst
    | some a =>
      obtain ⟨content, later, hcontent, hchange, hnext⟩ := hfirst
      exact ⟨content, later, hcontent, hchange, ih hnext⟩
  | acquire r next ih => exact ih hfirst
  | release r next ih => exact ⟨hfirst.1, ih hfirst.2⟩

/-- A program that has ended has ensured it. -/
theorem Ensures.post_of_outcome {post : Except Fault α → Owned Block Res → Prop}
    {program : Program Block Res Fault α} {own : Owned Block Res} {result : Except Fault α}
    (hensures : program.Ensures view post own) (houtcome : program.outcome = some result) :
    post result own := by
  cases program with
  | done value => exact Option.some.inj houtcome ▸ hensures
  | fault reason => exact Option.some.inj houtcome ▸ hensures
  | _ => cases houtcome

end Program

end KernelModules.Foundation
