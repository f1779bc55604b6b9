import KernelModules.Foundation.HeapProgram

/-!
# Programs that share a heap

Any number of programs over one heap, each of which takes its operations one at a time. Every block
has an owner: one of the programs, or none, and the blocks without an owner are common. A program
reads and changes its own blocks, and reads the common blocks in its view.

`Divided` says that the heap is divided so: every program ensures what it should with its part of
the heap, and the references to a resource are those that the programs hold. An operation of any
program keeps the division (`Divided.step`), so no program is ever stuck, in whatever order they
run. `Divided.start` gives a program some of the common blocks, and `Divided.stop` makes the blocks
of a program common.
-/

set_option autoImplicit false
set_option relaxedAutoImplicit false

namespace KernelModules.Foundation

variable {Block Res Fault α : Type} {κ : Type*}

/-! ### The parts of a heap -/

namespace Heap

variable [DecidableEq κ]

/-- The blocks of an owner. -/
def part (heap : Heap Block Res) (owner : ℕ → κ) (o : κ) : ℕ → Option Block :=
  fun a ↦ if owner a = o then heap.blocks a else none

/-- The blocks of an owner are in the heap. -/
theorem part_eq_some_iff {heap : Heap Block Res} {owner : ℕ → κ} {o : κ} {a : ℕ}
    {content : Block} :
    heap.part owner o a = some content ↔ owner a = o ∧ heap.blocks a = some content := by
  unfold part
  split_ifs with howner
  · exact (and_iff_right howner).symm
  · exact iff_of_false (by simp) fun hboth ↦ howner hboth.1

/-- A block has one owner. -/
theorem part_eq_none_of_ne {heap : Heap Block Res} {owner : ℕ → κ} {first second : κ} {a : ℕ}
    {content : Block} (hfirst : heap.part owner first a = some content) (hne : first ≠ second) :
    heap.part owner second a = none :=
  if_neg fun hsecond ↦ hne ((part_eq_some_iff.mp hfirst).1.symm.trans hsecond)

/-- No owner has a block at an address that was never given out. -/
theorem WellFormed.part_fresh {heap : Heap Block Res} (hheap : heap.WellFormed) (owner : ℕ → κ)
    (o : κ) : heap.part owner o heap.fresh = none := by
  unfold part
  rw [hheap heap.fresh le_rfl, ite_self]

/-- A change of an owned block is seen by its owner. -/
theorem part_set_self {heap : Heap Block Res} {owner : ℕ → κ} {o : κ} {a : ℕ}
    (howner : owner a = o) (content : Option Block) :
    (heap.set a content).part owner o = Function.update (heap.part owner o) a content := by
  funext b
  by_cases hb : b = a
  · rw [hb, Function.update_self, part, if_pos howner, blocks_set, Function.update_self]
  · rw [Function.update_of_ne hb, part, part, blocks_set, Function.update_of_ne hb]

/-- A change of a block is seen by nobody but its owner. -/
theorem part_set_of_ne {heap : Heap Block Res} {owner : ℕ → κ} {o : κ} {a : ℕ}
    (howner : owner a ≠ o) (content : Option Block) :
    (heap.set a content).part owner o = heap.part owner o := by
  funext b
  by_cases hb : b = a
  · rw [hb, part, part, if_neg howner, if_neg howner]
  · rw [part, part, blocks_set, Function.update_of_ne hb]

/-- A new block belongs to the one that it is given to. -/
theorem part_alloc_self (heap : Heap Block Res) (owner : ℕ → κ) (o : κ) (content : Block) :
    (heap.alloc content).part (Function.update owner heap.fresh o) o =
      Function.update (heap.part owner o) heap.fresh (some content) := by
  funext b
  by_cases hb : b = heap.fresh
  · rw [hb, Function.update_self, part, Function.update_self, if_pos rfl, blocks_alloc,
      Function.update_self]
  · simp only [part, blocks_alloc, Function.update_of_ne hb]

/-- A new block is seen by nobody but the one that it is given to. -/
theorem part_alloc_of_ne {heap : Heap Block Res} (hheap : heap.WellFormed) (owner : ℕ → κ)
    {o other : κ} (hne : other ≠ o) (content : Block) :
    (heap.alloc content).part (Function.update owner heap.fresh o) other =
      heap.part owner other := by
  funext b
  by_cases hb : b = heap.fresh
  · rw [hb, hheap.part_fresh, part, Function.update_self, if_neg hne.symm]
  · simp only [part, blocks_alloc, Function.update_of_ne hb]

end Heap

/-! ### One operation of one owner -/

/-- The soundness of the rules for one operation of an owner. Assumes: the program ensures something
with the part of the heap that belongs to its owner; what it may read belongs to others; the heap
counts the references that it holds; and it has not ended. The program is not stuck, ensures the
same after the operation, and what belongs to others is as before. -/
theorem Program.Ensures.step [DecidableEq Res] [DecidableEq κ] {heap : Heap Block Res}
    {owner : ℕ → κ} {o : κ} {held : Res → ℕ} {view : ℕ → Option Block}
    {post : Except Fault α → Owned Block Res → Prop} {program : Program Block Res Fault α}
    (hensures : program.Ensures view post ⟨heap.part owner o, held⟩) (hheap : heap.WellFormed)
    (hview : ∀ a content, view a = some content → heap.blocks a = some content)
    (hheld : ∀ r, held r ≤ heap.refs r) (hgoing : program.outcome = none) :
    ∃ rest later owners refs, program.step heap = some (rest, later) ∧
      rest.Ensures view post ⟨later.part owners o, refs⟩ ∧ later.WellFormed ∧
      heap.fresh ≤ later.fresh ∧
      (∀ other, other ≠ o → later.part owners other = heap.part owner other) ∧
      ∀ r, later.refs r + held r = heap.refs r + refs r := by
  have hmine : ∀ a content, heap.part owner o a = some content →
      owner a = o ∧ heap.blocks a = some content := fun _ _ ↦ Heap.part_eq_some_iff.mp
  cases program with
  | done result => cases hgoing
  | fault reason => cases hgoing
  | stuck => exact hensures.elim
  | alloc content next =>
    cases content with
    | none => exact ⟨_, _, owner, held, rfl, hensures, hheap, le_rfl, fun _ _ ↦ rfl, fun _ ↦ rfl⟩
    | some content =>
      have hunseen : view heap.fresh = none := by
        by_contra hseen
        obtain ⟨other, hother⟩ := Option.ne_none_iff_exists'.mp hseen
        exact absurd (hheap.lt_fresh (hview _ _ hother)) (lt_irrefl _)
      have hnext := hensures heap.fresh (hheap.part_fresh owner o) hunseen
      refine ⟨_, _, Function.update owner heap.fresh o, held, rfl, ?_, hheap.alloc content,
        Nat.le_succ _, fun other hother ↦ Heap.part_alloc_of_ne hheap owner hother content,
        fun _ ↦ rfl⟩
      rw [Heap.part_alloc_self]
      exact hnext
  | free pointer next =>
    cases pointer with
    | none => exact ⟨_, _, owner, held, rfl, hensures, hheap, le_rfl, fun _ _ ↦ rfl, fun _ ↦ rfl⟩
    | some a =>
      obtain ⟨⟨content, hcontent⟩, hnext⟩ := hensures
      obtain ⟨howner, hblock⟩ := hmine a content hcontent
      refine ⟨next, heap.set a none, owner, held, ?_, ?_, hheap.set (hheap.lt_fresh hblock) none,
        le_rfl, fun other hother ↦ ?_, fun _ ↦ rfl⟩
      · rw [Program.step, hblock, Option.map_some]
      · rw [Heap.part_set_self howner]
        exact hnext
      · exact Heap.part_set_of_ne (by rw [howner]; exact hother.symm) none
  | load reason pointer next =>
    cases pointer with
    | none => exact ⟨_, _, owner, held, rfl, hensures, hheap, le_rfl, fun _ _ ↦ rfl, fun _ ↦ rfl⟩
    | some a =>
      obtain ⟨content, hcontent, hnext⟩ := hensures
      have hblock : heap.blocks a = some content :=
        hcontent.elim (fun hown ↦ (hmine a content hown).2) (hview a content)
      refine ⟨next content, heap, owner, held, ?_, hnext, hheap, le_rfl, fun _ _ ↦ rfl,
        fun _ ↦ rfl⟩
      rw [Program.step, hblock, Option.map_some]
  | update reason pointer change next =>
    cases pointer with
    | none => exact ⟨_, _, owner, held, rfl, hensures, hheap, le_rfl, fun _ _ ↦ rfl, fun _ ↦ rfl⟩
    | some a =>
      obtain ⟨content, changed, hcontent, hchange, hnext⟩ := hensures
      obtain ⟨howner, hblock⟩ := hmine a content hcontent
      refine ⟨next, heap.set a (some changed), owner, held, ?_, ?_,
        hheap.set (hheap.lt_fresh hblock) _, le_rfl, fun other hother ↦ ?_, fun _ ↦ rfl⟩
      · rw [Program.step, hblock, Option.bind_some, hchange, Option.map_some]
      · rw [Heap.part_set_self howner]
        exact hnext
      · exact Heap.part_set_of_ne (by rw [howner]; exact hother.symm) _
  | acquire r next =>
    refine ⟨_, _, owner, _, rfl, hensures, hheap, le_rfl, fun _ _ ↦ rfl, fun other ↦ ?_⟩
    by_cases hr : other = r
    · simp only [hr, Heap.refs_setRefs, Function.update_self]
      omega
    · simp only [Heap.refs_setRefs, Function.update_of_ne hr]
  | release r next =>
    obtain ⟨hpos, hnext⟩ := hensures
    have hle : held r ≤ heap.refs r := hheld r
    have hposHeld : 0 < held r := hpos
    have hne : heap.refs r ≠ 0 := by omega
    refine ⟨_, _, owner, _, if_neg hne, hnext, hheap, le_rfl, fun _ _ ↦ rfl, fun other ↦ ?_⟩
    by_cases hr : other = r
    · simp only [hr, Heap.refs_setRefs, Function.update_self]
      omega
    · simp only [Heap.refs_setRefs, Function.update_of_ne hr]

/-! ### Many programs -/

variable [DecidableEq Res] [DecidableEq κ] [Fintype κ]

/-- The heap is divided among the programs. The owner of a block is a program, or none; `held` are
the references that the programs hold. -/
structure Divided (heap : Heap Block Res) (programs : κ → Option (Program Block Res Fault α))
    (view : κ → ℕ → Option Block) (post : κ → Except Fault α → Owned Block Res → Prop)
    (owner : ℕ → Option κ) (held : κ → Res → ℕ) : Prop where
  wellFormed : heap.WellFormed
  running : ∀ k program, programs k = some program →
    program.Ensures (view k) (post k) ⟨heap.part owner (some k), held k⟩
  shared : ∀ k, programs k ≠ none → ∀ a content, view k a = some content →
    heap.part owner none a = some content
  idle : ∀ k, programs k = none →
    (heap.part owner (some k) = fun _ ↦ none) ∧ held k = fun _ ↦ 0
  refs : ∀ r, heap.refs r = ∑ k, held k r

namespace Divided

variable {heap : Heap Block Res} {programs : κ → Option (Program Block Res Fault α)}
  {view : κ → ℕ → Option Block} {post : κ → Except Fault α → Owned Block Res → Prop}
  {owner : ℕ → Option κ} {held : κ → Res → ℕ}

/-- An operation of any of the programs keeps the division, and leaves the common blocks. -/
theorem step (hdivided : Divided heap programs view post owner held) {k : κ}
    {program : Program Block Res Fault α} (hk : programs k = some program)
    (hgoing : program.outcome = none) :
    ∃ rest later, program.step heap = some (rest, later) ∧ ∃ owners holdings,
      Divided later (Function.update programs k (some rest)) view post owners holdings ∧
        later.part owners none = heap.part owner none ∧ heap.fresh ≤ later.fresh := by
  have hview : ∀ a content, view k a = some content → heap.blocks a = some content :=
    fun a content ha ↦ (Heap.part_eq_some_iff.mp (hdivided.shared k (by simp [hk]) a content ha)).2
  have hheld : ∀ r, held k r ≤ heap.refs r := by
    intro r
    rw [hdivided.refs r]
    exact Finset.single_le_sum (f := fun other ↦ held other r) (fun _ _ ↦ Nat.zero_le _)
      (Finset.mem_univ k)
  obtain ⟨rest, later, owners, refs, hstep, hensures, hlater, hfresh, hothers, hrefs⟩ :=
    (hdivided.running k program hk).step hdivided.wellFormed hview hheld hgoing
  have hcommon : later.part owners none = heap.part owner none :=
    hothers none (Option.some_ne_none k).symm
  refine ⟨rest, later, hstep, owners, Function.update held k refs, ?_, hcommon, hfresh⟩
  refine ⟨hlater, fun other task hother ↦ ?_, fun other hother a content ha ↦ ?_,
    fun other hother ↦ ?_, fun r ↦ ?_⟩
  · by_cases hne : other = k
    · rw [hne, Function.update_self] at hother
      rw [hne, Function.update_self, ← Option.some.inj hother]
      exact hensures
    · rw [Function.update_of_ne hne] at hother ⊢
      rw [hothers (some other) fun heq ↦ hne (Option.some.inj heq)]
      exact hdivided.running other task hother
  · rw [hcommon]
    by_cases hne : other = k
    · exact hdivided.shared other (by rw [hne, hk]; exact Option.some_ne_none _) a content ha
    · rw [Function.update_of_ne hne] at hother
      exact hdivided.shared other hother a content ha
  · by_cases hne : other = k
    · rw [hne, Function.update_self] at hother
      cases hother
    · rw [Function.update_of_ne hne] at hother ⊢
      rw [hothers (some other) fun heq ↦ hne (Option.some.inj heq)]
      exact hdivided.idle other hother
  · -- The sums differ at `k` alone, by what the operation took or dropped.
    have hbefore := hdivided.refs r
    have hlaterRefs := hrefs r
    rw [← Finset.add_sum_erase _ _ (Finset.mem_univ k)] at hbefore ⊢
    rw [Function.update_self, Finset.sum_congr rfl fun other hother ↦ by
      rw [Function.update_of_ne (Finset.ne_of_mem_erase hother)]]
    omega

/-- A new block without an owner is common. -/
theorem alloc (hdivided : Divided heap programs view post owner held) (content : Block) :
    ∃ owners, Divided (heap.alloc content) programs view post owners held ∧
      (heap.alloc content).part owners none =
        Function.update (heap.part owner none) heap.fresh (some content) := by
  have hothers : ∀ k, (heap.alloc content).part (Function.update owner heap.fresh none) (some k) =
      heap.part owner (some k) :=
    fun k ↦ Heap.part_alloc_of_ne hdivided.wellFormed owner (Option.some_ne_none k) content
  have hcommon := Heap.part_alloc_self heap owner none content
  refine ⟨_, ⟨hdivided.wellFormed.alloc content, fun k program hk ↦ ?_, fun k hk a other ha ↦ ?_,
    fun k hk ↦ ?_, hdivided.refs⟩, hcommon⟩
  · rw [hothers]
    exact hdivided.running k program hk
  · have hbefore := hdivided.shared k hk a other ha
    have hne : a ≠ heap.fresh := by
      intro heq
      rw [heq, hdivided.wellFormed.part_fresh] at hbefore
      cases hbefore
    rw [hcommon, Function.update_of_ne hne]
    exact hbefore
  · rw [hothers]
    exact hdivided.idle k hk

/-- A program starts, and takes some of the common blocks. Assumes: nobody may read them, and with
them the program ensures what it should. -/
theorem start (hdivided : Divided heap programs view post owner held) {k : κ}
    (hk : programs k = none) (taken : Finset ℕ) {program : Program Block Res Fault α}
    {sees : ℕ → Option Block} {ensured : Except Fault α → Owned Block Res → Prop}
    (huntaken : ∀ other, programs other ≠ none → ∀ a ∈ taken, view other a = none)
    (hsees : ∀ a content, sees a = some content →
      a ∉ taken ∧ heap.part owner none a = some content)
    (hensures : program.Ensures sees ensured
      ⟨fun a ↦ if a ∈ taken then heap.part owner none a else none, fun _ ↦ 0⟩) :
    ∃ owners, Divided heap (Function.update programs k (some program))
        (Function.update view k sees) (Function.update post k ensured) owners held ∧
      heap.part owners none = fun a ↦ if a ∈ taken then none else heap.part owner none a := by
  obtain ⟨hempty, hnone⟩ := hdivided.idle k hk
  let owners : ℕ → Option κ := fun a ↦ if a ∈ taken ∧ owner a = none then some k else owner a
  have hmine : heap.part owners (some k) =
      fun a ↦ if a ∈ taken then heap.part owner none a else none := by
    funext a
    have hbefore := congrFun hempty a
    simp only [Heap.part, owners] at hbefore ⊢
    grind
  have hothers : ∀ other, other ≠ k →
      heap.part owners (some other) = heap.part owner (some other) := by
    intro other hother
    funext a
    simp only [Heap.part, owners]
    grind
  have hcommon : heap.part owners none =
      fun a ↦ if a ∈ taken then none else heap.part owner none a := by
    funext a
    simp only [Heap.part, owners]
    grind
  refine ⟨owners, ⟨hdivided.wellFormed, fun other task hother ↦ ?_, fun other hother a content ha ↦
    ?_, fun other hother ↦ ?_, hdivided.refs⟩, hcommon⟩
  · by_cases hne : other = k
    · rw [hne, Function.update_self] at hother
      rw [hne, Function.update_self, Function.update_self, hmine, hnone, ← Option.some.inj hother]
      exact hensures
    · rw [Function.update_of_ne hne] at hother
      rw [Function.update_of_ne hne, Function.update_of_ne hne, hothers other hne]
      exact hdivided.running other task hother
  · rw [hcommon]
    by_cases hne : other = k
    · rw [hne, Function.update_self] at ha
      obtain ⟨hnot, hcontent⟩ := hsees a content ha
      simp only [if_neg hnot, hcontent]
    · rw [Function.update_of_ne hne] at ha hother
      have hnot : a ∉ taken := by
        intro hmem
        rw [huntaken other hother a hmem] at ha
        cases ha
      simp only [if_neg hnot, hdivided.shared other hother a content ha]
  · by_cases hne : other = k
    · rw [hne, Function.update_self] at hother
      cases hother
    · rw [Function.update_of_ne hne] at hother
      rw [hothers other hne]
      exact hdivided.idle other hother

/-- A program that holds no references stops, and its blocks become common. -/
theorem stop (hdivided : Divided heap programs view post owner held) {k : κ}
    (hheld : held k = fun _ ↦ 0) :
    ∃ owners, Divided heap (Function.update programs k none) view post owners held ∧
      heap.part owners none =
        fun a ↦ (heap.part owner none a).or (heap.part owner (some k) a) := by
  let owners : ℕ → Option κ := fun a ↦ if owner a = some k then none else owner a
  have hmine : heap.part owners (some k) = fun _ ↦ none := by
    funext a
    simp only [Heap.part, owners]
    grind
  have hothers : ∀ other, other ≠ k →
      heap.part owners (some other) = heap.part owner (some other) := by
    intro other hother
    funext a
    simp only [Heap.part, owners]
    grind
  have hcommon : heap.part owners none =
      fun a ↦ (heap.part owner none a).or (heap.part owner (some k) a) := by
    funext a
    simp only [Heap.part, owners]
    grind
  refine ⟨owners, ⟨hdivided.wellFormed, fun other task hother ↦ ?_, fun other hother a content ha ↦
    ?_, fun other hother ↦ ?_, hdivided.refs⟩, hcommon⟩
  · have hne : other ≠ k := by
      intro heq
      rw [heq, Function.update_self] at hother
      cases hother
    rw [Function.update_of_ne hne] at hother
    rw [hothers other hne]
    exact hdivided.running other task hother
  · have hne : other ≠ k := by
      intro heq
      rw [heq, Function.update_self] at hother
      exact hother rfl
    rw [Function.update_of_ne hne] at hother
    rw [hcommon]
    simp only [hdivided.shared other hother a content ha, Option.some_or]
  · by_cases hne : other = k
    · rw [hne]
      exact ⟨hmine, hheld⟩
    · rw [Function.update_of_ne hne] at hother
      rw [hothers other hne]
      exact hdivided.idle other hother

end Divided

end KernelModules.Foundation
