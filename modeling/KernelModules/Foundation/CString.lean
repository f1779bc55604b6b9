import Mathlib

/-!
# C strings in memory

Bytes of a buffer by their offset, and the functions of the C library that compare them with a
string literal. A text is a list of bytes without its terminator. `Memory.Holds` says that a buffer
holds a text and a NUL after it, `Memory.Starts` that it begins with the bytes of the text.

`strcmp_eq_zero_iff` and `strncmp_eq_zero_iff` say what a comparison with 0 decides: a whole string
in the first case, only the first bytes in the second. A text stored without a terminator is a
string exactly when the byte that was there before is NUL (`holds_store_iff`).
-/

set_option autoImplicit false
set_option relaxedAutoImplicit false

namespace KernelModules.Foundation

/-! ### Texts and memory -/

/-- The bytes of a string, without the terminator. -/
abbrev Text := List UInt8

/-- The bytes of a string literal. -/
def bytes (literal : String) : Text := literal.toList.map fun c ↦ c.toNat.toUInt8

/-- The bytes of a buffer by their offset. -/
abbrev Memory := ℕ → UInt8

namespace Memory

/-- The memory from the next byte on. -/
def tail (mem : Memory) : Memory := fun offset ↦ mem (offset + 1)

/-- The memory begins with the text. -/
def Starts : Memory → Text → Prop
  | _, [] => True
  | mem, c :: rest => mem 0 = c ∧ Starts mem.tail rest

/-- The memory begins with the text and a NUL. -/
def Holds : Memory → Text → Prop
  | mem, [] => mem 0 = 0
  | mem, c :: rest => mem 0 = c ∧ Holds mem.tail rest

/-- The memory after the text is written to its start. -/
def store : Memory → Text → Memory
  | mem, [] => mem
  | mem, c :: rest => fun offset ↦ if offset = 0 then c else store mem.tail rest (offset - 1)

/-- The memory from an offset on. -/
def drop (mem : Memory) (n : ℕ) : Memory := fun offset ↦ mem (n + offset)

/-- The memory after the text is written at an offset. -/
def place (mem : Memory) (n : ℕ) (text : Text) : Memory :=
  fun offset ↦ if n ≤ offset then (mem.drop n).store text (offset - n) else mem offset

/-- A memory that begins with the text, and has only NUL after it. -/
def ofText (text : Text) : Memory := fun offset ↦ text.getD offset 0

@[simp] theorem tail_store_cons (mem : Memory) (c : UInt8) (rest : Text) :
    (mem.store (c :: rest)).tail = mem.tail.store rest := by
  funext offset
  simp [tail, store]

@[simp] theorem store_cons_zero (mem : Memory) (c : UInt8) (rest : Text) :
    mem.store (c :: rest) 0 = c := rfl

@[simp] theorem store_cons_succ (mem : Memory) (c : UInt8) (rest : Text) (offset : ℕ) :
    mem.store (c :: rest) (offset + 1) = mem.tail.store rest offset := rfl

@[simp] theorem tail_ofText_cons (c : UInt8) (rest : Text) :
    (ofText (c :: rest)).tail = ofText rest := by
  funext offset
  simp [tail, ofText]

@[simp] theorem ofText_cons_zero (c : UInt8) (rest : Text) : ofText (c :: rest) 0 = c := rfl

@[simp] theorem ofText_nil_zero : ofText [] 0 = 0 := rfl

/-- A text is held where it is laid out with NULs after it. -/
theorem holds_ofText (text : Text) : (ofText text).Holds text := by
  induction text with
  | nil => rfl
  | cons c rest ih =>
    refine ⟨ofText_cons_zero c rest, ?_⟩
    rw [tail_ofText_cons]
    exact ih

/-- A text that is laid out begins with the texts without NUL that are its initial segments. -/
theorem starts_ofText_iff {first : Text} (hfirst : (0 : UInt8) ∉ first) (text : Text) :
    (ofText text).Starts first ↔ first <+: text := by
  induction first generalizing text with
  | nil => simp [Starts]
  | cons c rest ih =>
    rw [List.mem_cons, not_or] at hfirst
    cases text with
    | nil => simpa [Starts] using fun heq : (0 : UInt8) = c ↦ absurd heq hfirst.1
    | cons d others =>
      rw [Starts, tail_ofText_cons, ofText_cons_zero, ih hfirst.2, List.cons_prefix_cons]
      exact and_congr_left fun _ ↦ eq_comm

/-- A memory holds at most one text without NUL. -/
theorem Holds.unique {mem : Memory} {first second : Text} (hfirst : mem.Holds first)
    (hsecond : mem.Holds second) (hnul : (0 : UInt8) ∉ first) (hnul' : (0 : UInt8) ∉ second) :
    first = second := by
  induction first generalizing mem second with
  | nil =>
    cases second with
    | nil => rfl
    | cons d others =>
      have hzero : (0 : UInt8) = d := hfirst.symm.trans hsecond.1
      exact absurd (List.mem_cons.mpr (Or.inl hzero)) hnul'
  | cons c rest ih =>
    rw [List.mem_cons, not_or] at hnul
    cases second with
    | nil =>
      have hzero : (0 : UInt8) = c := hsecond.symm.trans hfirst.1
      exact absurd hzero hnul.1
    | cons d others =>
      rw [List.mem_cons, not_or] at hnul'
      have hhead : c = d := hfirst.1.symm.trans hsecond.1
      rw [hhead, ih hfirst.2 hsecond.2 hnul.2 hnul'.2]

/-- A text that is stored without a terminator is held when the byte after it was NUL. -/
theorem holds_store_iff (mem : Memory) (text : Text) :
    (mem.store text).Holds text ↔ mem text.length = 0 := by
  induction text generalizing mem with
  | nil => rfl
  | cons c rest ih =>
    rw [Holds, tail_store_cons, store_cons_zero, ih]
    exact and_iff_right rfl

/-- A store leaves the bytes after the text. -/
theorem store_apply_of_le {text : Text} {offset : ℕ} (hle : text.length ≤ offset) (mem : Memory) :
    mem.store text offset = mem offset := by
  induction text generalizing mem offset with
  | nil => rfl
  | cons c rest ih =>
    cases offset with
    | zero => exact absurd hle (Nat.not_succ_le_zero _)
    | succ before =>
      rw [store_cons_succ, ih (Nat.le_of_succ_le_succ hle)]
      rfl

/-- The terminator of a text that is held is where the text ends. -/
theorem Holds.terminated {mem : Memory} {text : Text} (hholds : mem.Holds text) :
    mem text.length = 0 := by
  induction text generalizing mem with
  | nil => exact hholds
  | cons c rest ih => exact ih hholds.2

/-- What a memory holds after a text is stored at its start begins with the text, unless it ends at
a NUL of the text. -/
theorem Holds.of_store {mem : Memory} {text held : Text} (hheld : (mem.store text).Holds held) :
    text <+: held ∨ held ++ [0] <+: text := by
  induction text generalizing mem held with
  | nil => exact Or.inl List.nil_prefix
  | cons c rest ih =>
    cases held with
    | nil =>
      have hzero : c = 0 := hheld
      rw [hzero, List.nil_append, List.cons_prefix_cons]
      exact Or.inr ⟨rfl, List.nil_prefix⟩
    | cons d others =>
      obtain ⟨hhead, hrest⟩ := hheld
      rw [tail_store_cons] at hrest
      rw [store_cons_zero] at hhead
      rw [hhead, List.cons_append, List.cons_prefix_cons, List.cons_prefix_cons]
      exact (ih hrest).imp (And.intro rfl) (And.intro rfl)

/-- What a memory holds after a text without NUL is stored at its start begins with the text. -/
theorem Holds.begins_of_store {mem : Memory} {text held : Text}
    (hheld : (mem.store text).Holds held) (hnul : (0 : UInt8) ∉ text) : text <+: held := by
  refine hheld.of_store.resolve_right fun hends ↦ hnul ?_
  exact hends.subset (List.mem_append_right held (List.mem_singleton_self 0))

/-- A text that is stored with its terminator is held. -/
theorem holds_store_of_terminated {text held : Text} (hends : held ++ [0] <+: text)
    (mem : Memory) : (mem.store text).Holds held := by
  induction held generalizing text mem with
  | nil =>
    obtain ⟨rest, rfl⟩ := hends
    rfl
  | cons c others ih =>
    cases text with
    | nil => exact absurd hends (by simp)
    | cons d rest =>
      rw [List.cons_append, List.cons_prefix_cons] at hends
      refine ⟨hends.1.symm, ?_⟩
      rw [tail_store_cons]
      exact ih hends.2 mem.tail

/-- The initial segments of a text that is laid out are already there. -/
theorem ofText_store {text held : Text} (hbegins : text <+: held) :
    (ofText held).store text = ofText held := by
  induction text generalizing held with
  | nil => rfl
  | cons c rest ih =>
    cases held with
    | nil => exact absurd hbegins (by simp)
    | cons d others =>
      rw [List.cons_prefix_cons] at hbegins
      funext offset
      cases offset with
      | zero => exact hbegins.1
      | succ before =>
        rw [store_cons_succ, tail_ofText_cons, ih hbegins.2]
        rfl

/-- What is written at an offset is read from there. -/
theorem drop_place (mem : Memory) (n : ℕ) (text : Text) :
    (mem.place n text).drop n = (mem.drop n).store text := by
  funext offset
  simp [drop, place]

/-- The bytes of a text that is stored are those of the text. -/
theorem store_apply_of_lt (mem : Memory) {text : Text} {offset : ℕ} (hlt : offset < text.length) :
    mem.store text offset = text.getD offset 0 := by
  induction text generalizing mem offset with
  | nil => exact absurd hlt (Nat.not_lt_zero offset)
  | cons c rest ih =>
    cases offset with
    | zero => rfl
    | succ before =>
      rw [store_cons_succ, ih mem.tail (Nat.lt_of_succ_lt_succ hlt)]
      rfl

end Memory

/-! ### Comparisons -/

/-- `strcmp` of a buffer with a literal. -/
def strcmp : Memory → Text → ℤ
  | mem, [] => (mem 0).toNat
  | mem, c :: rest => if mem 0 = c then strcmp mem.tail rest else (mem 0).toNat - (c.toNat : ℤ)

/-- `strncmp` of a buffer with a literal: at most `n` bytes, and none after a NUL. -/
def strncmp : Memory → Text → ℕ → ℤ
  | _, _, 0 => 0
  | mem, text, n + 1 =>
    if mem 0 ≠ text.headD 0 then (mem 0).toNat - ((text.headD 0).toNat : ℤ)
    else if mem 0 = 0 then 0
    else strncmp mem.tail text.tail n

/-- Two different bytes have a difference. -/
theorem toNat_sub_toNat_ne_zero {c d : UInt8} (hne : c ≠ d) : (c.toNat : ℤ) - d.toNat ≠ 0 := by
  intro heq
  refine hne (UInt8.toNat_inj.mp ?_)
  omega

/-- A comparison of whole strings finds no difference when the buffer holds the literal. -/
theorem strcmp_eq_zero_iff (mem : Memory) (text : Text) : strcmp mem text = 0 ↔ mem.Holds text := by
  induction text generalizing mem with
  | nil =>
    rw [strcmp, Memory.Holds, Nat.cast_eq_zero, ← UInt8.toNat_inj]
    rfl
  | cons c rest ih =>
    rw [strcmp, Memory.Holds]
    split_ifs with hhead
    · rw [ih, and_iff_right hhead]
    · exact iff_of_false (toNat_sub_toNat_ne_zero hhead) fun hholds ↦ hhead hholds.1

/-- A comparison over the length of the literal finds no difference when the buffer begins with
the literal. -/
theorem strncmp_eq_zero_iff (mem : Memory) {text : Text} (hnul : (0 : UInt8) ∉ text) :
    strncmp mem text text.length = 0 ↔ mem.Starts text := by
  induction text generalizing mem with
  | nil => exact iff_of_true rfl trivial
  | cons c rest ih =>
    rw [List.mem_cons, not_or] at hnul
    rw [List.length_cons, strncmp, Memory.Starts, List.headD_cons, List.tail_cons]
    by_cases hhead : mem 0 = c
    · have hne : mem 0 ≠ 0 := fun hzero ↦ hnul.1 (hzero.symm.trans hhead)
      rw [if_neg (not_not.mpr hhead), if_neg hne, ih _ hnul.2, and_iff_right hhead]
    · rw [if_pos hhead]
      exact iff_of_false (toNat_sub_toNat_ne_zero hhead) fun hstarts ↦ hhead hstarts.1

/-- Memories that agree up to a NUL compare alike with a literal. -/
theorem strcmp_congr {first second : Memory} {n : ℕ} (hagree : ∀ i ≤ n, first i = second i)
    (hend : first n = 0) {literal : Text} (hliteral : (0 : UInt8) ∉ literal) :
    strcmp first literal = strcmp second literal := by
  induction literal generalizing first second n with
  | nil => rw [strcmp, strcmp, hagree 0 (Nat.zero_le n)]
  | cons c rest ih =>
    rw [List.mem_cons, not_or] at hliteral
    rw [strcmp, strcmp, ← hagree 0 (Nat.zero_le n)]
    split_ifs with hhead
    · cases n with
      | zero => exact absurd (hend.symm.trans hhead) hliteral.1
      | succ m => exact ih (fun i hi ↦ hagree (i + 1) (Nat.succ_le_succ hi)) hend hliteral.2
    · rfl

/-- Memories that agree up to a NUL compare alike over a number of bytes. -/
theorem strncmp_congr {first second : Memory} {n : ℕ} (hagree : ∀ i ≤ n, first i = second i)
    (hend : first n = 0) (literal : Text) (count : ℕ) :
    strncmp first literal count = strncmp second literal count := by
  induction count generalizing first second n literal with
  | zero => rfl
  | succ count ih =>
    rw [strncmp, strncmp, ← hagree 0 (Nat.zero_le n)]
    split_ifs with hhead hzero
    · rfl
    · rfl
    · cases n with
      | zero => exact absurd hend hzero
      | succ m => exact ih (fun i hi ↦ hagree (i + 1) (Nat.succ_le_succ hi)) hend literal.tail

end KernelModules.Foundation
