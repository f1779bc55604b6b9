import KernelModules.Foundation.CString

/-!
# Texts printed one after another

A loop of `sprintf` calls, each at the end of what the calls before it have written. The end is an
`int`, which grows by what `sprintf` returns, and no call knows how long the buffer is. Memory is
addressed from the start of the buffer on, and backwards from there for an end that has wrapped.

Texts of less than 2^31 bytes in all lie behind each other at the start of the buffer
(`bytes_sprintfAll`), and the calls store one byte more than these (`within_sprintfAll_iff`). The
end of longer texts wraps, and what is stored after that is outside the buffer
(`lt_or_neg_of_start_nonneg`).
-/

set_option autoImplicit false
set_option relaxedAutoImplicit false

namespace KernelModules.Foundation

/-! ### The loop -/

/-- A store of some bytes in a row: the first address and the number of the bytes. -/
structure Extent where
  start : ℤ
  size : ℕ
  deriving DecidableEq

/-- The bytes are in a buffer of `room` bytes. -/
def Extent.Within (extent : Extent) (room : ℕ) : Prop :=
  0 ≤ extent.start ∧ extent.start + extent.size ≤ room

/-- The memory, the end of what is printed, and the stores so far, oldest first. -/
structure Printed where
  mem : ℤ → UInt8
  copied : Int32
  stores : List Extent

namespace Printed

/-- `copied += sprintf(buf + copied, ..)`, which stores the text and a NUL. -/
def sprintf (p : Printed) (text : Text) : Printed where
  mem address :=
    if p.copied.toInt ≤ address then
      ((text ++ [0])[(address - p.copied.toInt).toNat]?).getD (p.mem address)
    else p.mem address
  copied := p.copied + Int32.ofNat text.length
  stores := p.stores ++ [⟨p.copied.toInt, text.length + 1⟩]

/-- The loop over the texts. -/
def sprintfAll (p : Printed) (texts : List Text) : Printed := texts.foldl sprintf p

/-- The bytes from the start of the buffer on. -/
def bytes (p : Printed) (size : ℕ) : Text := (List.range size).map fun offset : ℕ ↦ p.mem offset

@[simp] theorem length_bytes (p : Printed) (size : ℕ) : (p.bytes size).length = size := by
  rw [bytes, List.length_map, List.length_range]

/-! ### Texts that do not wrap -/

section NoWrap

variable {p : Printed} {k : ℕ}

/-- The end moves on by the length of the text. -/
theorem toInt_copied_sprintf (hk : p.copied.toInt = k) {text : Text}
    (hlt : k + text.length < 2 ^ 31) : (p.sprintf text).copied.toInt = (k + text.length : ℕ) := by
  have hlength : (Int32.ofNat text.length).toInt = text.length := Int32.toInt_ofNat_of_lt (by omega)
  rw [sprintf, Int32.toInt_add, hk, hlength, Int.bmod_def]
  split_ifs <;> omega

/-- The text is behind the bytes before the end, which are kept. -/
theorem bytes_sprintf (hk : p.copied.toInt = k) (text : Text) :
    (p.sprintf text).bytes (k + text.length) = p.bytes k ++ text := by
  rw [bytes, List.range_add, List.map_append, List.map_map]
  congr 1
  · refine List.map_congr_left fun offset hoffset ↦ ?_
    have hbefore : ¬ p.copied.toInt ≤ offset := by
      rw [List.mem_range] at hoffset
      omega
    exact if_neg hbefore
  · refine List.ext_getElem (by rw [List.length_map, List.length_range]) fun i hi htext ↦ ?_
    have hbehind : p.copied.toInt ≤ ((k + i : ℕ) : ℤ) := by omega
    have hindex : (((k + i : ℕ) : ℤ) - p.copied.toInt).toNat = i := by omega
    rw [List.getElem_map, List.getElem_range, Function.comp_apply]
    simp only [sprintf]
    rw [if_pos hbehind, hindex, List.getElem?_append_left htext, List.getElem?_eq_getElem htext,
      Option.getD_some]

/-- The loop moves the end on by the length of the texts. -/
theorem toInt_copied_sprintfAll (hk : p.copied.toInt = k) {texts : List Text}
    (hlt : k + texts.flatten.length < 2 ^ 31) :
    (p.sprintfAll texts).copied.toInt = (k + texts.flatten.length : ℕ) := by
  induction texts generalizing p k with
  | nil => exact hk
  | cons text rest ih =>
    rw [List.flatten_cons, List.length_append, ← Nat.add_assoc] at hlt ⊢
    exact ih (toInt_copied_sprintf hk (by omega)) hlt

/-- The loop leaves the texts behind each other, behind the bytes before the end. -/
theorem bytes_sprintfAll (hk : p.copied.toInt = k) {texts : List Text}
    (hlt : k + texts.flatten.length < 2 ^ 31) :
    (p.sprintfAll texts).bytes (k + texts.flatten.length) = p.bytes k ++ texts.flatten := by
  induction texts generalizing p k with
  | nil => exact (List.append_nil _).symm
  | cons text rest ih =>
    rw [List.flatten_cons, List.length_append, ← Nat.add_assoc] at hlt ⊢
    have hnext : (p.sprintf text).copied.toInt = (k + text.length : ℕ) :=
      toInt_copied_sprintf hk (by omega)
    rw [← List.append_assoc, ← bytes_sprintf hk text]
    exact ih hnext hlt

end NoWrap

/-! ### The stores -/

section Stores

variable {p : Printed}

/-- The loop keeps the list of the stores before it. -/
theorem mem_stores_sprintfAll (texts : List Text) {extent : Extent} (hextent : extent ∈ p.stores) :
    extent ∈ (p.sprintfAll texts).stores := by
  induction texts generalizing p with
  | nil => exact hextent
  | cons text rest ih => exact ih (List.mem_append_left _ hextent)

/-- The stores of a call are those before it and its own. -/
theorem forall_stores_sprintf {property : Extent → Prop} (text : Text) :
    (∀ extent ∈ (p.sprintf text).stores, property extent) ↔
      (∀ extent ∈ p.stores, property extent) ∧ property ⟨p.copied.toInt, text.length + 1⟩ := by
  rw [sprintf, List.forall_mem_append, List.forall_mem_singleton]

/-- The loop stores within the buffer exactly when there is room for the texts and a NUL. Assumes:
stores within the buffer before it, and texts that do not wrap. -/
theorem within_sprintfAll_iff {k room : ℕ} (hk : p.copied.toInt = k) {texts : List Text}
    (hlt : k + texts.flatten.length < 2 ^ 31) (hbefore : ∀ extent ∈ p.stores, extent.Within room) :
    (∀ extent ∈ (p.sprintfAll texts).stores, extent.Within room) ↔
      texts = [] ∨ k + texts.flatten.length < room := by
  induction texts generalizing p k with
  | nil => exact iff_of_true hbefore (.inl rfl)
  | cons text rest ih =>
    rw [List.flatten_cons, List.length_append, ← Nat.add_assoc] at hlt ⊢
    rw [or_iff_right (List.cons_ne_nil text rest)]
    have hnext : (p.sprintf text).copied.toInt = (k + text.length : ℕ) :=
      toInt_copied_sprintf hk (by omega)
    have hself : Extent.Within ⟨p.copied.toInt, text.length + 1⟩ room ↔ k + text.length < room := by
      rw [Extent.Within, hk]
      dsimp only
      omega
    by_cases hroom : k + text.length < room
    · have hcall := (forall_stores_sprintf text).mpr ⟨hbefore, hself.mpr hroom⟩
      refine (ih hnext hlt hcall).trans ⟨?_, .inr⟩
      rintro (rfl | hrest)
      · exact hroom
      · exact hrest
    · refine iff_of_false (fun hall ↦ hroom (hself.mp ?_)) (by omega)
      have hmem : (⟨p.copied.toInt, text.length + 1⟩ : Extent) ∈ (p.sprintf text).stores :=
        List.mem_append_right _ (List.mem_singleton_self _)
      exact hall _ (mem_stores_sprintfAll rest hmem)

/-- Stores that all begin within the buffer or behind it are those of texts that do not wrap, or
wrap at their end. Assumes: an end that has not wrapped so far, and texts of less than 2^31 bytes
each. -/
theorem lt_or_neg_of_start_nonneg {k : ℕ} (hk : p.copied.toInt = k) {texts : List Text}
    (hshort : ∀ text ∈ texts, text.length < 2 ^ 31)
    (hstart : ∀ extent ∈ (p.sprintfAll texts).stores, 0 ≤ extent.start) :
    k + texts.flatten.length < 2 ^ 31 ∨
      (p.sprintfAll texts).copied.toInt < 0 ∧ k + texts.flatten.length < 2 ^ 32 := by
  induction texts generalizing p k with
  | nil =>
    have hend := p.copied.toInt_lt
    exact .inl (by simpa using by omega)
  | cons text rest ih =>
    obtain ⟨hlength, hothers⟩ := List.forall_mem_cons.mp hshort
    rw [List.flatten_cons, List.length_append, ← Nat.add_assoc]
    by_cases hlt : k + text.length < 2 ^ 31
    · exact ih (toInt_copied_sprintf hk hlt) hothers hstart
    · -- the end wraps, and the next text would be stored before the buffer
      have hend := p.copied.toInt_lt
      have hint : (Int32.ofNat text.length).toInt = text.length := Int32.toInt_ofNat_of_lt hlength
      have hneg : (p.sprintf text).copied.toInt < 0 := by
        rw [sprintf, Int32.toInt_add, hk, hint, Int.bmod_def]
        split_ifs <;> omega
      cases rest with
      | nil => exact .inr ⟨hneg, by simpa using by omega⟩
      | cons later others =>
        have hmem : (⟨(p.sprintf text).copied.toInt, later.length + 1⟩ : Extent) ∈
            (((p.sprintf text).sprintf later).sprintfAll others).stores :=
          mem_stores_sprintfAll others (List.mem_append_right _ (List.mem_singleton_self _))
        exact absurd (hstart _ hmem) (Int.not_le.mpr hneg)

end Stores

end Printed

end KernelModules.Foundation
