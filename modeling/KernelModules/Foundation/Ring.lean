import Mathlib.Data.List.Basic
import Mathlib.Data.List.Induction
import Mathlib.Logic.Function.Basic

/-!
# Rings

A writer that goes round a fixed number of slots. That the next slot is one of them is part of the
structure. After any pushes a slot holds the latest value whose number is the slot up to whole turns
(`slot_writeAll_of_latest`), or what it held at the start (`slot_writeAll_of_none`).
-/

set_option autoImplicit false
set_option relaxedAutoImplicit false

namespace KernelModules.Foundation

variable {α : Type*} {capacity : ℕ}

/-- The slots of a ring, and the slot that is written next. -/
structure Ring (α : Type*) (capacity : ℕ) where
  slot : ℕ → α
  next : ℕ
  next_lt : next < capacity

/-- The number of the latest push into a slot, of the first `pushes` ones. -/
structure LatestPush (capacity pushes slot number : ℕ) : Prop where
  lt : number < pushes
  mod_eq : number % capacity = slot
  le : ∀ other < pushes, other % capacity = slot → other ≤ number

namespace Ring

/-- The slot after another: 0 at the end. -/
def after (capacity next : ℕ) : ℕ := if capacity ≤ next + 1 then 0 else next + 1

/-- The slots of a ring follow each other up to whole turns. -/
theorem after_mod (hcapacity : 0 < capacity) (number : ℕ) :
    after capacity (number % capacity) = (number + 1) % capacity := by
  have hlt := Nat.mod_lt number hcapacity
  have hsum : (number + 1) % capacity = (number % capacity + 1) % capacity :=
    (Nat.mod_add_mod number capacity 1).symm
  unfold after
  rw [hsum]
  split_ifs with hend
  · have hlast : number % capacity + 1 = capacity := by omega
    rw [hlast, Nat.mod_self]
  · exact (Nat.mod_eq_of_lt (Nat.not_le.mp hend)).symm

/-- An empty ring, with a value in every slot. -/
def start (hcapacity : 0 < capacity) (value : α) : Ring α capacity where
  slot := fun _ ↦ value
  next := 0
  next_lt := hcapacity

/-- Writes the next slot. -/
def write (ring : Ring α capacity) (value : α) : Ring α capacity where
  slot := Function.update ring.slot ring.next value
  next := after capacity ring.next
  next_lt := by
    have hlt := ring.next_lt
    unfold after
    split_ifs <;> omega

/-- A write moves on to the slot after the next. -/
theorem next_write (ring : Ring α capacity) (value : α) :
    (ring.write value).next = after capacity ring.next := rfl

/-- A write fills the next slot. -/
theorem slot_write_self (ring : Ring α capacity) (value : α) :
    (ring.write value).slot ring.next = value := Function.update_self ..

/-- A write changes no other slot. -/
theorem slot_write_of_ne (ring : Ring α capacity) (value : α) {slot : ℕ}
    (hslot : slot ≠ ring.next) :
    (ring.write value).slot slot = ring.slot slot := Function.update_of_ne hslot ..

/-- Writes values one after another. -/
def writeAll (ring : Ring α capacity) (values : List α) : Ring α capacity :=
  values.foldl write ring

/-- One more value is written last. -/
theorem writeAll_concat (ring : Ring α capacity) (values : List α) (value : α) :
    ring.writeAll (values ++ [value]) = (ring.writeAll values).write value := by
  rw [writeAll, List.foldl_append]
  rfl

section Start

variable (hcapacity : 0 < capacity) (value : α)

/-- The next slot is the number of values up to whole turns. -/
theorem next_writeAll (values : List α) :
    ((start hcapacity value).writeAll values).next = values.length % capacity := by
  induction values using List.reverseRecOn with
  | nil => exact (Nat.zero_mod capacity).symm
  | append_singleton values last ih =>
    rw [writeAll_concat, next_write, ih, List.length_append, List.length_singleton]
    exact after_mod hcapacity values.length

/-- A slot holds the value of its latest push. -/
theorem slot_writeAll_of_latest {values : List α} {slot number : ℕ}
    (hlatest : LatestPush capacity values.length slot number) :
    values[number]? = some (((start hcapacity value).writeAll values).slot slot) := by
  induction values using List.reverseRecOn generalizing number with
  | nil => exact absurd hlatest.lt (Nat.not_lt_zero number)
  | append_singleton values last ih =>
    obtain ⟨hlt, hmod, hle⟩ := hlatest
    rw [List.length_append, List.length_singleton] at hlt hle
    have hnext := next_writeAll hcapacity value values
    rw [writeAll_concat]
    by_cases hslot : slot = values.length % capacity
    · -- the last push went to the slot
      have hlast : number = values.length := by
        have hge := hle values.length (Nat.lt_succ_self _) hslot.symm
        omega
      rw [hlast, List.getElem?_concat_length, hslot, ← hnext, slot_write_self]
    · have hne : number ≠ values.length := by
        rintro rfl
        exact hslot hmod.symm
      have hold : number < values.length := by omega
      rw [List.getElem?_append_left hold, slot_write_of_ne _ _ (hnext ▸ hslot)]
      exact ih ⟨hold, hmod, fun other hother ↦ hle other (Nat.lt_succ_of_lt hother)⟩

/-- A slot that no push went to is as at the start. -/
theorem slot_writeAll_of_none {values : List α} {slot : ℕ}
    (hnone : ∀ number < values.length, number % capacity ≠ slot) :
    ((start hcapacity value).writeAll values).slot slot = value := by
  induction values using List.reverseRecOn with
  | nil => rfl
  | append_singleton values last ih =>
    rw [List.length_append, List.length_singleton] at hnone
    have hnext := next_writeAll hcapacity value values
    have hslot : slot ≠ values.length % capacity := (hnone values.length (Nat.lt_succ_self _)).symm
    rw [writeAll_concat, slot_write_of_ne _ _ (hnext ▸ hslot)]
    exact ih fun number hnumber ↦ hnone number (Nat.lt_succ_of_lt hnumber)

end Start

end Ring

end KernelModules.Foundation
