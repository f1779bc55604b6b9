import KernelModules.Foundation.CommandText

/-!
# Texts with delimiters

When the texts of two fields do not have the delimiter behind them, what they are followed by tells
where they end (`append_cons_eq_iff`). So a text of fields and delimiters determines its fields, and
a text of lines determines the lines (`flatMap_lines_eq_iff`), also with something else behind them
that no line begins.

A number is a field: its text determines it, and holds nothing but digits and a sign.
-/

set_option autoImplicit false
set_option relaxedAutoImplicit false

namespace KernelModules.Foundation

variable {α β : Type*}

/-! ### Fields and lines -/

/-- Fields that end at their first delimiter. Assumes: no delimiter in the fields. -/
theorem append_cons_eq_iff {delimiter : β} {field other rest later : List β}
    (hfield : delimiter ∉ field) (hother : delimiter ∉ other) :
    field ++ delimiter :: rest = other ++ delimiter :: later ↔ field = other ∧ rest = later := by
  refine ⟨fun heq ↦ ?_, fun ⟨hfields, hrests⟩ ↦ by rw [hfields, hrests]⟩
  induction field generalizing other with
  | nil =>
    cases other with
    | nil => exact ⟨rfl, List.tail_eq_of_cons_eq heq⟩
    | cons c other =>
      obtain ⟨rfl, -⟩ := List.cons.inj heq
      exact absurd List.mem_cons_self hother
  | cons c field ih =>
    cases other with
    | nil =>
      obtain ⟨rfl, -⟩ := List.cons.inj heq
      exact absurd List.mem_cons_self hfield
    | cons d other =>
      obtain ⟨rfl, htail⟩ := List.cons.inj heq
      obtain ⟨rfl, hrest⟩ := ih (fun hmem ↦ hfield (List.mem_cons_of_mem _ hmem))
        (fun hmem ↦ hother (List.mem_cons_of_mem _ hmem)) htail
      exact ⟨rfl, hrest⟩

/-- The first of some lines and what is behind it. -/
theorem flatMap_lines_cons (line : α → List β) (delimiter : β) (entry : α) (entries : List α)
    (rest : List β) :
    ((entry :: entries).flatMap fun entry ↦ line entry ++ [delimiter]) ++ rest =
      line entry ++ delimiter ::
        ((entries.flatMap fun entry ↦ line entry ++ [delimiter]) ++ rest) := by
  rw [List.flatMap_cons, List.append_assoc, List.append_assoc, List.singleton_append]

/-- Lines, with something behind them that no line begins. Assumes: no delimiter within a line. -/
theorem flatMap_lines_eq_iff {line : α → List β} {delimiter : β}
    (hline : ∀ entry, delimiter ∉ line entry) {rest later : List β}
    (hrest : ∀ entry behind, rest ≠ line entry ++ delimiter :: behind)
    (hlater : ∀ entry behind, later ≠ line entry ++ delimiter :: behind)
    (entries others : List α) :
    (entries.flatMap fun entry ↦ line entry ++ [delimiter]) ++ rest =
        (others.flatMap fun entry ↦ line entry ++ [delimiter]) ++ later ↔
      entries.map line = others.map line ∧ rest = later := by
  induction entries generalizing others with
  | nil =>
    cases others with
    | nil => simp
    | cons other others =>
      rw [flatMap_lines_cons]
      exact iff_of_false (hrest other _) fun hmaps ↦ List.cons_ne_nil _ _ hmaps.1.symm
  | cons entry entries ih =>
    cases others with
    | nil =>
      rw [flatMap_lines_cons]
      exact iff_of_false (hlater entry _).symm fun hmaps ↦ List.cons_ne_nil _ _ hmaps.1
    | cons other others =>
      rw [flatMap_lines_cons, flatMap_lines_cons,
        append_cons_eq_iff (hline entry) (hline other), ih, List.map_cons, List.map_cons,
        List.cons.injEq, and_assoc]

/-- Texts that tell what is shown of an entry tell it of all entries. -/
theorem map_eq_iff_of_eq_iff {γ : Type*} {text : α → β} {shown : α → γ}
    (hshown : ∀ entry other, text entry = text other ↔ shown entry = shown other)
    (entries others : List α) :
    entries.map text = others.map text ↔ entries.map shown = others.map shown := by
  induction entries generalizing others with
  | nil => simp
  | cons entry entries ih =>
    cases others with
    | nil => simp
    | cons other others =>
      rw [List.map_cons, List.map_cons, List.map_cons, List.map_cons, List.cons.injEq,
        List.cons.injEq, hshown, ih]

/-! ### Numbers -/

/-- A number is determined by its text. -/
theorem decimal_eq_iff {value other : ℕ} : decimal value = decimal other ↔ value = other := by
  refine ⟨fun heq ↦ ?_, fun heq ↦ by rw [heq]⟩
  rw [← digitsValue_decimal value, heq, digitsValue_decimal]

end KernelModules.Foundation
