import KernelModules.Foundation.CommandText

/-!
# Well-formed commands and what a reader may do with the others

A command is well formed when its first field is a letter by itself and is followed by as many
decimal numbers as the letter requires (`WellFormed`). A reader that copies a command to a buffer
without a terminator, and converts into variables without an initial value, should leave everything
alone when the command is malformed, and should depend on the bytes of the command only
(`MeetsLaw`).

`meetsLaw_oneNumber_iff` is about commands with one number: the law holds for the well-formed ones
whose number ends before the text does, and for no other. A number at the very end of the text goes
on into the bytes behind it.
-/

set_option autoImplicit false
set_option relaxedAutoImplicit false

namespace KernelModules.Foundation

/-! ### Well-formed commands -/

/-- The first field is a letter, and the other fields are the decimal numbers that it requires. -/
def WellFormed (sep : UInt8) (numbers : UInt8 → Option ℕ) (written : Text) : Prop :=
  ∃ letter fields, written.splitOn sep = [letter] :: fields ∧
    numbers letter = some fields.length ∧ ∀ field ∈ fields, IsDecimal field

/-- A byte follows the digits of the last field. -/
def LastNumberEnds (sep : UInt8) (written : Text) : Prop :=
  ∀ last ∈ (written.splitOn sep).getLast?, numberTail last ≠ []

/-- A byte of a text is the separator or stands in a field. -/
theorem mem_field_of_mem (sep : UInt8) {s : Text} {c : UInt8} (hc : c ∈ s) :
    c = sep ∨ ∃ field ∈ s.splitOn sep, c ∈ field := by
  induction s with
  | nil => cases hc
  | cons d rest ih =>
    rw [List.splitOn_cons_eq_if_modifyHead]
    obtain ⟨first, later, hfields⟩ := List.exists_cons_of_ne_nil (List.splitOn_ne_nil sep rest)
    rw [hfields] at ih ⊢
    rcases List.mem_cons.mp hc with rfl | hrest
    · by_cases hd : c = sep
      · exact .inl hd
      · refine .inr ⟨c :: first, ?_, List.mem_cons_self⟩
        simp [hd]
    · rcases ih hrest with hsep | ⟨field, hfield, hmem⟩
      · exact .inl hsep
      · refine .inr ?_
        split_ifs
        · exact ⟨field, List.mem_cons_of_mem _ hfield, hmem⟩
        · rcases List.mem_cons.mp hfield with rfl | hlater
          · exact ⟨d :: field, List.mem_cons_self, List.mem_cons_of_mem d hmem⟩
          · exact ⟨field, List.mem_cons_of_mem _ hlater, hmem⟩

/-- A field has no separator. -/
theorem sep_notMem_of_mem_splitOn {sep : UInt8} {s field : Text} (hfield : field ∈ s.splitOn sep) :
    sep ∉ field := by
  induction s generalizing field with
  | nil =>
    rw [List.mem_singleton.mp hfield]
    exact List.not_mem_nil
  | cons c rest ih =>
    rw [List.splitOn_cons_eq_if_modifyHead] at hfield
    obtain ⟨first, later, hfields⟩ := List.exists_cons_of_ne_nil (List.splitOn_ne_nil sep rest)
    rw [hfields] at ih hfield
    split_ifs at hfield with hc
    · rcases List.mem_cons.mp hfield with rfl | hmem
      · exact List.not_mem_nil
      · exact ih hmem
    · rcases List.mem_cons.mp hfield with rfl | hmem
      · rw [List.mem_cons, not_or]
        exact ⟨fun heq ↦ hc (by simp [heq]), ih List.mem_cons_self⟩
      · exact ih (List.mem_cons_of_mem first hmem)

/-- A decimal field has no NUL. -/
theorem IsDecimal.nul_notMem {field : Text} (hfield : IsDecimal field) : (0 : UInt8) ∉ field := by
  intro hnul
  rw [← List.takeWhile_append_dropWhile (p := isSpace) (l := field),
    ← List.takeWhile_append_dropWhile (p := isDigit) (l := field.dropWhile isSpace),
    List.mem_append, List.mem_append] at hnul
  rcases hnul with hnul | hnul | hnul
  · exact absurd (List.mem_takeWhile_imp hnul) (by decide)
  · exact absurd (List.mem_takeWhile_imp hnul) (by decide)
  · exact absurd (hfield.2 0 hnul) (by decide)

/-- A text of a letter and decimal fields has no NUL. -/
theorem nul_notMem_of_fields {sep letter : UInt8} (hsep : sep ≠ 0) (hletter : letter ≠ 0)
    {written : Text} {fields : List Text} (hfields : written.splitOn sep = [letter] :: fields)
    (hdecimal : ∀ field ∈ fields, IsDecimal field) : (0 : UInt8) ∉ written := by
  intro hnul
  rcases mem_field_of_mem sep hnul with hzero | ⟨field, hfield, hmem⟩
  · exact hsep hzero.symm
  · rw [hfields] at hfield
    rcases List.mem_cons.mp hfield with rfl | hlater
    · exact hletter (List.mem_singleton.mp hmem).symm
    · exact (hdecimal field hlater).nul_notMem hmem

/-- A text without NUL is the string it starts with. -/
theorem cString_eq_self {s : Text} (hnul : (0 : UInt8) ∉ s) : cString s = s := by
  have happend := cString_append hnul []
  rwa [List.append_nil, show cString [] = [] from rfl, List.append_nil] at happend

/-! ### Fields with bytes behind them -/

section Behind

variable {sep : UInt8} {written : Text}

/-- The fields before the last one do not change with the bytes behind a text. -/
theorem fields_behind (front : List Text) {later : List Text} {next : Text}
    (hfields : (cString written).splitOn sep = front ++ next :: later) (behind : Text) :
    ∃ next' later', (cString (written ++ behind)).splitOn sep = front ++ next' :: later' := by
  by_cases hnul : (0 : UInt8) ∈ written
  · exact ⟨next, later, by rw [cString_append_of_mem hnul, hfields]⟩
  · rw [cString_eq_self hnul] at hfields
    rw [cString_append hnul]
    obtain ⟨middle, last, hlast⟩ := List.eq_nil_or_concat (next :: later) |>.resolve_left
      (List.cons_ne_nil next later)
    rw [hlast, List.concat_eq_append, ← List.append_assoc] at hfields
    rw [splitOn_append hfields, List.append_assoc]
    have hne : middle ++ (last ++ cString behind).splitOn sep ≠ [] :=
      List.append_ne_nil_of_right_ne_nil middle (List.splitOn_ne_nil sep _)
    obtain ⟨next', later', hnext⟩ := List.exists_cons_of_ne_nil hne
    exact ⟨next', later', by rw [hnext]⟩

variable (front : List Text) {last : Text}

/-- A number that ends before the text does is the same with any bytes behind it. -/
theorem scanNumber_behind (hnul : (0 : UInt8) ∉ written)
    (hfields : written.splitOn sep = front ++ [last]) (hends : numberTail last ≠ [])
    (behind : Text) :
    ∃ last' later, (cString (written ++ behind)).splitOn sep = front ++ last' :: later ∧
      scanNumber last' = scanNumber last := by
  have hsep : sep ∉ last := sep_notMem_of_mem_splitOn (by rw [hfields]; simp)
  have hfirst : (last ++ cString behind).takeWhile (· ≠ sep) =
      last ++ (cString behind).takeWhile (· ≠ sep) := by
    refine List.takeWhile_append_of_pos fun c hc ↦ ?_
    rw [decide_eq_true_iff]
    rintro rfl
    exact hsep hc
  rw [cString_append hnul, splitOn_append hfields, splitOn_eq_cons, hfirst]
  exact ⟨_, _, rfl, by rw [scanNumber, scanNumber, numberDigits_append hends]⟩

/-- A digit behind a number at the end of the text is read as a digit of the number. -/
theorem scanNumber_digit_behind (hnul : (0 : UInt8) ∉ written)
    (hfields : written.splitOn sep = front ++ [last]) (hdigits : numberDigits last ≠ [])
    (hopen : numberTail last = []) {c : UInt8} (hc : isDigit c = true) (hsep : c ≠ sep)
    (hzero : c ≠ 0) :
    (cString (written ++ [c])).splitOn sep = front ++ [last ++ [c]] ∧
      scanNumber (last ++ [c]) = some (10 * digitsValue (numberDigits last) + (c.toNat - 48)) := by
  constructor
  · have hbehind : cString [c] = [c] := cString_eq_self (by simpa using hzero.symm)
    have hnot : sep ∉ last ++ [c] := by
      rw [List.mem_append, not_or]
      exact ⟨sep_notMem_of_mem_splitOn (by rw [hfields]; simp), by simpa using hsep.symm⟩
    rw [cString_append hnul, hbehind, splitOn_append hfields, List.splitOn_eq_singleton hnot]
  · rw [scanNumber, numberDigits_append_digit hdigits hopen hc, digitsValue_append, if_neg]
    simp

end Behind

/-! ### The law -/

section Law

variable {β σ ρ : Type*}

/-- What a write of a command with bytes behind its buffer and old values in the variables should
be: without an effect when the command is malformed, and fixed by the bytes of the command. -/
structure MeetsLaw (wellFormed : Text → Prop) (inert : σ → ρ → Prop)
    (write : Text → Text → β → σ → ρ) (written : Text) : Prop where
  rejects : ¬ wellFormed written → ∀ behind locals s, inert s (write written behind locals s)
  fixed : ∀ behind behind' locals locals' s,
    write written behind locals s = write written behind' locals' s

/-- A write that does nothing, whatever stands behind the bytes, meets the law. -/
theorem MeetsLaw.of_const {wellFormed : Text → Prop} {inert : σ → ρ → Prop}
    {write : Text → Text → β → σ → ρ} {written : Text} (result : σ → ρ)
    (hwrite : ∀ behind locals s, write written behind locals s = result s)
    (hinert : ∀ s, inert s (result s)) : MeetsLaw wellFormed inert write written where
  rejects := by
    intro _ behind locals s
    rw [hwrite]
    exact hinert s
  fixed := by
    intro behind behind' locals locals' s
    rw [hwrite, hwrite]

/-- The letter of a well-formed command is its first byte. -/
theorem letter_eq_of_splitOn {sep letter first : UInt8} (hfirst : first ≠ sep) {rest : Text}
    {fields : List Text} (hfields : (first :: rest).splitOn sep = [letter] :: fields) :
    letter = first := by
  rw [splitOn_eq_cons, List.takeWhile_cons_of_pos (by simpa using hfirst)] at hfields
  exact (List.cons.inj (List.cons.inj hfields).1).1.symm

/-- The fields of a well-formed command whose letter is known. It has no NUL. -/
theorem WellFormed.exists_fields {sep letter : UInt8} (hsep : sep ≠ 0) (hletter : letter ≠ 0)
    (hletterSep : letter ≠ sep) {numbers : UInt8 → Option ℕ} {count : ℕ}
    (hnumbers : numbers letter = some count) {rest : Text}
    (hwell : WellFormed sep numbers (letter :: rest)) :
    ∃ fields, (letter :: rest).splitOn sep = [letter] :: fields ∧ fields.length = count ∧
      (∀ field ∈ fields, IsDecimal field) ∧ (0 : UInt8) ∉ letter :: rest := by
  obtain ⟨letter', fields, hfields, hlength, hdecimal⟩ := hwell
  cases letter_eq_of_splitOn hletterSep hfields
  rw [hnumbers] at hlength
  exact ⟨fields, hfields, (Option.some.inj hlength).symm, hdecimal,
    nul_notMem_of_fields hsep hletter hfields hdecimal⟩

/-- Commands with one number. Assumes: a write that reads the number off the second field, with an
old value where the field has none; an effect of a missing field, and of every number in some state;
and effects that differ, in some state, for two numbers that differ in their last digit. The law
holds exactly for the well-formed commands whose number ends before the text does. -/
theorem meetsLaw_oneNumber_iff {α : Type*} {sep : UInt8} (hsep : sep ≠ 0)
    (hsepDigit : isDigit sep = false) {numbers : UInt8 → Option ℕ} {letter : UInt8}
    (hletter : letter ≠ 0) (hletterSep : letter ≠ sep) (hnumbers : numbers letter = some 1)
    (old : β → α) {conv : ℕ → α} {inert : σ → ρ → Prop} {write : Text → Text → β → σ → ρ}
    (result : Option α → σ → ρ) {rest : Text} (start : β)
    (hwrite : ∀ behind locals s, write (letter :: rest) behind locals s =
      result (((cString (letter :: rest ++ behind)).splitOn sep)[1]?.map fun field ↦
        ((scanNumber field).map conv).getD (old locals)) s)
    (hnone : ∃ s, ¬ inert s (result none s))
    (hsome : ∀ value, ∃ s, ¬ inert s (result (some value) s))
    (hdiffer : ∀ n, ∃ s, result (some (conv (10 * n))) s ≠ result (some (conv (10 * n + 1))) s) :
    MeetsLaw (WellFormed sep numbers) inert write (letter :: rest) ↔
      WellFormed sep numbers (letter :: rest) ∧ LastNumberEnds sep (letter :: rest) := by
  constructor
  · intro hlaw
    have hwell : WellFormed sep numbers (letter :: rest) := by
      by_contra hmalformed
      have hinert := hlaw.rejects hmalformed [] start
      simp only [hwrite] at hinert
      cases hread : ((cString (letter :: rest ++ [])).splitOn sep)[1]?.map fun field ↦
          ((scanNumber field).map conv).getD (old start) with
      | none =>
        obtain ⟨s, hs⟩ := hnone
        exact hs (hread ▸ hinert s)
      | some value =>
        obtain ⟨s, hs⟩ := hsome value
        exact hs (hread ▸ hinert s)
    refine ⟨hwell, ?_⟩
    obtain ⟨fields, hfields, hlength, hdecimal, hnul⟩ :=
      hwell.exists_fields hsep hletter hletterSep hnumbers
    obtain ⟨field, rfl⟩ := List.length_eq_one_iff.mp hlength
    intro last hlast hopen
    rw [hfields] at hlast
    cases hlast
    have hdigit : ∀ c, isDigit c = true → (cString (letter :: rest ++ [c])).splitOn sep =
        [[letter]] ++ [field ++ [c]] ∧ scanNumber (field ++ [c]) =
          some (10 * digitsValue (numberDigits field) + (c.toNat - 48)) := by
      intro c hc
      have hnumber := (hdecimal field List.mem_cons_self).1
      refine scanNumber_digit_behind [[letter]] hnul hfields hnumber hopen hc ?_ ?_
      · rintro rfl
        rw [hc] at hsepDigit
        cases hsepDigit
      · rintro rfl
        exact absurd hc (by decide)
    obtain ⟨s, hs⟩ := hdiffer (digitsValue (numberDigits field))
    have hsame := hlaw.fixed [48] [49] start start s
    rw [hwrite, hwrite, (hdigit 48 (by decide)).1, (hdigit 49 (by decide)).1] at hsame
    simp only [List.cons_append, List.nil_append, List.getElem?_cons_succ,
      List.getElem?_cons_zero, Option.map_some, (hdigit 48 (by decide)).2,
      (hdigit 49 (by decide)).2, Option.getD_some] at hsame
    exact hs hsame
  · rintro ⟨hwell, hends⟩
    refine ⟨fun hmalformed ↦ absurd hwell hmalformed, ?_⟩
    obtain ⟨fields, hfields, hlength, hdecimal, hnul⟩ :=
      hwell.exists_fields hsep hletter hletterSep hnumbers
    obtain ⟨field, rfl⟩ := List.length_eq_one_iff.mp hlength
    have htail : numberTail field ≠ [] := hends field (by rw [hfields]; rfl)
    obtain ⟨n, hn⟩ := exists_scanNumber (hdecimal field List.mem_cons_self)
    have hread : ∀ behind locals s, write (letter :: rest) behind locals s =
        result (some (conv n)) s := by
      intro behind locals s
      obtain ⟨field', later, hbehind, hnumber⟩ := scanNumber_behind [[letter]] hnul hfields htail
        behind
      rw [hwrite, hbehind]
      simp only [List.cons_append, List.nil_append, List.getElem?_cons_succ,
        List.getElem?_cons_zero, Option.map_some, hnumber, hn, Option.getD_some]
    intro behind behind' locals locals' s
    rw [hread, hread]

end Law

end KernelModules.Foundation
