import KernelModules.Foundation.DecimalText

/-!
# Commands of separated fields

How a kernel module takes a command apart: `strsep` cuts the next field off a string in place, and
`sscanf` converts the field. A string is what stands in memory up to the first NUL (`cString`). The
pointer that `strsep` moves is NULL after the last field, and reading a field then has no result.

The fields that a pointer still has before it are those of `List.splitOn` (`fieldsLeft`), so that a
parser is read off the list of fields (`scanField_of_cons`). `fields_append` says how bytes behind a
text change its fields: they continue the last one.
-/

set_option autoImplicit false
set_option relaxedAutoImplicit false

namespace KernelModules.Foundation

/-! ### Strings and fields -/

/-- The byte of a character literal. -/
def byte (c : Char) : UInt8 := c.toNat.toUInt8

/-- The string at the start of a memory. -/
def cString (mem : Text) : Text := mem.takeWhile (· ≠ 0)

/-- `strsep(&buf, sep)`: the field, and the pointer after it. -/
def strsep (sep : UInt8) (buf : Option Text) : Option (Text × Option Text) :=
  buf.map fun s ↦ (s.takeWhile (· ≠ sep), (s.dropWhile (· ≠ sep)).tail?)

/-- The fields that a pointer still has before it. -/
def fieldsLeft (sep : UInt8) (buf : Option Text) : List Text := buf.elim [] (List.splitOn sep)

/-- `sscanf(strsep(&buf, sep), format, &local)`: the local variable and the pointer after it. The
variable keeps its value when the conversion fails. There is no result when `strsep` returns
NULL. -/
def scanField {α : Type*} (sep : UInt8) (convert : Text → Option α) (old : α) (buf : Option Text) :
    Option (α × Option Text) :=
  (strsep sep buf).map fun cut ↦ ((convert cut.1).getD old, cut.2)

/-! ### Conversions -/

/-- The digits that `%u` and `%llu` read: the longest run after white space. -/
def numberDigits (field : Text) : Text := (field.dropWhile isSpace).takeWhile isDigit

/-- What follows the digits. -/
def numberTail (field : Text) : Text := (field.dropWhile isSpace).dropWhile isDigit

/-- The number in a field, if there is a digit. -/
def scanNumber (field : Text) : Option ℕ :=
  if numberDigits field = [] then none else some (digitsValue (numberDigits field))

/-- The conversion `%c`. -/
def scanChar (field : Text) : Option UInt8 := field.head?

/-- The conversion `%u`. -/
def scanU32 (field : Text) : Option UInt32 := (scanNumber field).map UInt32.ofNat

/-- The conversion `%llu`. -/
def scanU64 (field : Text) : Option UInt64 := (scanNumber field).map UInt64.ofNat

/-- A field is a decimal number, with white space around it. -/
def IsDecimal (field : Text) : Prop :=
  numberDigits field ≠ [] ∧ ∀ c ∈ numberTail field, isSpace c = true

instance (field : Text) : Decidable (IsDecimal field) := inferInstanceAs (Decidable (_ ∧ _))

/-- A decimal field has a number. -/
theorem exists_scanNumber {field : Text} (hfield : IsDecimal field) :
    ∃ n, scanNumber field = some n := by
  rw [scanNumber, if_neg hfield.1]
  exact ⟨_, rfl⟩

/-! ### Cutting fields off -/

section Fields

variable {sep : UInt8}

/-- The first field has no separator. -/
theorem sep_notMem_first (sep : UInt8) (s : Text) : sep ∉ s.takeWhile (· ≠ sep) := by
  intro hmem
  simpa using List.mem_takeWhile_imp hmem

/-- A text is its first field, or its first field, a separator and the rest. -/
theorem first_field_cases (sep : UInt8) (s : Text) :
    (s.dropWhile (· ≠ sep) = [] ∧ s = s.takeWhile (· ≠ sep)) ∨
      ∃ rest, s.dropWhile (· ≠ sep) = sep :: rest ∧ s = s.takeWhile (· ≠ sep) ++ sep :: rest := by
  have hcut := List.takeWhile_append_dropWhile (p := (· ≠ sep)) (l := s)
  cases hrest : s.dropWhile (· ≠ sep) with
  | nil =>
    rw [hrest, List.append_nil] at hcut
    exact .inl ⟨rfl, hcut.symm⟩
  | cons c rest =>
    have hc : c = sep := by
      have hhead := List.head?_dropWhile_not (· ≠ sep) s
      rw [hrest] at hhead
      simpa using hhead
    rw [hrest, hc] at hcut
    exact .inr ⟨rest, by rw [hc], hcut.symm⟩

/-- The fields of a text, the first one by itself. -/
theorem splitOn_eq_cons (sep : UInt8) (s : Text) :
    s.splitOn sep = s.takeWhile (· ≠ sep) :: fieldsLeft sep (s.dropWhile (· ≠ sep)).tail? := by
  have hfirst := sep_notMem_first sep s
  rcases first_field_cases sep s with ⟨hrest, hs⟩ | ⟨rest, hrest, hs⟩
  · rw [← hs] at hfirst ⊢
    rw [hrest]
    exact List.splitOn_eq_singleton hfirst
  · rw [hrest]
    conv_lhs => rw [hs]
    exact List.splitOn_append_cons_self_of_not_mem hfirst rest

/-- At the end of the string, `strsep` returns NULL. -/
theorem strsep_of_nil {buf : Option Text} (hleft : fieldsLeft sep buf = []) :
    strsep sep buf = none := by
  cases buf with
  | none => rfl
  | some s => exact absurd hleft (List.splitOn_ne_nil sep s)

/-- `strsep` cuts the next field off. -/
theorem strsep_of_cons {buf : Option Text} {field : Text} {later : List Text}
    (hleft : fieldsLeft sep buf = field :: later) :
    ∃ rest, strsep sep buf = some (field, rest) ∧ fieldsLeft sep rest = later := by
  cases buf with
  | none => cases hleft
  | some s =>
    rw [fieldsLeft, Option.elim_some, splitOn_eq_cons] at hleft
    obtain ⟨hfield, hlater⟩ := List.cons.inj hleft
    exact ⟨_, by rw [strsep, Option.map_some, hfield], hlater⟩

variable {α : Type*} (convert : Text → Option α) (old : α)

/-- Nothing is read at the end of the string. -/
theorem scanField_of_nil {buf : Option Text} (hleft : fieldsLeft sep buf = []) :
    scanField sep convert old buf = none := by
  rw [scanField, strsep_of_nil hleft, Option.map_none]

/-- The next field is converted. -/
theorem scanField_of_cons {buf : Option Text} {field : Text} {later : List Text}
    (hleft : fieldsLeft sep buf = field :: later) :
    ∃ rest, scanField sep convert old buf = some ((convert field).getD old, rest) ∧
      fieldsLeft sep rest = later := by
  obtain ⟨rest, hcut, hrest⟩ := strsep_of_cons hleft
  exact ⟨rest, by rw [scanField, hcut, Option.map_some], hrest⟩

/-- A read takes one field. -/
theorem length_of_scanField {convert : Text → Option α} {old : α} {buf rest : Option Text}
    {value : α} (hread : scanField sep convert old buf = some (value, rest)) :
    (fieldsLeft sep buf).length = (fieldsLeft sep rest).length + 1 := by
  cases hleft : fieldsLeft sep buf with
  | nil =>
    rw [scanField_of_nil _ _ hleft] at hread
    cases hread
  | cons field later =>
    obtain ⟨after, hnext, hafter⟩ := scanField_of_cons convert old hleft
    rw [hread] at hnext
    obtain ⟨-, rfl⟩ := Prod.mk.inj (Option.some.inj hnext)
    rw [hafter, List.length_cons]

/-- Two reads, of a character and of a value, read the value off the second field. -/
theorem scanField_second {γ : Type} (convert : Text → Option γ) (old : γ) (op : UInt8)
    (buf : Option Text) :
    (do
      let (_, buf) ← scanField sep scanChar op buf
      let (value, _) ← scanField sep convert old buf
      return value) =
      (fieldsLeft sep buf)[1]?.map fun field ↦ (convert field).getD old := by
  rcases hleft : fieldsLeft sep buf with _ | ⟨letter, later⟩
  · rw [scanField_of_nil _ _ hleft]
    rfl
  · obtain ⟨afterLetter, hletter, hlater⟩ :=
      scanField_of_cons scanChar op hleft
    rw [hletter]
    simp only [Option.bind_eq_bind, Option.bind_some]
    rcases later with _ | ⟨field, later⟩
    · rw [scanField_of_nil _ _ hlater]
      rfl
    · obtain ⟨afterField, hfield, -⟩ := scanField_of_cons convert old hlater
      rw [hfield]
      rfl

/-- A text of one field is that field. -/
theorem eq_of_splitOn_singleton {s field : Text} (hfields : s.splitOn sep = [field]) :
    s = field := by
  rw [splitOn_eq_cons] at hfields
  obtain ⟨hfield, hleft⟩ := List.cons.inj hfields
  rcases first_field_cases sep s with ⟨-, hs⟩ | ⟨rest, hrest, -⟩
  · exact hs.trans hfield
  · rw [hrest] at hleft
    exact absurd hleft (List.splitOn_ne_nil sep rest)

/-- A text of several fields is the first one, a separator, and a text of the others. -/
theorem exists_rest_of_splitOn {s field next : Text} {later : List Text}
    (hfields : s.splitOn sep = field :: next :: later) :
    ∃ rest, s = field ++ sep :: rest ∧ sep ∉ field ∧ rest.splitOn sep = next :: later := by
  rw [splitOn_eq_cons] at hfields
  obtain ⟨hfield, hleft⟩ := List.cons.inj hfields
  have hnot : sep ∉ field := hfield ▸ sep_notMem_first sep s
  rcases first_field_cases sep s with ⟨hrest, -⟩ | ⟨rest, hrest, hs⟩
  · rw [hrest] at hleft
    cases hleft
  · rw [hrest] at hleft
    rw [hfield] at hs
    exact ⟨rest, hs, hnot, hleft⟩

/-- Bytes behind a text continue its last field. -/
theorem splitOn_append {s last : Text} {front : List Text}
    (hfields : s.splitOn sep = front ++ [last]) (behind : Text) :
    (s ++ behind).splitOn sep = front ++ (last ++ behind).splitOn sep := by
  induction front generalizing s with
  | nil => rw [eq_of_splitOn_singleton hfields, List.nil_append]
  | cons field front ih =>
    obtain ⟨next, later, hnext⟩ := List.exists_cons_of_ne_nil
      (List.append_ne_nil_of_right_ne_nil front (List.cons_ne_nil last []))
    rw [List.cons_append, hnext] at hfields
    obtain ⟨rest, hs, hfield, hrest⟩ := exists_rest_of_splitOn hfields
    rw [hs, List.append_assoc, List.cons_append,
      List.splitOn_append_cons_self_of_not_mem hfield, ih (hrest.trans hnext.symm),
      List.cons_append]

end Fields

/-! ### Bytes behind a text -/

/-- A text with a NUL hides what stands behind it. -/
theorem cString_append_of_mem {s : Text} (hnul : (0 : UInt8) ∈ s) (behind : Text) :
    cString (s ++ behind) = cString s := by
  unfold cString
  rw [List.takeWhile_append, if_neg]
  intro hall
  have htake := (List.takeWhile_sublist (p := (· ≠ (0 : UInt8))) (l := s)).eq_of_length hall
  rw [← htake] at hnul
  simpa using List.mem_takeWhile_imp hnul

/-- A text without NUL is continued by what stands behind it. -/
theorem cString_append {s : Text} (hnul : (0 : UInt8) ∉ s) (behind : Text) :
    cString (s ++ behind) = s ++ cString behind := by
  unfold cString
  refine List.takeWhile_append_of_pos fun c hc ↦ ?_
  rw [decide_eq_true_iff]
  rintro rfl
  exact hnul hc

/-- The digits of a number that something follows do not change with what stands behind it. -/
theorem numberDigits_append {field : Text} (htail : numberTail field ≠ []) (behind : Text) :
    numberDigits (field ++ behind) = numberDigits field := by
  have hrest : field.dropWhile isSpace ≠ [] := by
    intro hnil
    rw [numberTail, hnil] at htail
    exact htail rfl
  have hspace : (field ++ behind).dropWhile isSpace = field.dropWhile isSpace ++ behind := by
    rw [List.dropWhile_append, if_neg]
    rwa [List.isEmpty_iff]
  unfold numberDigits
  rw [hspace, List.takeWhile_append, if_neg]
  intro hall
  refine htail ?_
  have htake := (List.takeWhile_sublist (p := isDigit) (l := field.dropWhile isSpace)).eq_of_length
    hall
  exact List.dropWhile_eq_nil_iff.mpr (List.takeWhile_eq_self_iff.mp htake)

/-- A digit that stands right behind a number continues it. -/
theorem numberDigits_append_digit {field : Text} (hdigits : numberDigits field ≠ [])
    (htail : numberTail field = []) {c : UInt8} (hc : isDigit c = true) :
    numberDigits (field ++ [c]) = numberDigits field ++ [c] := by
  have hrest : field.dropWhile isSpace = numberDigits field := by
    conv_lhs => rw [← List.takeWhile_append_dropWhile (p := isDigit) (l := field.dropWhile isSpace)]
    rw [show (field.dropWhile isSpace).dropWhile isDigit = [] from htail, List.append_nil]
    rfl
  have hspace : (field ++ [c]).dropWhile isSpace = numberDigits field ++ [c] := by
    rw [List.dropWhile_append, if_neg, hrest]
    rw [List.isEmpty_iff, hrest]
    exact hdigits
  rw [numberDigits, hspace]
  refine List.takeWhile_eq_self_iff.mpr fun d hd ↦ ?_
  rcases List.mem_append.mp hd with hmem | hmem
  · exact List.mem_takeWhile_imp hmem
  · rw [List.mem_singleton.mp hmem]
    exact hc

/-- The value of digits with one more digit. -/
theorem digitsValue_append (digits : Text) (c : UInt8) :
    digitsValue (digits ++ [c]) = 10 * digitsValue digits + (c.toNat - 48) := by
  rw [digitsValue, List.foldl_append]
  rfl

/-! ### Numbers that were written -/

/-- A number that was written is read back. Assumes: white space before it, and no digit after
it. -/
theorem scanNumber_decimal (value : ℕ) {blanks rest : Text}
    (hblanks : ∀ c ∈ blanks, isSpace c = true) (hrest : ∀ c ∈ rest.head?, isDigit c = false) :
    scanNumber (blanks ++ (decimal value ++ rest)) = some value := by
  have hdigits : numberDigits (blanks ++ (decimal value ++ rest)) = decimal value := by
    rw [numberDigits, List.dropWhile_append_of_pos hblanks, dropWhile_isSpace_decimal,
      takeWhile_isDigit_decimal value hrest]
  rw [scanNumber, hdigits, if_neg (decimal_ne_nil value), digitsValue_decimal]

/-- A byte that is no digit does not stand in a number. -/
theorem notMem_decimal {c : UInt8} (hc : isDigit c = false) (value : ℕ) : c ∉ decimal value := by
  intro hmem
  rw [isDigit_of_mem_decimal hmem] at hc
  cases hc

/-- A number below a power of ten has at most that many digits. -/
theorem length_decimal_le {value count : ℕ} (hcount : 0 < count) (hvalue : value < 10 ^ count) :
    (decimal value).length ≤ count := by
  rw [decimal]
  split_ifs
  · exact hcount
  · rw [List.length_reverse, List.length_map]
    exact (Nat.digits_length_le_iff (by decide) value).mpr hvalue

end KernelModules.Foundation
