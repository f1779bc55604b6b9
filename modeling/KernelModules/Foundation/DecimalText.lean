import KernelModules.Foundation.CString

/-!
# Decimal numbers in texts

The conversion `%u` of the kernel, in both directions. `scanUnsigned` is `sscanf(buf, "%u", &value)`
on a buffer that need not end with a NUL: white space is skipped, and digits are read up to another
byte. `decimal` is what `sprintf` writes for a number.

Reading a number that was written, with another byte after it, gives the number
(`scanUnsigned_decimal`).
-/

set_option autoImplicit false
set_option relaxedAutoImplicit false

namespace KernelModules.Foundation

/-! ### Reading and writing -/

/-- `isspace` of the kernel. -/
def isSpace (c : UInt8) : Bool := 9 ≤ c ∧ c ≤ 13 ∨ c = 32 ∨ c = 160

/-- `isdigit`. -/
def isDigit (c : UInt8) : Bool := 48 ≤ c ∧ c ≤ 57

/-- The number that digits stand for. -/
def digitsValue (digits : Text) : ℕ := digits.foldl (fun value c ↦ 10 * value + (c.toNat - 48)) 0

/-- `sscanf(buf, "%u", &value)`. There is no result when no digit is found, which leaves the value
as it was, and when the digits go on to the end of the buffer, where the bytes behind it are read.
-/
def scanUnsigned (buf : Text) : Option UInt32 :=
  let rest := buf.dropWhile isSpace
  let digits := rest.takeWhile isDigit
  if digits = [] ∨ digits = rest then none else some (UInt32.ofNat (digitsValue digits))

/-- The digit of a number below 10. -/
def digitByte (digit : ℕ) : UInt8 := UInt8.ofNat (48 + digit)

/-- The text of `%u`. -/
def decimal (value : ℕ) : Text :=
  if value = 0 then [digitByte 0] else ((Nat.digits 10 value).map digitByte).reverse

/-! ### The round trip -/

/-- The number of a digit. -/
theorem toNat_digitByte {digit : ℕ} (hdigit : digit < 10) :
    (digitByte digit).toNat = 48 + digit := by
  rw [digitByte, UInt8.toNat_ofNat']
  exact Nat.mod_eq_of_lt (by omega)

/-- The digits of a number are digits. -/
theorem isDigit_digitByte {digit : ℕ} (hdigit : digit < 10) : isDigit (digitByte digit) = true := by
  have hnat := toNat_digitByte hdigit
  rw [isDigit, decide_eq_true_eq, UInt8.le_iff_toNat_le, UInt8.le_iff_toNat_le, hnat]
  exact ⟨Nat.le_add_right 48 digit, by change 48 + digit ≤ 57; omega⟩

/-- A byte that is a digit is no white space. -/
theorem isSpace_of_isDigit {c : UInt8} (hc : isDigit c = true) : isSpace c = false := by
  rw [isDigit, decide_eq_true_eq] at hc
  rw [isSpace, decide_eq_false_iff_not]
  rintro (⟨-, hle⟩ | rfl | rfl)
  · exact absurd (UInt8.le_trans hc.1 hle) (by decide)
  · exact absurd hc.1 (by decide)
  · exact absurd hc.2 (by decide)

/-- The text of a number is not empty. -/
theorem decimal_ne_nil (value : ℕ) : decimal value ≠ [] := by
  rw [decimal]
  split_ifs with hzero
  · exact List.cons_ne_nil _ _
  · simpa using Nat.digits_ne_nil_iff_ne_zero.mpr hzero

/-- The text of a number has only digits. -/
theorem isDigit_of_mem_decimal {value : ℕ} {c : UInt8} (hc : c ∈ decimal value) :
    isDigit c = true := by
  rw [decimal] at hc
  split_ifs at hc
  · rw [List.mem_singleton.mp hc]
    exact isDigit_digitByte (by decide)
  · obtain ⟨digit, hdigit, rfl⟩ := List.mem_map.mp (List.mem_reverse.mp hc)
    exact isDigit_digitByte (Nat.digits_lt_base (by decide) hdigit)

/-- A number is the value of its text. -/
theorem digitsValue_decimal (value : ℕ) : digitsValue (decimal value) = value := by
  have hdigits : ∀ digits : List ℕ, (∀ digit ∈ digits, digit < 10) →
      digits.foldr (fun digit value ↦ 10 * value + ((digitByte digit).toNat - 48)) 0 =
        Nat.ofDigits 10 digits := by
    intro digits hlt
    induction digits with
    | nil => rfl
    | cons digit rest ih =>
      rw [List.foldr_cons, ih fun other hother ↦ hlt other (List.mem_cons_of_mem digit hother),
        toNat_digitByte (hlt digit List.mem_cons_self), Nat.ofDigits_cons]
      omega
  rw [decimal]
  split_ifs with hzero
  · rw [hzero]
    rfl
  · rw [digitsValue, List.foldl_reverse, List.foldr_map]
    exact (hdigits _ fun _ hdigit ↦ Nat.digits_lt_base (by decide) hdigit).trans
      (Nat.ofDigits_digits 10 value)

/-- No white space is in front of a number. -/
theorem dropWhile_isSpace_decimal (value : ℕ) (rest : Text) :
    (decimal value ++ rest).dropWhile isSpace = decimal value ++ rest := by
  obtain ⟨first, others, hfirst⟩ := List.exists_cons_of_ne_nil (decimal_ne_nil value)
  have hmem : first ∈ decimal value := hfirst ▸ List.mem_cons_self
  have hdigit : isDigit first = true := isDigit_of_mem_decimal hmem
  rw [hfirst, List.cons_append, List.dropWhile_cons_of_neg]
  rw [isSpace_of_isDigit hdigit]
  exact Bool.false_ne_true

/-- The digits of a number end with the number. Assumes: no digit after it. -/
theorem takeWhile_isDigit_decimal (value : ℕ) {rest : Text}
    (hrest : ∀ c ∈ rest.head?, isDigit c = false) :
    (decimal value ++ rest).takeWhile isDigit = decimal value := by
  have hstop : rest.takeWhile isDigit = [] := by
    cases rest with
    | nil => rfl
    | cons c rest =>
      refine List.takeWhile_cons_of_neg ?_
      rw [hrest c rfl]
      exact Bool.false_ne_true
  rw [List.takeWhile_append_of_pos fun _ ↦ isDigit_of_mem_decimal, hstop, List.append_nil]

/-- A number that is written before a byte other than a digit is read back, on 32 bits. -/
theorem scanUnsigned_decimal (value : UInt32) {c : UInt8} (hc : isDigit c = false) (rest : Text) :
    scanUnsigned (decimal value.toNat ++ c :: rest) = some value := by
  have hdigits : (decimal value.toNat ++ c :: rest).takeWhile isDigit = decimal value.toNat := by
    refine takeWhile_isDigit_decimal value.toNat fun next hnext ↦ ?_
    rw [← Option.some.inj hnext]
    exact hc
  rw [scanUnsigned, dropWhile_isSpace_decimal, hdigits, if_neg, digitsValue_decimal,
    UInt32.ofNat_toNat]
  rintro (hnil | hall)
  · exact decimal_ne_nil _ hnil
  · exact absurd (List.self_eq_append_right.mp hall) (List.cons_ne_nil c rest)

end KernelModules.Foundation
