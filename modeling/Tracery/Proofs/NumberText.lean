import Tracery.Proofs.Decimal.Spelling
import Tracery.Proofs.Decimal.Value
import Tracery.Value

/-! Numbers as attribute texts. Every number reads back from its text, zero without its sign,
and the text has an exponent exactly outside of the plain magnitudes. -/

namespace Tracery

open Binary (isFinite isNaN rank unsigned value)

variable {x : Float}

theorem Layout.exact_markup : Layout.markup.Exact := by
  intro digits given
  cases given

theorem toList_numberText (finite : isFinite x = true) :
    (numberText x).toList = (Layout.markup.literal x).chars := by
  have number : isNaN x = false := Binary.isNaN_of_isFinite finite
  rw [numberText, String.toList_ofList, Layout.chars, number, finite]
  rfl

theorem canonical_markup (finite : isFinite x = true) : (Layout.markup.literal x).Canonical :=
  Layout.canonical_literal Layout.exact_markup finite

theorem toFloat_markup (finite : isFinite x = true) :
    (Layout.markup.literal x).toFloat = unsigned x := by
  by_cases zero : rank x = 0
  · rw [Binary.unsigned_of_rank_eq_zero zero, Layout.literal, zero]
    cases Binary.isNegative x <;> decide +kernel
  · rw [Binary.unsigned_of_rank_ne_zero zero,
      Layout.toFloat_literal Layout.exact_markup finite (.inr zero)]

theorem mem_numberText (finite : isFinite x = true) {c : Char}
    (member : c ∈ (numberText x).toList) : c.isDigit = true ∨ c ∈ ['-', '+', '.', 'e'] := by
  rw [toList_numberText finite] at member
  exact Literal.mem_chars (canonical_markup finite) member

theorem numberText_of_infinite (large : isFinite x = false) :
    numberText x ∈ ["NaN", "Infinity", "-Infinity"] := by
  apply Binary.infinite_cases _ _ large
  · decide +kernel
  · decide +kernel

def numberMarks : List Char := ['-', '+', '.', 'e', 'N', 'a', 'I', 'n', 'f', 'i', 't', 'y']

def isNumeral (c : Char) : Bool := c.isDigit || numberMarks.contains c

theorem isNumeral_of_mem_numberText {c : Char} (member : c ∈ (numberText x).toList) :
    isNumeral c = true := by
  cases finite : isFinite x with
  | false =>
      have named : ["NaN", "Infinity", "-Infinity"].all (·.toList.all isNumeral) = true := by
        decide
      have letters := List.all_eq_true.mp named _ (numberText_of_infinite finite)
      exact List.all_eq_true.mp letters c member
  | true =>
      have marks : ['-', '+', '.', 'e'].all isNumeral = true := by decide
      rcases mem_numberText finite member with digit | mark
      · rw [isNumeral, digit, Bool.true_or]
      · exact List.all_eq_true.mp marks c mark

theorem not_mem_numberText {c : Char} (other : isNumeral c = false) (x : Float) :
    c ∉ (numberText x).toList := by
  intro member
  rw [isNumeral_of_mem_numberText member] at other
  cases other

theorem isBlank_of_isNumeral {c : Char} (numeral : isNumeral c = true) :
    Text.isBlank c = false := by
  have marks : numberMarks.all (!Text.isBlank ·) = true := by decide
  rw [isNumeral, Bool.or_eq_true, List.contains_iff_mem] at numeral
  rcases numeral with digit | mark
  · exact Text.isBlank_of_isDigit digit
  · simpa using List.all_eq_true.mp marks c mark

theorem isBlank_of_mem_numberText {c : Char} (member : c ∈ (numberText x).toList) :
    Text.isBlank c = false :=
  isBlank_of_isNumeral (isNumeral_of_mem_numberText member)

theorem readNumber?_numberText (x : Float) : readNumber? (numberText x) = some (unsigned x) := by
  cases finite : isFinite x with
  | false =>
      apply Binary.infinite_cases _ _ finite
      · decide +kernel
      · decide +kernel
  | true =>
      have canonical := canonical_markup finite
      have scanned : Literal.scan (Layout.markup.literal x).chars =
          (Layout.markup.literal x, []) := by
        rw [← Literal.scan_chars canonical (by simp : ∀ c ∈ [].head?, Literal.goesOn c = false),
          List.append_nil]
      rw [readNumber?, Text.trim_of_solid fun _ => isBlank_of_mem_numberText,
        toList_numberText finite, scanned]
      simp [canonical.hasDigits, toFloat_markup finite]

theorem numberText_unsigned (x : Float) : numberText (unsigned x) = numberText x := by
  rw [unsigned]
  split
  next zero =>
    rw [zero]
    decide +kernel
  next => rfl

theorem plainFrom_markup : Layout.markup.plainFrom = rank 1e-6 := by decide +kernel

theorem plainBelow_markup : Layout.markup.plainBelow = rank 1e21 := by decide +kernel

theorem mem_numberText_iff_exponent :
    'e' ∈ (numberText x).toList ↔
      isFinite x = true ∧ value x ≠ 0 ∧ (|value x| < value 1e-6 ∨ value 1e21 ≤ |value x|) := by
  have low : value 1e-6 = |value 1e-6| := (Binary.abs_value_of_positive (by decide +kernel)).symm
  have high : value 1e21 = |value 1e21| := (Binary.abs_value_of_positive (by decide +kernel)).symm
  rw [low, high, Binary.abs_value_lt_iff, Binary.abs_value_le_iff, ne_eq, Binary.value_eq_zero_iff]
  cases finite : isFinite x with
  | false =>
      refine iff_of_false ?_ (by simp)
      apply Binary.infinite_cases _ _ finite
      · decide +kernel
      · decide +kernel
  | true =>
      rw [toList_numberText finite, Literal.mem_chars_iff_exponent (canonical_markup finite),
        Layout.isSome_exponent_literal, plainFrom_markup, plainBelow_markup]
      simp

/-- A number reads back from its text, zero without its sign. The text is a name, or made of
digits and marks with no blank and no comma, and has an exponent, which always has its sign,
exactly below `1e-6` and from `1e21` up. -/
theorem number?_numberText (x : Float) :
    (Value.text (numberText x)).number? = some (if x = -0 then 0 else x) ∧
      (if isFinite x then
        ∀ c ∈ (numberText x).toList, c.isDigit = true ∨ c ∈ ['-', '+', '.', 'e']
      else numberText x ∈ ["NaN", "Infinity", "-Infinity"]) ∧
      ' ' ∉ (numberText x).toList ∧ ',' ∉ (numberText x).toList ∧
      ('e' ∈ (numberText x).toList ↔
        isFinite x = true ∧ value x ≠ 0 ∧ (|value x| < value 1e-6 ∨ value 1e21 ≤ |value x|)) ∧
      ∀ before after, (numberText x).toList = before ++ 'e' :: after →
        ∃ sign digits, after = sign :: digits ∧ sign ∈ ['+', '-'] ∧ digits ≠ [] ∧
          ∀ c ∈ digits, c.isDigit = true := by
  refine ⟨readNumber?_numberText x, ?_, fun member => ?_, fun member => ?_,
    mem_numberText_iff_exponent, fun before after spelled => ?_⟩
  · split
    next finite => exact fun c => mem_numberText finite
    next large => exact numberText_of_infinite (by simpa using large)
  · exact absurd (isNumeral_of_mem_numberText member) (by decide)
  · exact absurd (isNumeral_of_mem_numberText member) (by decide)
  · have finite : isFinite x = true :=
      (mem_numberText_iff_exponent.mp (by simp [spelled])).1
    rw [toList_numberText finite] at spelled
    exact Literal.exponent_of_chars_eq (canonical_markup finite) spelled

end Tracery
