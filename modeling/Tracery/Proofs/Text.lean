import Mathlib.Data.List.TakeDrop
import Tracery.Text

/-! Characters and scans. What holds of each ASCII character is checked by going through them. -/

namespace Tracery.Text

theorem forall_ascii {p : Char → Prop} (each : ∀ n < 128, p (Char.ofNat n)) {c : Char}
    (ascii : c.toNat < 128) : p c := by
  have holds := each c.toNat ascii
  rwa [Char.ofNat_toNat] at holds

theorem toNat_lt_of_isUpper {c : Char} (upper : c.isUpper = true) : c.toNat < 128 := by
  have high : c.toNat ≤ 90 := (of_decide_eq_true upper).2
  omega

theorem isUpper_toLower {c : Char} (upper : c.isUpper = true) : c.toLower.isUpper = false :=
  forall_ascii (p := fun c => c.toLower.isUpper = false) (by decide +kernel)
    (toNat_lt_of_isUpper upper)

theorem toUpper_toLower {c : Char} (upper : c.isUpper = true) : c.toLower.toUpper = c :=
  forall_ascii (p := fun c => c.isUpper = true → c.toLower.toUpper = c) (by decide +kernel)
    (toNat_lt_of_isUpper upper) upper

theorem not_isAlpha_toLower_of_isDigit {c : Char} (digit : c.isDigit = true) :
    c.toLower.isAlpha = false := by
  have code : c.toNat ≤ 57 := (Char.isDigit_iff_toNat.mp digit).2
  exact forall_ascii (p := fun c => c.isDigit = true → c.toLower.isAlpha = false)
    (by decide +kernel) (by omega) digit

theorem isBlank_of_isDigit {c : Char} (digit : c.isDigit = true) : isBlank c = false := by
  have code : 48 ≤ c.toNat ∧ c.toNat ≤ 57 := Char.isDigit_iff_toNat.mp digit
  rw [← Bool.not_eq_true]
  simp only [isBlank, Bool.or_eq_true, Bool.and_eq_true, decide_eq_true_eq, beq_iff_eq]
  omega

theorem hexValue?_hexDigit {n : Nat} (small : n < 16) : hexValue? (hexDigit n) = some n := by
  decide +revert

theorem hexValue?_toUpper_hexDigit {n : Nat} (small : n < 16) :
    hexValue? (hexDigit n).toUpper = some n := by
  decide +revert

/-- A word is scanned in full if what follows it does not go on in kind. -/
theorem span_append {p : Char → Bool} {word rest : List Char}
    (inside : ∀ c ∈ word, p c = true) (stop : ∀ c ∈ rest.head?, p c = false) :
    (word ++ rest).span p = (word, rest) := by
  rw [List.span_eq_takeWhile_dropWhile, List.takeWhile_append_of_pos inside,
    List.dropWhile_append_of_pos inside]
  cases rest with
  | nil => simp
  | cons c rest =>
      have outside : p c = false := stop c (by simp)
      simp [outside]

theorem trim_of_solid {text : List Char} (solid : ∀ c ∈ text, isBlank c = false) :
    trim text = text := by
  have kept {part : List Char} (inside : ∀ c ∈ part, isBlank c = false) :
      part.dropWhile isBlank = part := by
    cases part with
    | nil => rfl
    | cons c rest => rw [List.dropWhile_cons_of_neg (by simp [inside c])]
  rw [trim, kept solid, kept (by simpa using solid), List.reverse_reverse]

end Tracery.Text
