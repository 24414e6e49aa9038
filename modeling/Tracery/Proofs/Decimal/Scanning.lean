import Mathlib.Data.List.TakeWhile
import Tracery.Decimal
import Tracery.Proofs.Text

/-! Decimal literals as they may be spelled. Scanning finds a spelling, and all of it if what
follows does not go on in a literal. -/

namespace Tracery.Literal

/-- The ways to spell an exponent: its letter in either case, a sign or none, and digits. -/
inductive SpellsExponent : Option Int → List Char → Prop
  | absent : SpellsExponent none []
  | given (letter : Char) (sign : Option Sign) {digits : List Char}
      (cased : letter = 'e' ∨ letter = 'E') (written : digits ≠ [])
      (inside : ∀ c ∈ digits, c.isDigit = true) :
      SpellsExponent
        (some (if sign = some .minus then -(natural digits : Int) else natural digits))
        (letter :: ((sign.map Sign.char).toList ++ digits))

/-- A literal up to its exponent. -/
def front (l : Literal) : List Char :=
  (l.sign.map Sign.char).toList ++ l.whole ++ fractionChars l.fraction

/-- The ways to spell a literal: its digits as they are, with or without a point behind. -/
structure Spells (l : Literal) (word : List Char) : Prop where
  digits : ∀ c ∈ l.whole ++ l.fractionDigits, c.isDigit = true
  spelled : ∃ exponent, SpellsExponent l.exponent exponent ∧ word = l.front ++ exponent

theorem Spells.exists_head {l : Literal} {word : List Char} (spells : l.Spells word)
    (digits : l.hasDigits = true) :
    ∃ c others, word = c :: others ∧ (c.isDigit = true ∨ c ∈ ['+', '-', '.']) := by
  obtain ⟨sign, whole, fraction, exponent⟩ := l
  obtain ⟨inside, ending, -, rfl⟩ := spells
  cases sign with
  | some sign =>
      refine ⟨sign.char, _, rfl, .inr ?_⟩
      cases sign <;> decide
  | none =>
      cases whole with
      | cons first others => exact ⟨first, _, rfl, .inl (inside first List.mem_cons_self)⟩
      | nil =>
          cases fraction with
          | some digits => exact ⟨'.', _, rfl, .inr (by decide)⟩
          | none => simp [hasDigits, fractionDigits] at digits

def goesOn (c : Char) : Bool := c.isDigit || c == '.' || c == 'e' || c == 'E'

theorem scanSign_append {sign : Option Sign} {text : List Char}
    (begun : ∀ c ∈ text.head?, c ≠ '+' ∧ c ≠ '-') :
    scanSign ((sign.map Sign.char).toList ++ text) = (sign, text) := by
  cases sign with
  | some sign => cases sign <;> rfl
  | none =>
      cases text with
      | nil => rfl
      | cons c text =>
          obtain ⟨plus, minus⟩ := begun c rfl
          simp [scanSign, plus, minus]

theorem scanDigits_append {digits rest : List Char}
    (inside : ∀ c ∈ digits, c.isDigit = true)
    (stop : ∀ c ∈ rest.head?, c.isDigit = false) :
    scanDigits (digits ++ rest) = (digits, rest) :=
  Text.span_append inside stop

theorem scanFraction_append {fraction : Option (List Char)} {rest : List Char}
    (inside : ∀ c ∈ fraction.getD [], c.isDigit = true)
    (stop : ∀ c ∈ rest.head?, c.isDigit = false ∧ c ≠ '.') :
    scanFraction (fractionChars fraction ++ rest) = (fraction, rest) := by
  cases fraction with
  | some digits =>
      have behind : scanDigits (digits ++ rest) = (digits, rest) :=
        scanDigits_append inside fun c first => (stop c first).1
      simp [scanFraction, fractionChars, behind]
  | none =>
      cases rest with
      | nil => rfl
      | cons c rest => simp [scanFraction, fractionChars, (stop c rfl).2]

theorem not_digit_of_goesOn {c : Char} (outside : goesOn c = false) : c.isDigit = false := by
  simp only [goesOn, Bool.or_eq_false_iff] at outside
  exact outside.1.1.1

theorem ne_sign_of_isDigit {c : Char} (digit : c.isDigit = true) : c ≠ '+' ∧ c ≠ '-' := by
  constructor <;> rintro rfl <;> revert digit <;> decide

theorem scanExponent_append {exponent : Option Int} {word rest : List Char}
    (spelled : SpellsExponent exponent word) (stop : ∀ c ∈ rest.head?, goesOn c = false) :
    scanExponent (word ++ rest) = (exponent, rest) := by
  cases spelled with
  | absent =>
      cases rest with
      | nil => rfl
      | cons c rest =>
          have outside := stop c rfl
          simp only [goesOn, Bool.or_eq_false_iff, beq_eq_false_iff_ne] at outside
          simp [scanExponent, outside]
  | @given letter sign digits cased written inside =>
      have behind : scanDigits (digits ++ rest) = (digits, rest) :=
        scanDigits_append inside fun c first => not_digit_of_goesOn (stop c first)
      obtain ⟨first, others, rfl⟩ := List.exists_cons_of_ne_nil written
      have begun : ∀ c ∈ (first :: others ++ rest).head?, c ≠ '+' ∧ c ≠ '-' := by
        rintro c head
        obtain rfl : first = c := by simpa using head
        exact ne_sign_of_isDigit (inside first List.mem_cons_self)
      rw [List.cons_append, List.append_assoc, scanExponent, if_pos cased, scanSign_append begun]
      simp only
      rw [behind]

/-- A literal with digits is scanned to its end, if what follows it does not go on. -/
theorem scan_append {l : Literal} {word rest : List Char} (spells : l.Spells word)
    (some : l.hasDigits = true) (stop : ∀ c ∈ rest.head?, goesOn c = false) :
    scan (word ++ rest) = (l, rest) := by
  obtain ⟨sign, whole, fraction, exponent⟩ := l
  obtain ⟨inside, ending, spelled, rfl⟩ := spells
  simp only [fractionDigits, List.mem_append] at inside
  -- Each part ends where the next one begins, or else where the rest begins.
  have exponentStops : ∀ c ∈ (ending ++ rest).head?, c.isDigit = false ∧ c ≠ '.' := by
    intro c first
    cases spelled with
    | absent =>
        have outside := stop c first
        simp only [goesOn, Bool.or_eq_false_iff, beq_eq_false_iff_ne] at outside
        exact ⟨outside.1.1.1, outside.1.1.2⟩
    | @given letter _ _ cased =>
        obtain rfl : letter = c := by simpa using first
        rcases cased with rfl | rfl <;> decide
  have fractionStops : ∀ c ∈ (fractionChars fraction ++ (ending ++ rest)).head?,
      c.isDigit = false := by
    intro c first
    cases fraction with
    | none => exact (exponentStops c first).1
    | some digits =>
        obtain rfl : '.' = c := by simpa [fractionChars] using first
        decide
  have begun : ∀ c ∈ (whole ++ (fractionChars fraction ++ (ending ++ rest))).head?,
      c ≠ '+' ∧ c ≠ '-' := by
    intro c first
    cases whole with
    | cons d others =>
        obtain rfl : d = c := by simpa using first
        exact ne_sign_of_isDigit (inside d (.inl List.mem_cons_self))
    | nil =>
        cases fraction with
        | none => simp [hasDigits, fractionDigits] at some
        | some digits =>
            obtain rfl : '.' = c := by simpa [fractionChars] using first
            decide
  simp only [front, List.append_assoc]
  rw [scan, scanSign_append begun]
  simp only
  rw [scanDigits_append (fun c member => inside c (.inl member)) fractionStops]
  simp only
  rw [scanFraction_append (fun c member => inside c (.inr member)) exponentStops]
  simp only
  rw [scanExponent_append spelled stop]

theorem eq_of_scanSign {text rest : List Char} {sign : Option Sign}
    (scanned : scanSign text = (sign, rest)) : text = (sign.map Sign.char).toList ++ rest := by
  unfold scanSign at scanned
  split at scanned <;> cases scanned <;> rfl

theorem eq_of_scanDigits {text digits rest : List Char}
    (scanned : scanDigits text = (digits, rest)) :
    text = digits ++ rest ∧ ∀ c ∈ digits, c.isDigit = true := by
  rw [scanDigits, List.span_eq_takeWhile_dropWhile] at scanned
  cases scanned
  exact ⟨List.takeWhile_append_dropWhile.symm, fun c => List.mem_takeWhile_imp⟩

theorem eq_of_scanFraction {text rest : List Char} {fraction : Option (List Char)}
    (scanned : scanFraction text = (fraction, rest)) :
    text = fractionChars fraction ++ rest ∧ ∀ c ∈ fraction.getD [], c.isDigit = true := by
  unfold scanFraction at scanned
  split at scanned
  next behind =>
    cases counted : scanDigits behind with
    | mk digits afterDigits =>
    rw [counted] at scanned
    cases scanned
    obtain ⟨rfl, inside⟩ := eq_of_scanDigits counted
    exact ⟨rfl, inside⟩
  next =>
    cases scanned
    exact ⟨rfl, by simp⟩

theorem exists_of_scanExponent {text rest : List Char} {exponent : Option Int}
    (scanned : scanExponent text = (exponent, rest)) :
    ∃ word, text = word ++ rest ∧ SpellsExponent exponent word := by
  unfold scanExponent at scanned
  split at scanned
  next letter behind =>
    split at scanned
    next cased =>
      cases signed : scanSign behind with
      | mk sign afterSign =>
      cases counted : scanDigits afterSign with
      | mk digits afterDigits =>
      rw [signed] at scanned
      simp only [counted] at scanned
      obtain rfl := eq_of_scanSign signed
      obtain ⟨rfl, inside⟩ := eq_of_scanDigits counted
      cases digits with
      | nil =>
          cases scanned
          exact ⟨[], rfl, .absent⟩
      | cons first others =>
          cases scanned
          exact ⟨_, by simp, .given letter sign cased (List.cons_ne_nil first others) inside⟩
    next =>
      cases scanned
      exact ⟨[], rfl, .absent⟩
  next =>
    cases scanned
    exact ⟨[], rfl, .absent⟩

theorem exists_spells_of_scan {text rest : List Char} {l : Literal}
    (scanned : scan text = (l, rest)) : ∃ word, text = word ++ rest ∧ l.Spells word := by
  cases signed : scanSign text with
  | mk sign afterSign =>
  cases counted : scanDigits afterSign with
  | mk whole afterWhole =>
  cases pointed : scanFraction afterWhole with
  | mk fraction afterFraction =>
  cases raised : scanExponent afterFraction with
  | mk exponent afterExponent =>
  simp only [scan, signed, counted, pointed, raised] at scanned
  cases scanned
  obtain rfl := eq_of_scanSign signed
  obtain ⟨rfl, inWhole⟩ := eq_of_scanDigits counted
  obtain ⟨rfl, inFraction⟩ := eq_of_scanFraction pointed
  obtain ⟨ending, rfl, spelled⟩ := exists_of_scanExponent raised
  refine ⟨_, ?_, ?_, ending, spelled, rfl⟩
  · simp [front]
  · exact List.forall_mem_append.mpr ⟨inWhole, inFraction⟩

end Tracery.Literal
