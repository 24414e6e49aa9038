import Tracery.Decimal
import Tracery.Proofs.Decimal.Finite
import Tracery.Proofs.Decimal.Scanning

/-! Doubles spelled and read. What a layout writes has the value of the shortest digits,
and nothing in it is needless. -/

namespace Tracery

namespace Literal

/-- A literal as numbers are written: with no plus, and no digit that is missing
or needless. -/
structure Canonical (l : Literal) : Prop where
  sign : l.sign ≠ some .plus
  whole : l.whole ≠ []
  leading : l.whole.length = 1 ∨ l.whole.head? ≠ some '0'
  fraction : l.fraction ≠ some []
  digits : ∀ c ∈ l.whole ++ l.fractionDigits, c.isDigit = true

theorem isDigit_toDigits {n : Nat} {c : Char} (member : c ∈ Nat.toDigits 10 n) :
    c.isDigit = true :=
  Nat.isDigit_of_mem_toDigits (by decide) (by decide) member

theorem natural_toDigits (n : Nat) : natural (Nat.toDigits 10 n) = n :=
  Nat.ofDigitChars_ten_toDigits

theorem spellsExponent_exponentChars (exponent : Option Int) :
    SpellsExponent exponent (exponentChars exponent) := by
  cases exponent with
  | none => exact .absent
  | some e =>
      have spelled (sign : Sign) := SpellsExponent.given 'e' (some sign) (.inl rfl)
        (Nat.toDigits_ne_nil (n := e.natAbs) (b := 10)) fun c => isDigit_toDigits
      rcases lt_or_ge e 0 with negative | positive
      · simpa [exponentChars, negative, Sign.char, natural_toDigits, abs_of_neg negative]
          using spelled .minus
      · simpa [exponentChars, positive.not_gt, Sign.char, natural_toDigits,
          abs_of_nonneg positive] using spelled .plus

theorem chars_eq (l : Literal) : l.chars = l.front ++ exponentChars l.exponent := rfl

theorem Canonical.spells {l : Literal} (canonical : l.Canonical) : l.Spells l.chars :=
  ⟨canonical.digits, _, spellsExponent_exponentChars l.exponent, rfl⟩

theorem Canonical.hasDigits {l : Literal} (canonical : l.Canonical) : l.hasDigits = true := by
  simp [Literal.hasDigits, canonical.whole]

theorem scan_chars {l : Literal} (canonical : l.Canonical) {rest : List Char}
    (stop : ∀ c ∈ rest.head?, goesOn c = false) :
    scan (l.chars ++ rest) = (l, rest) :=
  scan_append canonical.spells canonical.hasDigits stop

theorem exists_chars {l : Literal} (canonical : l.Canonical) :
    ∃ c others, l.chars = c :: others ∧
      ∀ d : Char, d.isDigit = false → d ≠ '-' → c ≠ d := by
  obtain ⟨sign, whole, fraction, exponent⟩ := l
  obtain ⟨first, others, same⟩ := List.exists_cons_of_ne_nil canonical.whole
  subst same
  have digit : first.isDigit = true := canonical.digits first (by simp)
  cases sign with
  | none =>
      refine ⟨first, _, rfl, ?_⟩
      rintro d other - rfl
      simp [other] at digit
  | some sign =>
      cases sign with
      | plus => exact absurd rfl canonical.sign
      | minus => exact ⟨'-', _, rfl, fun d _ => Ne.symm⟩

theorem mem_front {l : Literal} (canonical : l.Canonical) {c : Char} (member : c ∈ l.front) :
    c.isDigit = true ∨ c ∈ ['-', '.'] := by
  have digits := canonical.digits
  simp only [fractionDigits, List.forall_mem_append] at digits
  simp only [front, List.mem_append] at member
  rcases member with (signed | inWhole) | inFraction
  · cases given : l.sign with
    | none => simp [given] at signed
    | some sign =>
        cases sign with
        | plus => exact absurd given canonical.sign
        | minus =>
            obtain rfl : c = '-' := by simpa [given, Sign.char] using signed
            exact .inr (by decide)
  · exact .inl (digits.1 c inWhole)
  · cases given : l.fraction with
    | none => simp [given, fractionChars] at inFraction
    | some rest =>
        simp only [given, fractionChars, List.mem_cons] at inFraction
        rcases inFraction with rfl | inside
        · exact .inr (by decide)
        · exact .inl (digits.2 c (by rwa [given]))

theorem exists_exponentChars (e : Int) :
    ∃ sign digits, exponentChars (some e) = 'e' :: sign :: digits ∧ sign ∈ ['+', '-'] ∧
      digits ≠ [] ∧ ∀ c ∈ digits, c.isDigit = true := by
  refine ⟨_, _, rfl, ?_, Nat.toDigits_ne_nil, fun c => isDigit_toDigits⟩
  split <;> decide

theorem mem_chars {l : Literal} (canonical : l.Canonical) {c : Char} (member : c ∈ l.chars) :
    c.isDigit = true ∨ c ∈ ['-', '+', '.', 'e'] := by
  rw [chars_eq, List.mem_append] at member
  rcases member with inFront | inExponent
  · rcases mem_front canonical inFront with digit | mark
    · exact .inl digit
    · exact .inr ((by decide : ['-', '.'] ⊆ ['-', '+', '.', 'e']) mark)
  · cases given : l.exponent with
    | none => simp [given, exponentChars] at inExponent
    | some e =>
        obtain ⟨sign, digits, spelled, signed, -, inside⟩ := exists_exponentChars e
        rw [given, spelled, List.mem_cons, List.mem_cons] at inExponent
        rcases inExponent with rfl | rfl | behind
        · exact .inr (by decide)
        · exact .inr ((by decide : ['+', '-'] ⊆ ['-', '+', '.', 'e']) signed)
        · exact .inl (inside c behind)

theorem not_mem_front {l : Literal} (canonical : l.Canonical) : 'e' ∉ l.front := by
  intro member
  rcases mem_front canonical member with digit | mark
  · revert digit
    decide
  · revert mark
    decide

theorem mem_chars_iff_exponent {l : Literal} (canonical : l.Canonical) :
    'e' ∈ l.chars ↔ l.exponent.isSome = true := by
  rw [chars_eq, List.mem_append, or_iff_right (not_mem_front canonical)]
  cases l.exponent with
  | none => simp [exponentChars]
  | some e => simp [exponentChars]

theorem exponent_of_chars_eq {l : Literal} (canonical : l.Canonical) {before after : List Char}
    (spelled : l.chars = before ++ 'e' :: after) :
    ∃ sign digits, after = sign :: digits ∧ sign ∈ ['+', '-'] ∧ digits ≠ [] ∧
      ∀ c ∈ digits, c.isDigit = true := by
  obtain ⟨e, given⟩ := Option.isSome_iff_exists.mp
    ((mem_chars_iff_exponent canonical).mp (by simp [spelled]))
  obtain ⟨sign, digits, behind, signed, some, inside⟩ := exists_exponentChars e
  have letter : 'e' ∉ sign :: digits := by
    rw [List.mem_cons, not_or]
    constructor
    · rintro rfl
      revert signed
      decide
    · intro member
      exact absurd (inside 'e' member) (by decide)
  rw [chars_eq, given, behind] at spelled
  obtain ⟨-, -, rfl⟩ :=
    (List.append_cons_inj_of_notMem (not_mem_front canonical) letter).mp spelled
  exact ⟨sign, digits, rfl, signed, some, inside⟩

end Literal

theorem head_toDigits_ne_zero {n : Nat} (nonzero : n ≠ 0) :
    (Nat.toDigits 10 n).head? ≠ some '0' := by
  induction n using Nat.base_induction 10 (by decide) with
  | single m small =>
      rw [Nat.toDigits_of_lt_base small]
      interval_cases m
      · exact absurd rfl nonzero
      all_goals decide
  | digit m k small positive ih =>
      rw [← Nat.toDigits_append_toDigits (by decide) positive small,
        List.head?_append_of_ne_nil _ Nat.toDigits_ne_nil]
      exact ih positive.ne'

namespace Layout

open Literal (natural natural_toDigits isDigit_toDigits)

/-- Whether nothing but zeros, and at least one, stand behind the point of a whole
number. -/
def Exact (layout : Layout) : Prop :=
  ∀ digits ∈ layout.wholeFraction, digits ≠ [] ∧ ∀ c ∈ digits, c = '0'

variable {layout : Layout}

theorem natural_append_zeros (digits : List Char) (n : Nat) :
    natural (digits ++ List.replicate n '0') = 10 ^ n * natural digits := by
  rw [natural, Nat.ofDigitChars_append, Nat.ofDigitChars_replicate_zero, natural]

theorem natural_zeros_append (n : Nat) (digits : List Char) :
    natural (List.replicate n '0' ++ digits) = natural digits := by
  rw [natural, Nat.ofDigitChars_append, Nat.ofDigitChars_replicate_zero, Nat.mul_zero,
    natural]

theorem exists_wholeFraction (exact : layout.Exact) :
    ∃ n, layout.wholeFraction.getD [] = List.replicate n '0' := by
  cases given : layout.wholeFraction with
  | none => exact ⟨0, rfl⟩
  | some digits =>
      exact ⟨digits.length, List.eq_replicate_iff.mpr ⟨rfl, (exact digits given).2⟩⟩

theorem value_plain (exact : layout.Exact) (sign : Option Sign) (d : Decimal) :
    (layout.plain sign d).decimal.value = d.value := by
  obtain ⟨mantissa, exponent⟩ := d
  rw [plain]
  dsimp only
  split
  next whole =>
    obtain ⟨n, zeros⟩ := exists_wholeFraction exact
    obtain ⟨e, rfl⟩ := Int.eq_ofNat_of_zero_le (a := exponent) (by omega)
    simp only [Literal.decimal, Literal.fractionDigits, zeros, Decimal.value,
      natural_append_zeros, natural_toDigits]
    simp
    field_simp
  next =>
    obtain ⟨places, rfl⟩ : ∃ places : Nat, exponent = -places := ⟨(-exponent).toNat, by omega⟩
    have back : (- -(places : Int)).toNat = places := by omega
    rw [back]
    split
    next inside =>
      have behind : places ≤ (Nat.toDigits 10 mantissa).length := by omega
      simp [Literal.decimal, Literal.fractionDigits, Decimal.value, natural_toDigits,
        Nat.sub_sub_self behind]
    next outside =>
      have filled : places - (Nat.toDigits 10 mantissa).length +
          (Nat.toDigits 10 mantissa).length = places := by omega
      have zeros : natural ('0' :: (List.replicate
          (places - (Nat.toDigits 10 mantissa).length) '0' ++ Nat.toDigits 10 mantissa)) =
          mantissa := by
        rw [← List.cons_append, ← List.replicate_succ, natural_zeros_append, natural_toDigits]
      simp [Literal.decimal, Literal.fractionDigits, Decimal.value, zeros, filled]

theorem decimal_scientific (sign : Option Sign) (d : Decimal) :
    (scientific sign d).decimal = d := by
  obtain ⟨mantissa, exponent⟩ := d
  have digits : ((if ((Nat.toDigits 10 mantissa).drop 1).isEmpty then none
      else some ((Nat.toDigits 10 mantissa).drop 1)) : Option (List Char)).getD [] =
      (Nat.toDigits 10 mantissa).drop 1 := by
    split
    next empty => exact (List.isEmpty_iff.mp empty).symm
    next => rfl
  simp only [scientific, Literal.decimal, Literal.fractionDigits, digits,
    List.take_append_drop, natural_toDigits, Option.getD_some, Int.add_sub_cancel]

theorem value_literal (exact : layout.Exact) (x : Float) :
    (layout.literal x).decimal.value =
      (Decimal.shortest layout.tie (Binary.rank x)).value := by
  rw [literal]
  split
  next => exact value_plain exact _ _
  next => rw [decimal_scientific]

theorem sign_literal (x : Float) :
    (layout.literal x).sign =
      if Binary.isNegative x && (layout.signedZero || Binary.rank x != 0) then some .minus
      else none := by
  simp only [literal, plain, scientific]
  repeat' split
  all_goals rfl

theorem exponent_plain (sign : Option Sign) (d : Decimal) :
    (layout.plain sign d).exponent = none := by
  rw [plain]
  repeat' split
  all_goals rfl

theorem isSome_exponent_literal (x : Float) :
    (layout.literal x).exponent.isSome = true ↔
      Binary.rank x ≠ 0 ∧
        (Binary.rank x < layout.plainFrom ∨ layout.plainBelow ≤ Binary.rank x) := by
  rw [literal]
  split
  next inside =>
    refine iff_of_false (by simp [exponent_plain]) ?_
    omega
  next outside =>
    refine iff_of_true rfl ?_
    omega

/-- What is written reads as the same double; zero needs a layout that writes its
sign. -/
theorem toFloat_literal (exact : layout.Exact) {x : Float}
    (finite : Binary.isFinite x = true)
    (signed : layout.signedZero = true ∨ Binary.rank x ≠ 0) :
    (layout.literal x).toFloat = x := by
  have shown : (layout.signedZero || Binary.rank x != 0) = true := by simpa using signed
  have sign : ((layout.literal x).sign == some .minus) = Binary.isNegative x := by
    rw [sign_literal, shown, Bool.and_true]
    cases Binary.isNegative x <;> rfl
  rw [Literal.toFloat, sign, Decimal.toFloat_congr (value_literal exact x),
    Decimal.toFloat_shortest layout.tie finite]

theorem canonical_plain (exact : layout.Exact) {sign : Option Sign} {d : Decimal}
    (minus : sign ≠ some .plus) (leading : d.mantissa = 0 → d.exponent = 0) :
    (layout.plain sign d).Canonical := by
  obtain ⟨mantissa, exponent⟩ := d
  have start := head_toDigits_ne_zero (n := mantissa)
  have written : Nat.toDigits 10 mantissa ≠ [] := Nat.toDigits_ne_nil
  have digits (c : Char) : c ∈ Nat.toDigits 10 mantissa → c.isDigit = true := isDigit_toDigits
  rw [plain]
  dsimp only
  split
  next =>
    refine ⟨minus, by simp [written], ?_, fun given => (exact [] given).1 rfl, ?_⟩
    · -- Only zero begins with a zero, and it has no power of ten to add others.
      rcases Nat.eq_zero_or_pos mantissa with zero | positive
      · have exponentZero : exponent = 0 := leading zero
        subst zero exponentZero
        exact .inl rfl
      · rw [List.head?_append_of_ne_nil _ written]
        exact .inr (start positive.ne')
    · obtain ⟨n, zeros⟩ := exists_wholeFraction exact
      simp only [Literal.fractionDigits, zeros, List.mem_append, List.mem_replicate]
      rintro c ((member | ⟨-, rfl⟩) | ⟨-, rfl⟩)
      · exact digits c member
      all_goals decide
  next fractional =>
    split
    next inside =>
      have kept : (Nat.toDigits 10 mantissa).length - (-exponent).toNat ≠ 0 := by omega
      refine ⟨minus, by simp [kept, written], .inr ?_, ?_, ?_⟩
      · rw [List.head?_take, if_neg kept]
        refine start fun zero => ?_
        have exponentZero : exponent = 0 := leading zero
        omega
      · simp only [ne_eq, Option.some.injEq, List.drop_eq_nil_iff]
        omega
      · simpa [Literal.fractionDigits] using digits
    next =>
      refine ⟨minus, List.cons_ne_nil _ _, .inl rfl, by simp [written], ?_⟩
      simp only [Literal.fractionDigits, Option.getD_some, List.mem_append, List.mem_singleton,
        List.mem_replicate]
      rintro c (rfl | ⟨-, rfl⟩ | member)
      · decide
      · decide
      · exact digits c member

theorem canonical_scientific {sign : Option Sign} (minus : sign ≠ some .plus) (d : Decimal) :
    (scientific sign d).Canonical := by
  obtain ⟨first, others, spelled⟩ := List.exists_cons_of_ne_nil
    (Nat.toDigits_ne_nil (n := d.mantissa) (b := 10))
  have digits (c : Char) : c ∈ first :: others → c.isDigit = true :=
    spelled ▸ isDigit_toDigits
  simp only [scientific, spelled, List.drop_succ_cons, List.drop_zero, List.take_succ_cons,
    List.take_zero]
  refine ⟨minus, List.cons_ne_nil _ _, .inl rfl, ?_, ?_⟩
  · cases others <;> simp
  · cases others with
    | nil => simpa [Literal.fractionDigits] using digits
    | cons second others => simpa [Literal.fractionDigits] using digits

theorem canonical_literal (exact : layout.Exact) {x : Float}
    (finite : Binary.isFinite x = true) : (layout.literal x).Canonical := by
  have minus (negative : Bool) : (if negative then some Sign.minus else none) ≠ some .plus := by
    cases negative <;> decide
  rw [literal]
  split
  next =>
    refine canonical_plain exact (minus _) fun zero => ?_
    have rankZero : Binary.rank x = 0 := by
      by_contra nonzero
      exact Decimal.mantissa_shortest_ne_zero layout.tie (of_decide_eq_true finite) nonzero zero
    rw [rankZero]
    rfl
  next => exact canonical_scientific (minus _) _

end Layout
end Tracery
