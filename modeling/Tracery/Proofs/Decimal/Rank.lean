import Mathlib.Algebra.Field.Rat
import Mathlib.Algebra.Order.Ring.Nat
import Mathlib.Tactic.Linarith
import Mathlib.Tactic.Positivity
import Mathlib.Tactic.Ring
import Tracery.Decimal

/-! Doubles and decimals by rank. The double nearest to a decimal depends on the
number alone, not on how it is spelled, and every magnitude is the nearest one to
the digits it is written with. -/

namespace Tracery

namespace Binary

theorem binade_eq : binade = 2 ^ 52 := Nat.one_shiftLeft 52

def places : Nat := 1074

theorem one_eq : one = 2 ^ places := Nat.one_shiftLeft places

theorem one_pos : 0 < one := one_eq ▸ Nat.two_pow_pos _

theorem signBit_eq : signBit = 2 ^ 63 := Nat.one_shiftLeft 63

theorem roundDiv_mul_right (n d : Nat) {k : Nat} (positive : 0 < k) :
    roundDiv (n * k) (d * k) = roundDiv n d := by
  have above : d * k < 2 * (n % d * k) ↔ d < 2 * (n % d) := by
    rw [← Nat.mul_assoc, Nat.mul_lt_mul_right positive]
  have halfway : 2 * (n % d * k) = d * k ↔ 2 * (n % d) = d := by
    rw [← Nat.mul_assoc, Nat.mul_left_inj positive.ne']
  simp only [roundDiv, Nat.mul_mod_mul_right, Nat.mul_div_mul_right n d positive, above,
    halfway]

theorem rankOfRatio_mul_right (n d : Nat) {k : Nat} (positive : 0 < k) :
    rankOfRatio (n * k) (d * k) = rankOfRatio n d := by
  simp only [rankOfRatio, Nat.mul_div_mul_right n d positive, Nat.shiftLeft_eq]
  rw [Nat.mul_right_comm d k, roundDiv_mul_right n _ positive]

theorem rankOfRatio_congr {n d m e : Nat} (left : 0 < d) (right : 0 < e)
    (same : n * e = m * d) : rankOfRatio n d = rankOfRatio m e := by
  rw [← rankOfRatio_mul_right n d right, same, Nat.mul_comm d e,
    rankOfRatio_mul_right m e left]

theorem roundDiv_of_dvd {n d : Nat} (positive : 0 < d) (divides : d ∣ n) :
    roundDiv n d = n / d := by
  have whole : n % d = 0 := Nat.mod_eq_zero_of_dvd divides
  rw [roundDiv, if_neg (by omega)]

theorem rankOfRatio_units (r : Nat) : rankOfRatio (units r) 1 = r := by
  rw [units]
  split
  next subnormal =>
    have dropped : r.log2 - 52 = 0 := by
      rcases Nat.eq_zero_or_pos r with rfl | positive
      · decide
      · have := (Nat.log2_lt positive.ne').mpr (binade_eq ▸ subnormal)
        omega
    rw [rankOfRatio, Nat.div_one, dropped, Nat.shiftLeft_zero,
      roundDiv_of_dvd Nat.one_pos (one_dvd r), Nat.div_one, Nat.zero_mul, Nat.zero_add]
  next normal =>
    -- The magnitude has 53 binary digits and then `e` zeros, which are all that is dropped.
    obtain ⟨e, exponent⟩ : ∃ e, r / binade = e + 1 :=
      ⟨r / binade - 1, by
        have := Nat.div_pos (not_lt.mp normal) (by decide : 0 < binade)
        omega⟩
    have mantissa : r % binade < binade := Nat.mod_lt r (by decide)
    have log : ((binade + r % binade) * 2 ^ e).log2 = 52 + e := by
      have positive : 0 < (binade + r % binade) * 2 ^ e :=
        Nat.mul_pos (Nat.add_pos_left (by decide) _) (Nat.two_pow_pos e)
      rw [Nat.log2_eq_iff positive.ne', pow_succ, pow_add, ← binade_eq]
      constructor
      · exact Nat.mul_le_mul_right _ (Nat.le_add_right _ _)
      · rw [Nat.mul_right_comm]
        exact Nat.mul_lt_mul_of_pos_right (by omega) (by positivity)
    have dropped : 52 + e - 52 = e := by omega
    rw [exponent, Nat.add_sub_cancel, Nat.shiftLeft_eq, rankOfRatio, Nat.div_one, log, dropped,
      Nat.one_shiftLeft, roundDiv_of_dvd (by positivity) (Nat.dvd_mul_left _ _),
      Nat.mul_div_cancel _ (by positivity)]
    have parts := Nat.div_add_mod r binade
    rw [exponent] at parts
    linarith

theorem rankOfRatio_of_lt {n d : Nat} (small : 2 * n < d) : rankOfRatio n d = 0 := by
  have quotient : n / d = 0 := Nat.div_eq_of_lt (by omega)
  have remainder : n % d = n := Nat.mod_eq_of_lt (by omega)
  rw [rankOfRatio, quotient]
  simp only [Nat.log2_zero, Nat.zero_sub, Nat.zero_mul, Nat.zero_add, Nat.shiftLeft_zero,
    roundDiv, remainder, quotient]
  rw [if_neg (by omega)]

theorem infinityRank_le_rankOfRatio {n d k : Nat} (large : 2 ^ k ≤ n / d)
    (beyond : 2099 ≤ k) : infinityRank ≤ rankOfRatio n d := by
  have log : k ≤ (n / d).log2 :=
    (Nat.le_log2 ((Nat.two_pow_pos k).trans_le large).ne').mpr large
  calc infinityRank = 2047 * binade := rfl
    _ ≤ ((n / d).log2 - 52) * binade := Nat.mul_le_mul_right _ (by omega)
    _ ≤ rankOfRatio n d := Nat.le_add_right _ _

end Binary

namespace Decimal

open Binary (infinityRank one places rankOfRatio units)

def value (d : Decimal) : ℚ := d.mantissa * 10 ^ d.exponent

theorem denominator_pos (d : Decimal) : 0 < d.denominator := Nat.pow_pos (by decide)

theorem value_eq_div (d : Decimal) : d.value = d.numerator / d.denominator := by
  obtain ⟨mantissa, exponent⟩ := d
  simp only [value, numerator, denominator, Nat.pow_eq]
  cases exponent with
  | ofNat n => simp
  | negSucc n => simp [zpow_negSucc, div_eq_mul_inv]

theorem exactRank_congr {d e : Decimal} (same : d.value = e.value) :
    d.exactRank = e.exactRank := by
  have left : (d.denominator : ℚ) ≠ 0 := Nat.cast_ne_zero.mpr d.denominator_pos.ne'
  have right : (e.denominator : ℚ) ≠ 0 := Nat.cast_ne_zero.mpr e.denominator_pos.ne'
  rw [value_eq_div, value_eq_div, div_eq_div_iff left right] at same
  have cross : d.numerator * e.denominator = e.numerator * d.denominator := by
    exact_mod_cast same
  rw [exactRank, exactRank, Binary.rankOfRatio_congr d.denominator_pos e.denominator_pos
    (by rw [Nat.mul_right_comm, cross, Nat.mul_right_comm])]

theorem two_pow_le_ten_pow (n : Nat) : 2 ^ (3 * n) ≤ 10 ^ n := by
  rw [Nat.pow_mul]
  exact Nat.pow_le_pow_left (by decide) n

theorem exactRank_of_large {d : Decimal} (nonzero : d.mantissa ≠ 0)
    (large : 400 < d.exponent) : d.exactRank = infinityRank := by
  have whole : (-d.exponent).toNat = 0 := by omega
  have power : 2 ^ (3 * d.exponent.toNat + places) ≤ d.numerator * one :=
    calc 2 ^ (3 * d.exponent.toNat + places)
        = 2 ^ (3 * d.exponent.toNat) * one := by rw [Nat.pow_add, Binary.one_eq]
      _ ≤ 10 ^ d.exponent.toNat * one := Nat.mul_le_mul_right _ (two_pow_le_ten_pow _)
      _ ≤ d.numerator * one :=
          Nat.mul_le_mul_right _ (Nat.le_mul_of_pos_left _ (Nat.pos_of_ne_zero nonzero))
  rw [exactRank, denominator, whole]
  exact min_eq_left
    (Binary.infinityRank_le_rankOfRatio (by simpa using power) (by unfold places; omega))

theorem exactRank_of_small {d : Decimal}
    (small : d.exponent < -400 ∧ d.mantissa.log2 < 3 * (-d.exponent - 400)) :
    d.exactRank = 0 := by
  -- Less than half a unit, as a power of eight is below that power of ten.
  have whole : d.exponent.toNat = 0 := by omega
  have below : 2 * (d.numerator * one) < d.denominator :=
    calc 2 * (d.numerator * one) = d.mantissa * (2 * one) := by
          rw [numerator, whole, Nat.pow_eq, Nat.pow_zero, Nat.mul_one, Nat.mul_left_comm]
      _ < 2 ^ (d.mantissa.log2 + 1) * (2 * one) :=
          Nat.mul_lt_mul_of_pos_right Nat.lt_log2_self
            (Nat.mul_pos (by decide) Binary.one_pos)
      _ = 2 ^ (d.mantissa.log2 + 1 + 1 + places) := by
          rw [Nat.pow_add _ _ places, ← Binary.one_eq, Nat.pow_succ 2 (_ + 1), Nat.mul_assoc]
      _ ≤ 2 ^ (3 * (-d.exponent).toNat) :=
          Nat.pow_le_pow_right (by decide) (by unfold places; omega)
      _ ≤ d.denominator := two_pow_le_ten_pow _
  rw [exactRank, Binary.rankOfRatio_of_lt below, Nat.min_zero]

theorem rank_eq_exactRank (d : Decimal) : d.rank = d.exactRank := by
  rw [rank]
  split
  next zero =>
    rw [exactRank, numerator, zero, Nat.zero_mul, Nat.zero_mul,
      Binary.rankOfRatio_of_lt (by simpa using d.denominator_pos), Nat.min_zero]
  next nonzero =>
    split
    next large => exact (exactRank_of_large nonzero large).symm
    next =>
      split
      next small => exact (exactRank_of_small small).symm
      next => rfl

theorem rank_congr {d e : Decimal} (same : d.value = e.value) : d.rank = e.rank := by
  rw [rank_eq_exactRank, rank_eq_exactRank, exactRank_congr same]

theorem toFloat_congr {d e : Decimal} (same : d.value = e.value) (negative : Bool) :
    d.toFloat negative = e.toFloat negative := by
  rw [toFloat, toFloat, rank_congr same]

@[simp] theorem value_trim (d : Decimal) : d.trim.value = d.value := by
  fun_induction trim d with
  | case1 d ends ih =>
      have tens : (d.mantissa : ℚ) = (d.mantissa / 10 : Nat) * 10 := by
        exact_mod_cast (Nat.div_mul_cancel (Nat.dvd_of_mod_eq_zero ends.2)).symm
      rw [ih, value, value, tens, zpow_add_one₀ (by decide)]
      ring
  | case2 => rfl

theorem rank_ofRank {r : Nat} (finite : r < infinityRank) : (ofRank r).rank = r := by
  have mantissa : (ofRank r).mantissa = units r * Nat.pow 5 1074 := by rw [ofRank]
  have above : (ofRank r).exponent.toNat = 0 := rfl
  have below : (-(ofRank r).exponent).toNat = 1074 := rfl
  have whole : Nat.pow 10 0 = 1 := rfl
  have spelled : rankOfRatio ((ofRank r).numerator * one) (ofRank r).denominator = r := by
    rw [Binary.rankOfRatio_congr (denominator_pos _) Nat.one_pos (m := units r)]
    · exact Binary.rankOfRatio_units r
    · rw [numerator, denominator, mantissa, above, below, whole, Binary.one_eq, places,
        Nat.mul_one, Nat.mul_one, Nat.mul_assoc]
      -- No power of this size is to be written out.
      generalize 1074 = n
      exact congrArg (units r * ·) (Nat.mul_pow 5 2 n).symm
  rw [rank_eq_exactRank, exactRank, spelled, min_eq_right finite.le]

theorem rank_onGrid {tie : Tie} {r : Nat} {exponent : Int} {d : Decimal}
    (found : onGrid tie r exponent = some d) : d.rank = r := by
  rw [onGrid] at found
  have reads := List.find?_some found
  exact eq_of_beq reads

theorem rank_shortest (tie : Tie) {r : Nat} (finite : r < infinityRank) :
    (shortest tie r).rank = r := by
  rw [shortest]
  split
  next zero => rw [zero]; rfl
  next =>
    dsimp only
    split
    next d found =>
      obtain ⟨n, -, here⟩ := List.exists_of_findSome?_eq_some found
      rw [rank_congr (value_trim d), rank_onGrid here]
    next => rw [rank_congr (value_trim _), rank_ofRank finite]

theorem mantissa_shortest_ne_zero (tie : Tie) {r : Nat} (finite : r < infinityRank)
    (nonzero : r ≠ 0) : (shortest tie r).mantissa ≠ 0 := by
  intro zero
  apply nonzero
  rw [← rank_shortest tie finite, rank, if_pos zero]

end Decimal
end Tracery
