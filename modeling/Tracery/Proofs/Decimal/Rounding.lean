import Tracery.Proofs.Decimal.Value

/-! Rounding to whole numbers, a half going up. The whole number nearest to a finite double is
a double itself, so that nothing is lost by writing it as one, nor by rounding again. -/

namespace Tracery.Binary

variable {x : Float}

theorem exists_units_eq {n k : Nat} (few : n < 2 ^ 53) (room : 52 ≤ k) :
    ∃ r, units r = n * 2 ^ k := by
  rcases Nat.eq_zero_or_pos n with rfl | positive
  · exact ⟨0, by rw [Nat.zero_mul]; rfl⟩
  · have log : n.log2 ≤ 52 := Nat.le_of_lt_succ ((Nat.log2_lt positive.ne').mpr few)
    -- The digits shifted up to the first place of a mantissa.
    have low : 2 ^ 52 ≤ n * 2 ^ (52 - n.log2) := by
      calc 2 ^ 52 = 2 ^ n.log2 * 2 ^ (52 - n.log2) := by rw [← pow_add, Nat.add_sub_cancel' log]
        _ ≤ n * 2 ^ (52 - n.log2) := Nat.mul_le_mul_right _ (Nat.log2_self_le positive.ne')
    have high : n * 2 ^ (52 - n.log2) < 2 ^ 53 := by
      calc n * 2 ^ (52 - n.log2) < 2 ^ (n.log2 + 1) * 2 ^ (52 - n.log2) :=
            Nat.mul_lt_mul_of_pos_right Nat.lt_log2_self (Nat.two_pow_pos _)
        _ = 2 ^ 53 := by rw [← pow_add]; congr 1; omega
    obtain ⟨m, mantissa⟩ := Nat.exists_eq_add_of_le low
    have digits : m < binade := by
      rw [binade_eq]
      omega
    refine ⟨(k - (52 - n.log2) + 1) * binade + m, ?_⟩
    rw [units_normal _ digits, binade_eq, ← mantissa, Nat.mul_assoc, ← pow_add,
      Nat.add_sub_cancel' (by omega)]

theorem one_dvd_units {r : Nat} (large : 2 ^ 52 * one ≤ units r) : one ∣ units r := by
  rw [← binade_eq] at large
  induction r using rank_cases with
  | subnormal m small =>
      rw [units_of_lt small] at large
      exact absurd (large.trans_lt small) (Nat.le_mul_of_pos_right binade one_pos).not_gt
  | normal e m digits =>
      rw [units_normal e digits, one_eq] at large ⊢
      have exponent : places ≤ e := by
        by_contra less
        have half : (binade + m) * 2 ^ e < binade * 2 ^ (e + 1) := by
          rw [Nat.pow_succ, Nat.mul_comm (2 ^ e), ← Nat.mul_assoc]
          exact Nat.mul_lt_mul_of_pos_right (by omega) (Nat.two_pow_pos e)
        have more : 2 ^ (e + 1) ≤ 2 ^ places := Nat.pow_le_pow_right (by decide) (by omega)
        exact absurd (large.trans_lt half) (Nat.mul_le_mul_left binade more).not_gt
      exact Dvd.dvd.mul_left (pow_dvd_pow 2 exponent) _

/-- A whole number at most a half away from a magnitude. -/
structure IsNear (r n : Nat) : Prop where
  low : 2 * units r ≤ (2 * n + 1) * one
  high : 2 * n * one ≤ 2 * units r + one

theorem IsNear.exists_units_eq {r n : Nat} (near : IsNear r n) (finite : r < infinityRank) :
    ∃ s, s < infinityRank ∧ units s = n * one := by
  obtain ⟨low, high⟩ := near
  have positive := one_pos
  rcases Nat.lt_or_ge (units r) (2 ^ 52 * one) with small | large
  · have few : n ≤ 2 ^ 52 := by
      by_contra more
      nlinarith
    obtain ⟨s, whole⟩ := Binary.exists_units_eq (n := n) (k := places) (by omega) (by decide)
    rw [← one_eq] at whole
    refine ⟨s, ?_, whole⟩
    obtain ⟨e, more, infinite⟩ : ∃ e, places < e ∧ infinityRank = (e + 1) * binade + 0 :=
      ⟨2046, by decide, rfl⟩
    rw [← units_strictMono.lt_iff_lt, whole, infinite, units_normal e (by decide), one_eq,
      Nat.add_zero, binade_eq]
    -- No power of this size is to be written out.
    generalize places = p at more ⊢
    calc n * 2 ^ p ≤ 2 ^ 52 * 2 ^ p := Nat.mul_le_mul_right _ few
      _ < 2 ^ 52 * 2 ^ e := (Nat.mul_lt_mul_left (Nat.two_pow_pos 52)).mpr
          (Nat.pow_lt_pow_right (by decide) more)
  · obtain ⟨k, whole⟩ := one_dvd_units large
    obtain rfl : n = k := by
      rw [whole] at low high
      have : n < k + 1 := by nlinarith
      have : k < n + 1 := by nlinarith
      omega
    exact ⟨r, finite, whole.trans (Nat.mul_comm one n)⟩

theorem IsNear.rankOfNat {r n : Nat} (near : IsNear r n) (finite : r < infinityRank) :
    rankOfNat n < infinityRank ∧ units (rankOfNat n) = n * one := by
  obtain ⟨s, small, whole⟩ := near.exists_units_eq finite
  have same : Binary.rankOfNat n = s := by
    rw [Binary.rankOfNat, ← whole, rankOfRatio_units, min_eq_right small.le]
  rw [same]
  exact ⟨small, whole⟩

theorem IsNear.value_ofRank {r n : Nat} (near : IsNear r n) (finite : r < infinityRank)
    (negative : Bool) :
    value (ofRank negative (Binary.rankOfNat n)) = (if negative then -1 else 1) * n := by
  obtain ⟨small, whole⟩ := near.rankOfNat finite
  rw [value, isNegative_ofRank negative small, rank_ofRank negative small, whole, one_eq]
  push_cast
  rw [mul_div_cancel_right₀ _ (by positivity)]

/-! The quotient that rounding takes, over any unit. -/

section Quotient

variable {u o n : Nat}

theorem floor_add_half {u n : ℤ} (positive : 0 < o) (low : 2 * o * n ≤ 2 * u + o)
    (high : 2 * u + o < 2 * o * (n + 1)) : ⌊(u / o + 1 / 2 : ℚ)⌋ = n := by
  have unit : (0 : ℚ) < 2 * o := by positivity
  have joined : (u / o + 1 / 2 : ℚ) = (2 * u + o) / (2 * o) := by
    field_simp
  rw [joined, Int.floor_eq_iff, le_div_iff₀ unit, div_lt_iff₀ unit, mul_comm _ (2 * o : ℚ),
    mul_comm _ (2 * o : ℚ)]
  exact ⟨mod_cast low, mod_cast high⟩

theorem floor_up (positive : 0 < o) (quotient : (2 * u + o) / (2 * o) = n) :
    ⌊(u / o + 1 / 2 : ℚ)⌋ = n ∧ 2 * u ≤ (2 * n + 1) * o ∧ 2 * n * o ≤ 2 * u + o := by
  have parts := Nat.div_add_mod (2 * u + o) (2 * o)
  have rest := Nat.mod_lt (2 * u + o) (Nat.mul_pos two_pos positive)
  rw [quotient] at parts
  have low : 2 * o * n ≤ 2 * u + o := by omega
  have high : 2 * u + o < 2 * o * (n + 1) := by linarith
  refine ⟨floor_add_half positive (mod_cast low) (mod_cast high), ?_, ?_⟩ <;> linarith

theorem floor_down (positive : 0 < o) (quotient : (2 * u + o - 1) / (2 * o) = n) :
    ⌊(-u / o + 1 / 2 : ℚ)⌋ = -n ∧ 2 * u ≤ (2 * n + 1) * o ∧ 2 * n * o ≤ 2 * u + o := by
  have parts := Nat.div_add_mod (2 * u + o - 1) (2 * o)
  have rest := Nat.mod_lt (2 * u + o - 1) (Nat.mul_pos two_pos positive)
  rw [quotient] at parts
  have low : 2 * o * n < 2 * u + o := by omega
  have high : 2 * u + o ≤ 2 * o * n + 2 * o := by omega
  have floor : ⌊(((-u : ℤ) : ℚ) / o + 1 / 2 : ℚ)⌋ = -n := by
    apply floor_add_half positive
    · linarith
    · linarith
  refine ⟨by simpa using floor, ?_, ?_⟩ <;> linarith

end Quotient

theorem exists_roundHalfUp_eq (finite : isFinite x = true) (nonzero : rank x ≠ 0) :
    ∃ n, IsNear (rank x) n ∧
      roundHalfUp x = ofRank (isNegative x && decide (n ≠ 0)) (rankOfNat n) ∧
      ⌊value x + 1 / 2⌋ = (if isNegative x then -1 else 1) * (n : ℤ) := by
  have small : rank x < infinityRank := of_decide_eq_true finite
  have scale : (2 ^ places : ℚ) = (one : Nat) := by
    rw [one_eq]
    push_cast
    rfl
  rw [roundHalfUp, if_neg (by omega), value, scale]
  cases isNegative x with
  | true =>
      obtain ⟨n, quotient⟩ : ∃ n, (2 * units (rank x) + one - 1) / (2 * one) = n := ⟨_, rfl⟩
      obtain ⟨floor, low, high⟩ := floor_down one_pos quotient
      refine ⟨n, ⟨low, high⟩, ?_, ?_⟩
      · simp only [quotient, if_true, Bool.true_and]
      · simpa [neg_div] using floor
  | false =>
      obtain ⟨n, quotient⟩ : ∃ n, (2 * units (rank x) + one) / (2 * one) = n := ⟨_, rfl⟩
      obtain ⟨floor, low, high⟩ := floor_up one_pos quotient
      refine ⟨n, ⟨low, high⟩, ?_, ?_⟩
      · simp [quotient, ofNat]
      · simpa using floor

theorem isFinite_roundHalfUp (x : Float) : isFinite (roundHalfUp x) = isFinite x := by
  by_cases rounds : isFinite x = true ∧ rank x ≠ 0
  · obtain ⟨finite, nonzero⟩ := rounds
    obtain ⟨n, near, rounded, -⟩ := exists_roundHalfUp_eq finite nonzero
    rw [rounded, finite]
    exact isFinite_ofRank _ (near.rankOfNat (of_decide_eq_true finite)).1
  · rw [isFinite, decide_eq_true_eq, not_and_or, not_lt, not_not] at rounds
    rw [roundHalfUp, if_pos rounds.symm]

/-- A finite double is rounded to the greatest whole number at most a half above it. -/
theorem value_roundHalfUp (finite : isFinite x = true) :
    value (roundHalfUp x) = ⌊value x + 1 / 2⌋ := by
  by_cases zero : rank x = 0
  · rw [roundHalfUp, if_pos (.inl zero), value_eq_zero_iff.mpr zero]
    norm_num
  · obtain ⟨n, near, rounded, floor⟩ := exists_roundHalfUp_eq finite zero
    rw [rounded, near.value_ofRank (of_decide_eq_true finite), floor]
    -- Zero has no sign, and any other whole number that of the double.
    by_cases none : n = 0
    · simp [none]
    · cases isNegative x <;> simp [none]

theorem roundHalfUp_roundHalfUp (x : Float) : roundHalfUp (roundHalfUp x) = roundHalfUp x := by
  by_cases rounds : isFinite (roundHalfUp x) = true ∧ rank (roundHalfUp x) ≠ 0
  · obtain ⟨finite, nonzero⟩ := rounds
    apply eq_of_value_eq _ nonzero
    have whole := value_roundHalfUp ((isFinite_roundHalfUp x).symm.trans finite)
    rw [value_roundHalfUp finite, whole]
    norm_num
  · rw [isFinite, decide_eq_true_eq, not_and_or, not_lt, not_not] at rounds
    rw [roundHalfUp, if_pos rounds.symm]

theorem roundHalfUp_unsigned_roundHalfUp (x : Float) :
    roundHalfUp (unsigned (roundHalfUp x)) = unsigned (roundHalfUp x) := by
  rw [unsigned]
  split
  next => decide +kernel
  next => exact roundHalfUp_roundHalfUp x

theorem truncate_eq_floor (x : Float) : truncate x = ⌊|value x|⌋₊ := by
  have whole := Nat.floor_div_eq_div (K := ℚ) (units (rank x)) (2 ^ places)
  rw [Nat.cast_pow, Nat.cast_ofNat] at whole
  rw [abs_value, truncate, one_eq, whole]

end Tracery.Binary
