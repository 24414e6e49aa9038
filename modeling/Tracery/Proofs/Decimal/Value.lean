import Tracery.Proofs.Decimal.Finite

/-! The numbers that finite doubles are. Each is a whole multiple of the least positive
double, they are in the order of their ranks, and only zero has two doubles. -/

namespace Tracery.Binary

variable {x y : Float}

theorem units_of_lt {r : Nat} (subnormal : r < binade) : units r = r := by
  rw [units, if_pos subnormal]

theorem units_normal (e : Nat) {m : Nat} (digits : m < binade) :
    units ((e + 1) * binade + m) = (binade + m) * 2 ^ e := by
  have normal : ¬ (e + 1) * binade + m < binade := by
    rw [Nat.succ_mul]
    omega
  have mantissa : ((e + 1) * binade + m) % binade = m := by
    rw [Nat.mul_add_mod', Nat.mod_eq_of_lt digits]
  have exponent : ((e + 1) * binade + m) / binade = e + 1 := by
    rw [Nat.add_comm, Nat.add_mul_div_right _ _ (by decide), Nat.div_eq_of_lt digits,
      Nat.zero_add]
  rw [units, if_neg normal, mantissa, exponent, Nat.add_sub_cancel, Nat.shiftLeft_eq]

theorem rank_cases {motive : Nat → Prop} (subnormal : ∀ m, m < binade → motive m)
    (normal : ∀ e m, m < binade → motive ((e + 1) * binade + m)) (r : Nat) : motive r := by
  rcases Nat.lt_or_ge r binade with small | large
  · exact subnormal r small
  · obtain ⟨e, exponent⟩ := Nat.exists_eq_succ_of_ne_zero
      (Nat.div_pos large (by decide)).ne'
    have parts := Nat.div_add_mod' r binade
    rw [exponent] at parts
    exact parts ▸ normal e _ (Nat.mod_lt r (by decide))

theorem units_strictMono : StrictMono units := by
  apply strictMono_nat_of_lt_succ
  intro r
  induction r using rank_cases with
  | subnormal m small =>
      rcases Nat.lt_or_ge (m + 1) binade with more | full
      · rw [units_of_lt small, units_of_lt more]
        exact Nat.lt_succ_self m
      · -- The step to the first normal magnitude.
        have last : m + 1 = (0 + 1) * binade + 0 := by omega
        rw [units_of_lt small, last, units_normal 0 (by decide)]
        omega
  | normal e m digits =>
      have positive := Nat.two_pow_pos e
      rcases Nat.lt_or_ge (m + 1) binade with more | full
      · rw [Nat.add_assoc, units_normal e digits, units_normal e more]
        exact Nat.mul_lt_mul_of_pos_right (by omega) positive
      · -- The step into the next binade.
        have last : (e + 1) * binade + m + 1 = (e + 1 + 1) * binade + 0 := by
          rw [Nat.succ_mul (e + 1)]
          omega
        rw [last, units_normal e digits, units_normal (e + 1) (by decide), Nat.add_zero,
          Nat.pow_succ, Nat.mul_comm (2 ^ e) 2, ← Nat.mul_assoc]
        exact Nat.mul_lt_mul_of_pos_right (by omega) positive

def value (x : Float) : ℚ := (if isNegative x then -1 else 1) * (units (rank x) / 2 ^ places)

theorem abs_value (x : Float) : |value x| = units (rank x) / 2 ^ places := by
  have sign : |(if isNegative x then -1 else 1 : ℚ)| = 1 := by
    split <;> simp
  rw [value, abs_mul, sign, one_mul, abs_of_nonneg (by positivity)]

theorem abs_value_of_positive (positive : isNegative x = false) : |value x| = value x := by
  rw [abs_value, value, positive]
  simp

theorem abs_value_lt_iff : |value x| < |value y| ↔ rank x < rank y := by
  rw [abs_value, abs_value, div_lt_div_iff_of_pos_right (by positivity), Nat.cast_lt,
    units_strictMono.lt_iff_lt]

theorem abs_value_le_iff : |value x| ≤ |value y| ↔ rank x ≤ rank y := by
  rw [← not_lt, abs_value_lt_iff, not_lt]

theorem value_eq_zero_iff : value x = 0 ↔ rank x = 0 := by
  have zero : units (rank x) = 0 ↔ rank x = 0 :=
    units_strictMono.injective.eq_iff (a := rank x) (b := 0)
  rw [← abs_eq_zero, abs_value, div_eq_zero_iff, Nat.cast_eq_zero, zero,
    or_iff_left (by positivity)]

theorem value_pos_iff : 0 < value x ↔ isNegative x = false ∧ rank x ≠ 0 := by
  rw [ne_eq, ← value_eq_zero_iff]
  cases sign : isNegative x with
  | false =>
      have above : 0 ≤ value x := abs_value_of_positive sign ▸ abs_nonneg (value x)
      simp [above.lt_iff_ne']
  | true =>
      have below : value x = -|value x| := by
        rw [abs_value, value, sign]
        simp
      have size := abs_nonneg (value x)
      refine iff_of_false ?_ (by simp)
      linarith

theorem zero_lt_iff (finite : isFinite x = true) : 0 < x ↔ 0 < value x := by
  rw [zero_lt_iff_rank finite, value_pos_iff]

theorem eq_of_value_eq (same : value x = value y) (nonzero : rank y ≠ 0) : x = y := by
  have ranks : rank x = rank y := by
    apply le_antisymm
    · rw [← abs_value_le_iff, same]
    · rw [← abs_value_le_iff, same]
  have signs : isNegative x = isNegative y := by
    have factor := right_ne_zero_of_mul (mt value_eq_zero_iff.mp nonzero)
    rw [value, value, ranks, mul_left_inj' factor] at same
    revert same
    cases isNegative x <;> cases isNegative y <;> norm_num
  rw [← ofRank_rank x, ← ofRank_rank y, signs, ranks]

/-- A double, without the sign if it is zero. -/
def unsigned (x : Float) : Float := if x = -0 then 0 else x

theorem unsigned_of_rank_ne_zero (nonzero : rank x ≠ 0) : unsigned x = x := by
  rw [unsigned, if_neg]
  rintro rfl
  exact nonzero (by decide +kernel)

theorem unsigned_of_rank_eq_zero (zero : rank x = 0) : unsigned x = 0 := by
  rw [← ofRank_rank x, zero]
  cases isNegative x <;> decide +kernel

theorem unsigned_of_infinite (large : isFinite x = false) : unsigned x = x := by
  apply unsigned_of_rank_ne_zero
  intro zero
  rw [isFinite, zero] at large
  revert large
  decide

theorem unsigned_beq (finite : isFinite x = true) : (unsigned x == x) = true := by
  have number : x ≠ Float.nan := by
    rintro rfl
    revert finite
    decide +kernel
  rw [unsigned]
  split
  next zero =>
    rw [zero]
    decide +kernel
  next => exact Float.beq_self_iff.mpr number

end Tracery.Binary
