import Mathlib
import Tracery.Proofs.Decimal.Rank

/-! Which doubles are finite. There is one NaN, and a rank below that of infinity is the rank of
a finite double, with either sign. A finite double is positive if it has neither the sign nor the
rank of zero. -/

namespace Tracery.Binary

open Float.Model Float.Model.UnpackedFloat

theorem ofRank_rank (x : Float) : ofRank (isNegative x) (rank x) = x := by
  have small : x.toBits.toNat < 2 ^ 64 := x.toBits.toNat_lt
  have bits : (if isNegative x then signBit + rank x else rank x) = x.toBits.toNat := by
    simp only [isNegative, rank, signBit_eq, decide_eq_true_eq]
    split <;> omega
  -- This needs the lemmas on the bits of doubles, which no part of Mathlib imports by itself.
  rw [ofRank, bits, UInt64.ofNat_toNat, Float.ofBits_toBits]

theorem eq_of_isNaN {x : Float} (nan : isNaN x = true) : x = 0 / 0 := by
  have large : 2047 * 2 ^ 52 < x.toBits.toNat % 2 ^ 63 := by
    have large : infinityRank < rank x := of_decide_eq_true nan
    rwa [rank, signBit_eq, infinityRank, binade_eq] at large
  have small := x.toBits.toNat_lt
  have exponent : @unpackExponent Format.binary64 x.toBits.toBitVec = -1#11 := by
    apply BitVec.eq_of_toNat_eq
    simp [unpackExponent, Format.binary64, Nat.shiftRight_eq_div_pow]
    omega
  have mantissa : @unpackMantissa Format.binary64 x.toBits.toBitVec ≠ 0#52 := by
    intro zero
    have := congrArg BitVec.toNat zero
    simp [unpackMantissa, Format.binary64] at this
    omega
  have same : x.toBits.toBitVec = (0 / 0 : Float).toBits.toBitVec :=
    (x.toModel.valid.eq_packedNaN exponent mantissa).trans (by decide +kernel)
  rw [← Float.ofBits_toBits x, UInt64.toBitVec_inj.mp same, Float.ofBits_toBits]

theorem isNaN_of_isFinite {x : Float} (finite : isFinite x = true) : isNaN x = false := by
  have small : rank x < infinityRank := of_decide_eq_true finite
  exact decide_eq_false small.asymm

theorem infinite_cases {motive : Float → Prop} (nan : motive (0 / 0))
    (infinite : ∀ negative, motive (ofRank negative infinityRank)) {x : Float}
    (large : isFinite x = false) : motive x := by
  by_cases named : isNaN x = true
  · exact eq_of_isNaN named ▸ nan
  · have rank : rank x = infinityRank := by
      have above : ¬ rank x < infinityRank := of_decide_eq_false large
      have below : ¬ infinityRank < rank x := fun more => named (decide_eq_true more)
      omega
    rw [← ofRank_rank x, rank]
    exact infinite _

theorem unpackExponent_ne {bits : BitVec 64} (finite : bits.toNat % 2 ^ 63 < 2047 * 2 ^ 52) :
    @unpackExponent Format.binary64 bits ≠ -1#11 := by
  intro full
  have same := congrArg BitVec.toNat full
  simp [unpackExponent, Format.binary64, Nat.shiftRight_eq_div_pow] at same
  omega

theorem toNat_toBits_ofRank (negative : Bool) {r : Nat} (finite : r < infinityRank) :
    (ofRank negative r).toBits.toNat = if negative then signBit + r else r := by
  have small : r < 2047 * 2 ^ 52 := by rwa [infinityRank, binade_eq] at finite
  rw [ofRank]
  generalize spelled : (if negative then signBit + r else r) = n
  have bound : n < 2 ^ 64 ∧ n % 2 ^ 63 = r := by
    rw [signBit_eq] at spelled
    split at spelled <;> omega
  have exponent : @unpackExponent Format.binary64 (UInt64.ofNat n).toBitVec ≠ -1#11 := by
    apply unpackExponent_ne
    rw [UInt64.toNat_toBitVec, UInt64.toNat_ofNat', Nat.mod_eq_of_lt bound.1, bound.2]
    exact small
  have numeric : @isNaNBits Format.binary64 (UInt64.ofNat n).toBitVec = false :=
    decide_eq_false fun nan => exponent nan.1
  have kept : (Float.ofBits (UInt64.ofNat n)).toBits = UInt64.ofNat n := by
    apply UInt64.toBitVec_inj.mp
    refine (@pack_unpack Format.binary64 (UInt64.ofNat n).toBitVec (by decide)).trans ?_
    rw [numeric]
    rfl
  rw [kept, UInt64.toNat_ofNat', Nat.mod_eq_of_lt bound.1]

theorem lt_signBit {r : Nat} (finite : r < infinityRank) : r < signBit := by
  rw [infinityRank, binade_eq] at finite
  rw [signBit_eq]
  omega

theorem rank_ofRank (negative : Bool) {r : Nat} (finite : r < infinityRank) :
    rank (ofRank negative r) = r := by
  rw [rank, toNat_toBits_ofRank negative finite]
  cases negative
  · exact Nat.mod_eq_of_lt (lt_signBit finite)
  · exact (Nat.add_mod_left signBit r).trans (Nat.mod_eq_of_lt (lt_signBit finite))

theorem isNegative_ofRank (negative : Bool) {r : Nat} (finite : r < infinityRank) :
    isNegative (ofRank negative r) = negative := by
  rw [isNegative, toNat_toBits_ofRank negative finite]
  cases negative
  · exact decide_eq_false (lt_signBit finite).not_ge
  · exact decide_eq_true (Nat.le_add_right signBit r)

theorem isFinite_ofRank (negative : Bool) {r : Nat} (finite : r < infinityRank) :
    isFinite (ofRank negative r) = true := by
  rw [isFinite, rank_ofRank negative finite]
  exact decide_eq_true finite

theorem zero_lt_iff_rank {x : Float} (finite : isFinite x = true) :
    0 < x ↔ isNegative x = false ∧ rank x ≠ 0 := by
  have exponent : @unpackExponent Format.binary64 x.toBits.toBitVec ≠ -1#11 := by
    apply unpackExponent_ne
    have small : rank x < infinityRank := of_decide_eq_true finite
    rwa [rank, signBit_eq, infinityRank, binade_eq] at small
  have bound := x.toBits.toNat_lt
  have sign : @unpackSign Format.binary64 x.toBits.toBitVec = 0#1 ↔ isNegative x = false := by
    rw [isNegative, signBit_eq, decide_eq_false_iff_not, ← BitVec.toNat_inj]
    simp [unpackSign, Format.binary64, Nat.shiftRight_eq_div_pow]
    omega
  have zero : @unpackExponent Format.binary64 x.toBits.toBitVec = 0#11 ∧
      @unpackMantissa Format.binary64 x.toBits.toBitVec = 0#52 ↔ rank x = 0 := by
    rw [rank, signBit_eq, ← BitVec.toNat_inj, ← BitVec.toNat_inj]
    simp [unpackExponent, unpackMantissa, Format.binary64, Nat.shiftRight_eq_div_pow]
    omega
  have above (m : Nat) (e : Int) (h : 0 < m) :
      (UnpackedFloat.zero .positive).lt
        (.finite (.ofBitVec (@unpackSign Format.binary64 x.toBits.toBitVec)) m e h) = true ↔
      @unpackSign Format.binary64 x.toBits.toBitVec = 0#1 := by
    rw [Sign.ofBitVec]
    split <;> simp_all [UnpackedFloat.lt, UnpackedFloat.compare]
  change decide ((UnpackedFloat.zero .positive).lt
    (@UnpackedFloat.unpack Format.binary64 x.toBits.toBitVec) = true) = true ↔ _
  rw [decide_eq_true_iff, ← sign, ne_eq, ← zero, UnpackedFloat.unpack]
  simp only [if_neg exponent]
  split_ifs with e m
  · simp [e, m, UnpackedFloat.lt, UnpackedFloat.compare]
  · rw [above, and_iff_left fun zero => m zero.2]
  · rw [above, and_iff_left fun zero => e zero.1]

end Tracery.Binary

namespace Tracery.Decimal

theorem toFloat_shortest (tie : Tie) {x : Float} (finite : Binary.isFinite x = true) :
    (shortest tie (Binary.rank x)).toFloat (Binary.isNegative x) = x := by
  rw [toFloat, rank_shortest tie (of_decide_eq_true finite), Binary.ofRank_rank]

end Tracery.Decimal
