import Mathlib.RingTheory.ZMod.UnitsCyclic
import Tracery.Sequence.Steps

/-! The states of the generator. A step multiplies the phase of a state, an odd residue modulo
`2 ^ 45`, by the multiplier, so that the states go on for as long as the powers of the multiplier do
before they repeat. -/

namespace Tracery

theorem toNat_nextState (state : UInt64) :
    (nextState state).toNat = (state.toNat * 8193 + 1987) % 2 ^ 32 := by
  -- A word that wraps around keeps its lower half.
  have lower (n : Nat) : n % 2 ^ 64 % 2 ^ 32 = n % 2 ^ 32 :=
    Nat.mod_mod_of_dvd n (pow_dvd_pow 2 (by decide))
  have multiplier : (8193 : UInt64).toNat = 8193 := rfl
  have increment : (1987 : UInt64).toNat = 1987 := rfl
  have modulus : (4294967296 : UInt64).toNat = 2 ^ 32 := rfl
  rw [nextState, UInt64.toNat_mod, UInt64.toNat_add, UInt64.toNat_mul, multiplier, increment,
    modulus, Nat.mod_add_mod, lower]

theorem toNat_nextState_lt (state : UInt64) : (nextState state).toNat < 2 ^ 32 := by
  rw [toNat_nextState]
  exact Nat.mod_lt _ (by decide)

/-! The phase of a number. A step takes `x` to `a x + c`, and with it `(a - 1) x + c` to `a` times
as much. As `a - 1` is `2 ^ 13`, this is known modulo `2 ^ 45` where `x` is known modulo
`2 ^ 32`. -/

def phase (n : Nat) : ZMod (2 ^ 45) := (n * 8192 + 1987 : Nat)

theorem phase_eq_iff {m n : Nat} : phase m = phase n ↔ m ≡ n [MOD 2 ^ 32] := by
  have size : 2 ^ 45 = 2 ^ 32 * 8192 := by norm_num
  rw [phase, phase, ZMod.natCast_eq_natCast_iff, size]
  constructor
  · intro same
    exact (same.add_right_cancel' 1987).mul_right_cancel' (by decide)
  · intro same
    exact (same.mul_right' 8192).add_right 1987

theorem isUnit_phase (n : Nat) : IsUnit (phase n) := by
  have odd : Odd (n * 8192 + 1987) := ⟨n * 4096 + 993, by ring⟩
  rw [phase, ZMod.isUnit_iff_coprime]
  exact odd.coprime_two_right.pow_right 45

theorem phase_step (n : Nat) : phase (n * 8193 + 1987) = 8193 * phase n := by
  rw [phase, phase]
  push_cast
  ring

theorem phase_nextState (state : UInt64) :
    phase (nextState state).toNat = 8193 * phase state.toNat := by
  rw [← phase_step, phase_eq_iff, toNat_nextState]
  exact Nat.mod_modEq _ _

theorem phase_iterate (seed : UInt64) (n : Nat) :
    phase (nextState^[n] seed).toNat = 8193 ^ n * phase seed.toNat := by
  induction n with
  | zero => simp
  | succ n ih =>
      rw [Function.iterate_succ_apply', phase_nextState, ih, pow_succ' 8193 n, mul_assoc]

theorem orderOf_multiplier : orderOf (8193 : ZMod (2 ^ 45)) = 2 ^ 32 := by
  have order := ZMod.orderOf_one_add_mul_prime_pow Nat.prime_two 13 (by decide) (by decide) 1
    (by decide) 32
  have multiplier : (1 + 2 ^ 13 * (1 : ℤ) : ZMod (2 ^ 45)) = 8193 := by norm_num
  exact multiplier ▸ order

theorem isOfFinOrder_multiplier : IsOfFinOrder (8193 : ZMod (2 ^ 45)) := by
  rw [← orderOf_pos_iff, orderOf_multiplier]
  exact Nat.two_pow_pos 32

theorem nextState_eq_iff {state other : UInt64} :
    nextState state = nextState other ↔ state.toNat ≡ other.toNat [MOD 2 ^ 32] := by
  have reduced : nextState state = nextState other ↔
      (nextState state).toNat ≡ (nextState other).toNat [MOD 2 ^ 32] := by
    constructor
    · intro same
      rw [same]
    · intro same
      exact UInt64.toNat_inj.mp
        (same.eq_of_lt_of_lt (toNat_nextState_lt state) (toNat_nextState_lt other))
  rw [reduced, ← phase_eq_iff, phase_nextState, phase_nextState,
    isOfFinOrder_multiplier.isUnit.mul_right_inj, phase_eq_iff]

theorem iterate_nextState_eq_iff (seed : UInt64) (i j : Nat) :
    nextState^[i + 1] seed = nextState^[j + 1] seed ↔ i ≡ j [MOD 2 ^ 32] := by
  rw [Function.iterate_succ_apply', Function.iterate_succ_apply', nextState_eq_iff, ← phase_eq_iff,
    phase_iterate, phase_iterate, (isUnit_phase seed.toNat).mul_left_inj,
    isOfFinOrder_multiplier.pow_eq_pow_iff_modEq, orderOf_multiplier]

theorem states_eq_map (seed : UInt64) (count : Nat) :
    states seed count = (List.range count).map fun i => nextState^[i + 1] seed := by
  induction count generalizing seed with
  | zero => rfl
  | succ count ih =>
      rw [states, ih, List.range_succ_eq_map, List.map_cons, List.map_map]
      rfl

theorem states_add (seed : UInt64) (m n : Nat) :
    states seed (m + n) = states seed m ++ states (nextState^[m] seed) n := by
  induction m generalizing seed with
  | zero => rw [Nat.zero_add]; rfl
  | succ m ih => rw [Nat.succ_add, states, ih]; rfl

theorem take_states (seed : UInt64) {m n : Nat} (fewer : m ≤ n) :
    (states seed n).take m = states seed m := by
  obtain ⟨more, rfl⟩ := Nat.exists_eq_add_of_le fewer
  rw [states_add, List.take_left' (length_states seed m)]

theorem states_congr {seed other : UInt64} (same : seed.toNat ≡ other.toNat [MOD 2 ^ 32])
    (count : Nat) : states seed count = states other count := by
  cases count with
  | zero => rfl
  | succ count => rw [states, states, nextState_eq_iff.mpr same]

theorem nodup_states (seed : UInt64) : (states seed (2 ^ 32)).Nodup := by
  rw [states_eq_map]
  apply List.nodup_range.map_on
  intro i before j after same
  exact ((iterate_nextState_eq_iff seed i j).mp same).eq_of_lt_of_lt
    (List.mem_range.mp before) (List.mem_range.mp after)

theorem perm_range_states (seed : UInt64) :
    ((states seed (2 ^ 32)).map UInt64.toNat).Perm (List.range (2 ^ 32)) := by
  have below : (states seed (2 ^ 32)).map UInt64.toNat ⊆ List.range (2 ^ 32) := by
    intro n member
    rw [states_eq_map, List.map_map, List.mem_map] at member
    obtain ⟨i, -, rfl⟩ := member
    rw [List.mem_range, Function.comp_apply, Function.iterate_succ_apply']
    exact toNat_nextState_lt _
  have distinct := (nodup_states seed).map fun _ _ => UInt64.toNat_inj.mp
  -- There are as many states as there are numbers, so that none of these is left out.
  apply (List.subperm_of_subset distinct below).perm_of_length_le
  rw [List.length_map, length_states, List.length_range]

/-- The generator has full period. Whatever the seed, its first `2 ^ 32` states are all the
numbers below `2 ^ 32`, each of them once; from then on they come again in the same order, and
states are the same only if they are a multiple of `2 ^ 32` steps apart. -/
theorem states_full_period (seed : UInt64) :
    (∀ count, states seed count = (List.range count).map fun i => nextState^[i + 1] seed) ∧
      (states seed (2 ^ 32)).Nodup ∧
      (∀ state : UInt64, state ∈ states seed (2 ^ 32) ↔ state.toNat < 2 ^ 32) ∧
      (∀ count, states seed (2 ^ 32 + count) = states seed (2 ^ 32) ++ states seed count) ∧
      ∀ i j, nextState^[i + 1] seed = nextState^[j + 1] seed ↔ i ≡ j [MOD 2 ^ 32] := by
  refine ⟨states_eq_map seed, nodup_states seed, fun state => ?_, fun count => ?_,
    iterate_nextState_eq_iff seed⟩
  · rw [← List.mem_map_of_injective fun _ _ => UInt64.toNat_inj.mp,
      (perm_range_states seed).mem_iff, List.mem_range]
  · have back : (nextState^[2 ^ 32] seed).toNat ≡ seed.toNat [MOD 2 ^ 32] := by
      rw [← phase_eq_iff, phase_iterate, ← orderOf_multiplier, pow_orderOf_eq_one, one_mul]
    rw [states_add, states_congr back]

/-- Random values depend on the seed modulo `2 ^ 32` alone, and fewer of them are the first of
more. -/
theorem random_take (low high : Float) (whole : Bool) {seed other : UInt64}
    (same : seed.toNat ≡ other.toNat [MOD 2 ^ 32]) {m n : Nat} (fewer : m ≤ n) :
    random low high ⟨seed, m, whole⟩ = (random low high ⟨other, n, whole⟩).take m ∧
      (random low high ⟨seed, m, whole⟩).length = m := by
  constructor
  · rw [random, random, ← List.map_take, take_states other fewer, states_congr same]
  · rw [random, List.length_map, length_states]

/-- Of these two seeds only the second is so large that its product with the multiplier wraps
around. -/
theorem random_take_wrapped :
    let other : UInt64 := 18446744069414584321
    2 ^ 64 ≤ other.toNat * 8193 ∧ (1 : UInt64).toNat ≡ other.toNat [MOD 2 ^ 32] ∧ 1 ≤ 2 ∧
      random 0 1 ⟨1, 1, false⟩ = (random 0 1 ⟨other, 2, false⟩).take 1 := by
  intro other
  have same : (1 : UInt64).toNat ≡ other.toNat [MOD 2 ^ 32] := by decide
  exact ⟨by decide, same, by decide, (random_take 0 1 false same (by decide)).1⟩

end Tracery
