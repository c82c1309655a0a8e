import Mathlib.Algebra.Ring.Parity
import Mathlib.Data.Nat.Find
import QuoteLisp.Number.Power
import QuoteLisp.Proofs.Number.Wrapping

/-!
# Powers are exact up to wrapping

Repeated squaring goes in rounds. A round halves the exponent and keeps, up to wrapping, the product
of the result so far with the power that is still to come. So the rounds end, after 63 of them at
most, and what has become of the result then is the power that was asked for.

For negative exponents there is nothing to compute: one divided by a power is less than one, unless
the base is a unit.
-/

namespace QuoteLisp

/-! ## Rounds of squaring -/

/-- Where repeated squaring stands: the result so far, the base that is left to be raised and the
exponent that is left. -/
structure Squaring where
  result : Int64
  base : Int64
  exponent : Nat

namespace Squaring

/-- One round of squaring. -/
def round (s : Squaring) : Squaring :=
  ⟨if s.exponent % 2 = 1 then s.result * s.base else s.result, s.base * s.base, s.exponent / 2⟩

/-- The integer that the result is to become, up to wrapping. -/
def goal (s : Squaring) : Int :=
  s.result.toInt * s.base.toInt ^ s.exponent

/-- A round keeps the goal. -/
theorem goal_round_modEq (s : Squaring) : s.round.goal ≡ s.goal [ZMOD 2 ^ 64] := by
  have hbase : (s.base * s.base).toInt ≡ s.base.toInt * s.base.toInt [ZMOD 2 ^ 64] :=
    (wraps_toInt s.base).mul (wraps_toInt s.base)
  have hpower := hbase.pow (s.exponent / 2)
  by_cases hodd : s.exponent % 2 = 1
  · have hresult : (s.result * s.base).toInt ≡ s.result.toInt * s.base.toInt [ZMOD 2 ^ 64] :=
      (wraps_toInt s.result).mul (wraps_toInt s.base)
    have hexponent : s.exponent = 2 * (s.exponent / 2) + 1 := by omega
    have hgoal : s.goal
        = s.result.toInt * s.base.toInt * (s.base.toInt * s.base.toInt) ^ (s.exponent / 2) := by
      rw [goal, ← pow_two, ← pow_mul, mul_assoc, ← pow_succ', ← hexponent]
    rw [hgoal, goal, round, if_pos hodd]
    exact hresult.mul hpower
  · have hexponent : s.exponent = 2 * (s.exponent / 2) := by omega
    have hgoal : s.goal = s.result.toInt * (s.base.toInt * s.base.toInt) ^ (s.exponent / 2) := by
      rw [goal, ← pow_two, ← pow_mul, ← hexponent]
    rw [hgoal, goal, round, if_neg hodd]
    exact hpower.mul_left _

/-- Any number of rounds keeps the goal. -/
theorem goal_iterate_modEq (rounds : Nat) (s : Squaring) :
    (round^[rounds] s).goal ≡ s.goal [ZMOD 2 ^ 64] := by
  induction rounds generalizing s with
  | zero => exact Int.ModEq.refl _
  | succ rounds ih => exact (ih s.round).trans s.goal_round_modEq

theorem exponent_iterate (rounds : Nat) (s : Squaring) :
    (round^[rounds] s).exponent = s.exponent / 2 ^ rounds := by
  induction rounds generalizing s with
  | zero => rw [pow_zero, Nat.div_one, Function.iterate_zero_apply]
  | succ rounds ih =>
    rw [Function.iterate_succ_apply, ih, round, Nat.div_div_eq_div_mul, pow_succ']

theorem powerInto_round (s : Squaring) :
    powerInto s.round.result s.round.base s.round.exponent
      = powerInto s.result s.base s.exponent := by
  rw [powerInto.eq_def s.result]
  by_cases hzero : s.exponent = 0
  · rw [if_pos hzero, round, hzero, powerInto, if_pos rfl]
    rfl
  · rw [if_neg hzero]
    rfl

/-- The power is found by going round until nothing is left of the exponent. -/
theorem powerInto_eq_result_iterate {rounds : Nat} {s : Squaring}
    (h : (round^[rounds] s).exponent = 0) :
    powerInto s.result s.base s.exponent = (round^[rounds] s).result := by
  induction rounds generalizing s with
  | zero =>
    rw [Function.iterate_zero_apply] at h ⊢
    rw [powerInto, if_pos h]
  | succ rounds ih => exact s.powerInto_round.symm.trans (ih h)

/-- There is a first round after which nothing is left of an exponent. -/
theorem exists_iterate_exponent_eq_zero {limit : Nat} (s : Squaring) (h : s.exponent < 2 ^ limit) :
    ∃ rounds ≤ limit, (round^[rounds] s).exponent = 0 ∧
      ∀ earlier < rounds, (round^[earlier] s).exponent ≠ 0 := by
  have hends : (round^[limit] s).exponent = 0 := by
    rw [exponent_iterate, Nat.div_eq_of_lt h]
  have hexists : ∃ rounds, (round^[rounds] s).exponent = 0 := ⟨limit, hends⟩
  exact ⟨Nat.find hexists, Nat.find_min' hexists hends, Nat.find_spec hexists,
    fun _ hlt ↦ Nat.find_min hexists hlt⟩

end Squaring

/-! ## Natural exponents -/

/-- The power of a number is the one that the power of the integer wraps around to. -/
theorem wraps_naturalPower (base : Int64) (exponent : Nat) :
    Wraps (base.toInt ^ exponent) (naturalPower base exponent) := by
  obtain ⟨rounds, -, hends, -⟩ :=
    Squaring.exists_iterate_exponent_eq_zero ⟨1, base, exponent⟩ Nat.lt_two_pow_self
  have hgoal := Squaring.goal_iterate_modEq rounds ⟨1, base, exponent⟩
  rw [Squaring.goal, hends, pow_zero, mul_one, Squaring.goal, Int64.toInt_one, one_mul] at hgoal
  rw [naturalPower, Squaring.powerInto_eq_result_iterate hends]
  exact hgoal

theorem Wraps.pow {i : Int} {n : Int64} (h : Wraps i n) (exponent : Nat) :
    Wraps (i ^ exponent) (naturalPower n exponent) :=
  (wraps_naturalPower n exponent).trans (Int.ModEq.pow exponent h)

/-! ## Negative exponents -/

theorem one_tdiv_eq_zero {i : Int} (h : 1 < i.natAbs) : Int.tdiv 1 i = 0 := by
  rw [← Int.natAbs_eq_zero, Int.natAbs_tdiv, Int.natAbs_one]
  exact Nat.div_eq_of_lt h

/-- One divided by a power is truncated toward zero. -/
theorem reciprocalPower?_of_ne_zero {base : Int64} {exponent : Nat} (hbase : base ≠ 0)
    (hexponent : exponent ≠ 0) :
    ∃ n, reciprocalPower? base exponent = some n ∧
      n.toInt = Int.tdiv 1 (base.toInt ^ exponent) := by
  rw [reciprocalPower?, if_neg hbase]
  by_cases hone : base = 1
  · rw [if_pos hone, hone, Int64.toInt_one, one_pow]
    exact ⟨1, rfl, rfl⟩
  · by_cases hminus : base = -1
    · have hint : (-1 : Int64).toInt = -1 := rfl
      rw [if_neg hone, if_pos hminus, hminus, hint]
      by_cases heven : exponent % 2 = 0
      · rw [if_pos heven, (Nat.even_iff.mpr heven).neg_one_pow]
        exact ⟨1, rfl, rfl⟩
      · rw [if_neg heven, (Nat.not_even_iff_odd.mp fun h ↦ heven (Nat.even_iff.mp h)).neg_one_pow]
        exact ⟨-1, rfl, rfl⟩
    · rw [if_neg hone, if_neg hminus]
      -- the base is no unit, so the power is greater than one
      have hne {n : Int64} (h : base ≠ n) : base.toInt ≠ n.toInt := fun heq ↦
        h (Int64.toInt_inj.mp heq)
      have hlarge : 1 < base.toInt.natAbs := by
        have h0 : base.toInt ≠ 0 := hne hbase
        have h1 : base.toInt ≠ 1 := hne hone
        have h2 : base.toInt ≠ -1 := hne hminus
        omega
      have hpower : 1 < (base.toInt ^ exponent).natAbs := by
        rw [Int.natAbs_pow]
        exact Nat.one_lt_pow hexponent hlarge
      exact ⟨0, rfl, (one_tdiv_eq_zero hpower).symm⟩

end QuoteLisp
