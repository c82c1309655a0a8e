import Mathlib.Algebra.BigOperators.Group.List.Basic
import QuoteLisp.Proofs.Evaluation.Arithmetic
import QuoteLisp.Proofs.Number.Power

/-!
# Powers of powers

Raising a number to several exponents, one after another, raises it to their product. As long as no
exponent is negative this is true of 64-bit numbers as well, up to wrapping, so the exponents may be
given in any order.
-/

namespace QuoteLisp

theorem foldl_pow (i : Int) (exponents : List Int64) :
    exponents.foldl (fun i exponent ↦ i ^ exponent.toInt.toNat) i
      = i ^ (exponents.map fun exponent ↦ exponent.toInt.toNat).prod :=
  foldl_eq_op_foldr pow_one (fun i m n ↦ (pow_mul i m n).symm) (fun exponent ↦ exponent.toInt.toNat)
    i exponents

namespace Arithmetic

theorem step_pow_of_nonneg {exponent : Int64} (h : 0 ≤ exponent) (base : Int64) :
    pow.step base exponent = .ok (naturalPower base exponent.toInt.toNat) := by
  rw [step, power?, if_neg (Int64.not_lt.mpr h)]
  rfl

theorem step_pow_of_neg {exponent : Int64} (h : exponent < 0) (base : Int64) :
    pow.step base exponent
      = (reciprocalPower? base exponent.toInt.natAbs).elim (.error .divisionByZero) .ok := by
  rw [step, power?, if_pos h]

theorem fold_pow {exponents : List Int64} (h : ∀ exponent ∈ exponents, 0 ≤ exponent)
    (base : Int64) :
    pow.fold (base :: exponents)
      = .ok (Int64.ofInt
          (base.toInt ^ (exponents.map fun exponent ↦ exponent.toInt.toNat).prod)) := by
  have hfold : exponents.foldlM pow.step base
      = .ok (Int64.ofInt
          (exponents.foldl (fun i exponent ↦ i ^ exponent.toInt.toNat) base.toInt)) :=
    foldlM_step_eq_ofInt
      (fun exponent hmem i x hx ↦ ⟨_, step_pow_of_nonneg (h exponent hmem) x, hx.pow _⟩) base
  rw [fold_cons (by decide), hfold, foldl_pow]

/-- **Powers are exact up to wrapping.** A power with a natural exponent is the number that the
power of the integers wraps around to. It is found in 63 rounds at most, and the first round after
which nothing is left of the exponent is the last. For a negative exponent the base zero is refused
as a division by zero, and for every other base the result is one divided by the power, truncated
toward zero. A base with any number of natural exponents returns the number that the power with
their product as exponent wraps around to, in whichever order they are given. -/
theorem pow_exact_up_to_wrapping :
    (∀ base exponent : Int64, 0 ≤ exponent → ∃ n,
      pow.step base exponent = .ok n ∧ Wraps (base.toInt ^ exponent.toInt.toNat) n ∧
        ∃ rounds ≤ 63,
          (Squaring.round^[rounds] ⟨1, base, exponent.toInt.toNat⟩).exponent = 0 ∧
          (∀ earlier < rounds,
            (Squaring.round^[earlier] ⟨1, base, exponent.toInt.toNat⟩).exponent ≠ 0) ∧
          (Squaring.round^[rounds] ⟨1, base, exponent.toInt.toNat⟩).result = n) ∧
    (∀ base exponent : Int64, exponent < 0 →
      (base = 0 → pow.step base exponent = .error .divisionByZero) ∧
      (base ≠ 0 → ∃ n, pow.step base exponent = .ok n ∧
        n.toInt = Int.tdiv 1 (base.toInt ^ exponent.toInt.natAbs))) ∧
    ∀ (base : Int64) (exponents : List Int64), (∀ exponent ∈ exponents, 0 ≤ exponent) →
      ∃ n, Wraps (base.toInt ^ (exponents.map fun exponent ↦ exponent.toInt.toNat).prod) n ∧
        ∀ others : List Int64, others.Perm exponents →
          pow.Returns ((base :: others).map .number) (.number n) := by
  refine ⟨fun base exponent h ↦ ?_, fun base exponent h ↦ ⟨fun hbase ↦ ?_, fun hbase ↦ ?_⟩,
    fun base exponents h ↦ ?_⟩
  · have hlt : exponent.toInt.toNat < 2 ^ 63 := by
      have hint := exponent.toInt_lt
      omega
    obtain ⟨rounds, hle, hends, hfirst⟩ :=
      Squaring.exists_iterate_exponent_eq_zero ⟨1, base, exponent.toInt.toNat⟩ hlt
    exact ⟨_, step_pow_of_nonneg h base, wraps_naturalPower base _, rounds, hle, hends, hfirst,
      (Squaring.powerInto_eq_result_iterate hends).symm⟩
  · rw [step_pow_of_neg h, hbase]
    rfl
  · have hexponent : exponent.toInt.natAbs ≠ 0 := by
      have hint : exponent.toInt < 0 := Int64.lt_iff_toInt_lt.mp h
      omega
    obtain ⟨n, hn, hexact⟩ := reciprocalPower?_of_ne_zero hbase hexponent
    rw [step_pow_of_neg h, hn]
    exact ⟨n, rfl, hexact⟩
  · refine ⟨_, wraps_ofInt _, fun others hperm ↦ returns_number ?_⟩
    rw [fold_pow fun exponent hmem ↦ h exponent (hperm.mem_iff.mp hmem),
      (hperm.map fun exponent ↦ exponent.toInt.toNat).prod_eq]

/-- A power that overflows, a reciprocal that does not round to zero, and exponents that are given
in the other order. -/
theorem pow_exact_up_to_wrapping_of_overflow :
    pow.step 3 41 = .ok (-420491770248316829) ∧
      pow.step (-1) Int64.minValue = .ok 1 ∧
      pow.step 0 (-1) = .error .divisionByZero ∧
      pow.Returns [.number 2, .number 3, .number 2] (.number 64) := by
  obtain ⟨hnatural, hnegative, hlist⟩ := pow_exact_up_to_wrapping
  refine ⟨?_, ?_, (hnegative 0 (-1) (by decide)).1 rfl, ?_⟩
  · obtain ⟨n, hstep, hn, -⟩ := hnatural 3 41 (by decide)
    rw [hstep, hn.unique (by decide : Wraps _ (-420491770248316829))]
  · obtain ⟨n, hstep, hn⟩ := (hnegative (-1) Int64.minValue (by decide)).2 (by decide)
    have heven : Even Int64.minValue.toInt.natAbs := ⟨2 ^ 62, rfl⟩
    have hpower : (-1 : Int64).toInt ^ Int64.minValue.toInt.natAbs = 1 := heven.neg_one_pow
    rw [hpower] at hn
    rw [hstep, Int64.toInt_inj.mp (hn.trans (by decide : Int.tdiv 1 1 = (1 : Int64).toInt))]
  · obtain ⟨n, hn, hresult⟩ := hlist 2 [2, 3] (by simp)
    obtain rfl := hn.unique (by decide : Wraps _ 64)
    exact hresult [3, 2] (by decide)

end Arithmetic

end QuoteLisp
