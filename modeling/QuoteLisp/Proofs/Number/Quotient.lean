import QuoteLisp.Proofs.Number.Wrapping

/-!
# Quotients and remainders

The quotient of two numbers is the one that the quotient of the integers wraps around to, and it
wraps only when the least number is divided by `-1`. The quotient of any other number is exact and
not the least number either, so it can be divided again: dividing by one number after another is
dividing by their product.
-/

namespace QuoteLisp

/-- Dividing twice is dividing by the product. -/
theorem tdiv_tdiv (i j k : Int) : (i.tdiv j).tdiv k = i.tdiv (j * k) := by
  have hnat (l m n : Nat) : ((l : Int).tdiv m).tdiv n = (l : Int).tdiv (m * n) := by
    rw [← Int.ofNat_tdiv, ← Int.ofNat_tdiv, ← Nat.cast_mul, ← Int.ofNat_tdiv,
      Nat.div_div_eq_div_mul]
  -- a sign may be taken out of each of the three
  obtain ⟨l, rfl | rfl⟩ := i.eq_nat_or_neg <;> obtain ⟨m, rfl | rfl⟩ := j.eq_nat_or_neg <;>
    obtain ⟨n, rfl | rfl⟩ := k.eq_nat_or_neg <;>
    simp only [Int.neg_tdiv, Int.tdiv_neg, neg_mul, mul_neg, neg_neg, hnat]

theorem wraps_div (x y : Int64) : Wraps (x.toInt.tdiv y.toInt) (x / y) := by
  rw [Wraps, Int64.toInt_div]
  exact bmod_modEq _

/-- Quotient and remainder make up the dividend. -/
theorem toInt_div_mul_add_toInt_mod (x y : Int64) :
    (x / y).toInt * y.toInt + (x % y).toInt ≡ x.toInt [ZMOD 2 ^ 64] := by
  have hsum : (x / y).toInt * y.toInt + (x % y).toInt
      ≡ x.toInt.tdiv y.toInt * y.toInt + x.toInt.tmod y.toInt [ZMOD 2 ^ 64] := by
    rw [Int64.toInt_mod]
    exact ((wraps_div x y).mul_right _).add_right _
  rwa [Int.tdiv_mul_add_tmod] at hsum

theorem natAbs_toInt_mod_lt {y : Int64} (hy : y ≠ 0) (x : Int64) :
    (x % y).toInt.natAbs < y.toInt.natAbs := by
  have hint : y.toInt ≠ 0 := fun h ↦ hy (Int64.toInt_inj.mp h)
  rw [Int64.toInt_mod, Int.natAbs_tmod]
  exact Nat.mod_lt _ (Int.natAbs_pos.mpr hint)

theorem toInt_mod_eq_zero_or_sign_eq (x y : Int64) :
    (x % y).toInt = 0 ∨ (x % y).toInt.sign = x.toInt.sign := by
  rw [Int64.toInt_mod, Int.sign_tmod]
  by_cases hdvd : y.toInt ∣ x.toInt
  · exact .inl (Int.tmod_eq_zero_of_dvd hdvd)
  · exact .inr (if_neg hdvd)

/-- The quotient of any number but the least is exact, and it is not the least number either. -/
theorem toInt_div_of_ne_minValue {x : Int64} (hx : x ≠ Int64.minValue) (y : Int64) :
    (x / y).toInt = x.toInt.tdiv y.toInt ∧ x / y ≠ Int64.minValue := by
  have hexact : (x / y).toInt = x.toInt.tdiv y.toInt := Int64.toInt_div_of_ne_left x y hx
  refine ⟨hexact, fun heq ↦ hx (Int64.toInt_inj.mp ?_)⟩
  have hle := Int.natAbs_tdiv_le_natAbs x.toInt y.toInt
  rw [← hexact, heq] at hle
  have hmin : Int64.minValue.toInt = -2 ^ 63 := rfl
  have hlow := x.le_toInt
  have hhigh := x.toInt_lt
  omega

end QuoteLisp
