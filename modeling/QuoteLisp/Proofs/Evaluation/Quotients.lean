import Mathlib.Algebra.BigOperators.Group.List.Basic
import QuoteLisp.Proofs.Evaluation.Arithmetic
import QuoteLisp.Proofs.Number.Quotient

/-!
# Dividing by several numbers

Division and remainder refuse the divisor zero as soon as they get to it, and nothing else. A
dividend other than the least number is divided exactly at every step, so in the end it has been
divided by the product of the divisors, even if the product is too large for a number.
-/

namespace QuoteLisp

theorem foldl_tdiv (i : Int) (divisors : List Int64) :
    divisors.foldl (fun i divisor ↦ i.tdiv divisor.toInt) i
      = i.tdiv (divisors.map Int64.toInt).prod :=
  foldl_eq_op_foldr Int.tdiv_one tdiv_tdiv Int64.toInt i divisors

namespace Arithmetic

variable {operation : Arithmetic} {divisors : List Int64}

/-! ## The divisor zero -/

/-- The operations that divide. -/
def Divides (operation : Arithmetic) : Prop :=
  operation = div ∨ operation = mod

theorem Divides.ne_sub (h : operation.Divides) : operation ≠ sub := by
  obtain rfl | rfl := h <;> decide

theorem Divides.step_zero (h : operation.Divides) (x : Int64) :
    operation.step x 0 = .error .divisionByZero := by
  obtain rfl | rfl := h <;> rfl

theorem Divides.exists_step (h : operation.Divides) {y : Int64} (hy : y ≠ 0) (x : Int64) :
    ∃ n, operation.step x y = .ok n := by
  obtain rfl | rfl := h
  · exact ⟨x / y, if_neg hy⟩
  · exact ⟨x % y, if_neg hy⟩

theorem Divides.exists_foldlM (h : operation.Divides) (hne : 0 ∉ divisors) (x : Int64) :
    ∃ n, divisors.foldlM operation.step x = .ok n := by
  induction divisors generalizing x with
  | nil => exact ⟨x, rfl⟩
  | cons y divisors ih =>
    obtain ⟨hy, hdivisors⟩ := not_or.mp (mt List.mem_cons.mpr hne)
    obtain ⟨n, hn⟩ := h.exists_step (Ne.symm hy) x
    rw [List.foldlM_cons, hn]
    exact ih hdivisors n

/-- The divisor zero is the only one that is refused. -/
theorem Divides.returns_divisionByZero_iff (h : operation.Divides) (x : Int64)
    (divisors : List Int64) :
    operation.Returns ((x :: divisors).map .number) EvalError.divisionByZero.toValue
      ↔ 0 ∈ divisors := by
  constructor
  · intro hzero
    by_contra hne
    obtain ⟨n, hn⟩ := h.exists_foldlM hne x
    have hnumber := returns_number ((fold_cons h.ne_sub x divisors).trans hn)
    exact Value.noConfusion (hzero.unique hnumber)
  · intro hmem
    -- the divisors before the first zero are not refused
    obtain ⟨before, after, rfl, hbefore⟩ := List.eq_append_cons_of_mem hmem
    obtain ⟨n, hn⟩ := h.exists_foldlM hbefore x
    refine returns_error ?_
    rw [fold_cons h.ne_sub, List.foldlM_append, hn]
    change (after.foldlM operation.step =<< operation.step n 0) = _
    rw [h.step_zero]
    rfl

/-! ## Exact quotients -/

theorem exists_fold_div {x : Int64} (hx : x ≠ Int64.minValue) (hne : 0 ∉ divisors) :
    ∃ q, div.fold (x :: divisors) = .ok q ∧
      q.toInt = x.toInt.tdiv (divisors.map Int64.toInt).prod := by
  have hsteps : ∃ q, divisors.foldlM div.step x = .ok q ∧
      (q.toInt = divisors.foldl (fun i divisor ↦ i.tdiv divisor.toInt) x.toInt ∧
        q ≠ Int64.minValue) := by
    refine exists_foldlM_step (R := fun i q ↦ q.toInt = i ∧ q ≠ Int64.minValue) ?_ ⟨rfl, hx⟩
    rintro y hmem i q ⟨rfl, hq⟩
    have hy : y ≠ 0 := fun heq ↦ hne (heq ▸ hmem)
    exact ⟨q / y, if_neg hy, toInt_div_of_ne_minValue hq y⟩
  obtain ⟨q, hfold, hexact, -⟩ := hsteps
  rw [foldl_tdiv] at hexact
  exact ⟨q, (fold_cons (by decide) x divisors).trans hfold, hexact⟩

/-- **Quotient and remainder.** A quotient times the divisor and the remainder together make up the
dividend up to wrapping, and the remainder is less than the divisor and has the sign of the dividend
unless it is zero. The least number divided by `-1` is itself, and nothing remains. With any number
of divisors, division and remainder are refused as a division by zero exactly when one of the
divisors is zero. If none is, then a dividend other than the least number is divided exactly by the
product of the divisors, truncated toward zero, in whichever order they are given. -/
theorem quotient_and_remainder :
    (∀ x y : Int64, y ≠ 0 → ∃ q r,
      div.Returns [.number x, .number y] (.number q) ∧
        mod.Returns [.number x, .number y] (.number r) ∧
        q.toInt * y.toInt + r.toInt ≡ x.toInt [ZMOD 2 ^ 64] ∧
        r.toInt.natAbs < y.toInt.natAbs ∧ (r.toInt = 0 ∨ r.toInt.sign = x.toInt.sign) ∧
        (x = Int64.minValue → y = -1 → q = Int64.minValue ∧ r = 0)) ∧
    (∀ (x : Int64) (divisors : List Int64),
      (div.Returns ((x :: divisors).map .number) EvalError.divisionByZero.toValue
        ↔ 0 ∈ divisors) ∧
      (mod.Returns ((x :: divisors).map .number) EvalError.divisionByZero.toValue
        ↔ 0 ∈ divisors)) ∧
    ∀ (x : Int64) (divisors : List Int64), x ≠ Int64.minValue → 0 ∉ divisors →
      ∃ q : Int64, q.toInt = x.toInt.tdiv (divisors.map Int64.toInt).prod ∧
        ∀ others : List Int64, others.Perm divisors →
          div.Returns ((x :: others).map .number) (.number q) := by
  refine ⟨fun x y hy ↦ ?_, fun x divisors ↦ ?_, fun x divisors hx hne ↦ ?_⟩
  · have hdiv : div.fold [x, y] = .ok (x / y) := (bind_pure (div.step x y)).trans (if_neg hy)
    have hmod : mod.fold [x, y] = .ok (x % y) := (bind_pure (mod.step x y)).trans (if_neg hy)
    refine ⟨x / y, x % y, returns_number hdiv, returns_number hmod,
      toInt_div_mul_add_toInt_mod x y, natAbs_toInt_mod_lt hy x,
      toInt_mod_eq_zero_or_sign_eq x y, ?_⟩
    rintro rfl rfl
    exact ⟨by decide, by decide⟩
  · have hdiv : div.Divides := .inl rfl
    have hmod : mod.Divides := .inr rfl
    exact ⟨hdiv.returns_divisionByZero_iff x divisors, hmod.returns_divisionByZero_iff x divisors⟩
  · obtain ⟨q, hfold, hexact⟩ := exists_fold_div hx hne
    refine ⟨q, hexact, fun others hperm ↦ ?_⟩
    obtain ⟨q', hfold', hexact'⟩ := exists_fold_div hx (mt hperm.mem_iff.mp hne)
    rw [(hperm.map Int64.toInt).prod_eq, ← hexact] at hexact'
    rw [← Int64.toInt_inj.mp hexact']
    exact returns_number hfold'

/-- The least number, a product of divisors that is too large for a number, and a zero after the
dividend has been used up. -/
theorem quotient_and_remainder_at_the_limits :
    div.Returns [.number Int64.minValue, .number (-1)] (.number Int64.minValue) ∧
      mod.Returns [.number Int64.minValue, .number (-1)] (.number 0) ∧
      mod.Returns [.number 1, .number 2, .number 0] EvalError.divisionByZero.toValue ∧
      div.Returns [.number Int64.maxValue, .number (-1), .number Int64.maxValue] (.number (-1)) ∧
      div.Returns [.number (-7), .number 4000000000, .number 4000000000] (.number 0) := by
  obtain ⟨hpair, hzero, hlist⟩ := quotient_and_remainder
  obtain ⟨q, r, hq, hr, -, -, -, hleast⟩ := hpair Int64.minValue (-1) (by decide)
  obtain ⟨rfl, rfl⟩ := hleast rfl rfl
  refine ⟨hq, hr, (hzero 1 [2, 0]).2.mpr (by decide), ?_, ?_⟩
  · obtain ⟨q, hexact, hresult⟩ := hlist Int64.maxValue [Int64.maxValue, -1] (by decide) (by decide)
    obtain rfl := Int64.toInt_inj.mp (hexact.trans (by decide : _ = (-1 : Int64).toInt))
    exact hresult [-1, Int64.maxValue] (by decide)
  · obtain ⟨q, hexact, hresult⟩ := hlist (-7) [4000000000, 4000000000] (by decide) (by decide)
    obtain rfl := Int64.toInt_inj.mp (hexact.trans (by decide : _ = (0 : Int64).toInt))
    exact hresult _ (List.Perm.refl _)

end Arithmetic

end QuoteLisp
