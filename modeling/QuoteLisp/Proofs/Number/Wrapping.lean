import Mathlib.Data.Int.ModEq
import Mathlib.Tactic.NormNum

/-!
# Wrapping around

A 64-bit number stands for the integers that differ from it by a multiple of `2 ^ 64`, and an
integer wraps around to one 64-bit number (`Wraps.unique`). Addition, subtraction and multiplication
of numbers follow those of the integers they stand for. So it makes no difference whether a
computation with these operations wraps at every step or once at the end.
-/

namespace QuoteLisp

/-- The integer wraps around to the number. -/
def Wraps (i : Int) (n : Int64) : Prop :=
  n.toInt ≡ i [ZMOD 2 ^ 64]

instance (i : Int) (n : Int64) : Decidable (Wraps i n) :=
  inferInstanceAs (Decidable (n.toInt % 2 ^ 64 = i % 2 ^ 64))

theorem bmod_modEq (i : Int) : i.bmod (2 ^ 64) ≡ i [ZMOD 2 ^ 64] :=
  Int.bmod_emod

variable {i j : Int} {m n : Int64}

theorem wraps_toInt (n : Int64) : Wraps n.toInt n :=
  Int.ModEq.refl _

/-- Every integer wraps around to a number. -/
theorem wraps_ofInt (i : Int) : Wraps i (Int64.ofInt i) := by
  rw [Wraps, Int64.toInt_ofInt]
  exact bmod_modEq i

/-- An integer wraps around to one number only. -/
theorem Wraps.unique (hm : Wraps i m) (hn : Wraps i n) : m = n := by
  have hmod : m.toInt % 2 ^ 64 = n.toInt % 2 ^ 64 := hm.trans hn.symm
  -- two numbers are less than the modulus apart
  have hmlow := m.le_toInt
  have hmhigh := m.toInt_lt
  have hnlow := n.le_toInt
  have hnhigh := n.toInt_lt
  exact Int64.toInt_inj.mp (by omega)

theorem Wraps.eq_ofInt (h : Wraps i n) : n = Int64.ofInt i :=
  h.unique (wraps_ofInt i)

theorem Wraps.add (hm : Wraps i m) (hn : Wraps j n) : Wraps (i + j) (m + n) := by
  rw [Wraps, Int64.toInt_add]
  exact (bmod_modEq _).trans (Int.ModEq.add hm hn)

theorem Wraps.sub (hm : Wraps i m) (hn : Wraps j n) : Wraps (i - j) (m - n) := by
  rw [Wraps, Int64.toInt_sub]
  exact (bmod_modEq _).trans (Int.ModEq.sub hm hn)

theorem Wraps.mul (hm : Wraps i m) (hn : Wraps j n) : Wraps (i * j) (m * n) := by
  rw [Wraps, Int64.toInt_mul]
  exact (bmod_modEq _).trans (Int.ModEq.mul hm hn)

theorem Wraps.neg (hm : Wraps i m) : Wraps (-i) (-m) := by
  rw [Wraps, Int64.toInt_neg]
  exact (bmod_modEq _).trans (Int.ModEq.neg hm)

end QuoteLisp
