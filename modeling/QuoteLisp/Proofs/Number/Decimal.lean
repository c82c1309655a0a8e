import QuoteLisp.Number.Decimal

/-!
# Reading written numbers

The decimal notation of a 64-bit number reads back as that number (`Decimal.read?_write`). The
digits of a natural number are digits, they are at least one, and their value is the number, so the
sign and the range are all that is left to look at.
-/

namespace QuoteLisp.Decimal

/-! ## Digits -/

theorem isDigit_digitChar : ∀ d < 10, (digitChar d).isDigit = true := by decide

theorem toNat_digitChar : ∀ d < 10, (digitChar d).toNat - '0'.toNat = d := by decide

theorem digits_ne_nil (n : Nat) : digits n ≠ [] := by
  rw [digits]
  split
  · exact List.cons_ne_nil _ _
  · exact List.append_ne_nil_of_right_ne_nil _ (List.cons_ne_nil _ _)

theorem isDigit_of_mem_digits {n : Nat} : ∀ d ∈ digits n, d.isDigit = true := by
  fun_induction digits n with
  | case1 n hlt =>
    intro d hd
    rw [List.mem_singleton.mp hd]
    exact isDigit_digitChar n hlt
  | case2 n _ ih =>
    intro d hd
    rcases List.mem_append.mp hd with hd | hd
    · exact ih d hd
    · rw [List.mem_singleton.mp hd]
      exact isDigit_digitChar _ (Nat.mod_lt n (by decide))

theorem accumulate_append (high : Nat) (ds es : List Char) :
    accumulate high (ds ++ es) = accumulate (accumulate high ds) es :=
  List.foldl_append

theorem accumulate_singleton (high : Nat) (d : Char) :
    accumulate high [d] = 10 * high + (d.toNat - '0'.toNat) := rfl

/-- The digits of a number denote it. -/
theorem accumulate_digits (n : Nat) : accumulate 0 (digits n) = n := by
  fun_induction digits n with
  | case1 n hlt =>
    rw [accumulate_singleton, toNat_digitChar n hlt]
    omega
  | case2 n _ ih =>
    rw [accumulate_append, ih, accumulate_singleton,
      toNat_digitChar _ (Nat.mod_lt n (by decide))]
    omega

theorem readDigits?_digits (n : Nat) : readDigits? (digits n) = some n := by
  have hall : (digits n).all Char.isDigit = true := List.all_eq_true.mpr isDigit_of_mem_digits
  have hne : (digits n).isEmpty = false := List.isEmpty_eq_false_iff.mpr (digits_ne_nil n)
  rw [readDigits?, hall, hne, accumulate_digits]
  rfl

/-! ## Signs and range -/

theorem readInt?_minus {ds : List Char} {n : Nat} (h : readDigits? ds = some n) :
    readInt? ('-' :: ds) = some (-n : Int) := by
  rw [readInt?, h]
  rfl

/-- A run of digits is read without a sign. -/
theorem readInt?_of_isDigit {ds : List Char} {n : Nat} (hds : ∀ d ∈ ds, d.isDigit = true)
    (h : readDigits? ds = some n) : readInt? ds = some (n : Int) := by
  cases ds with
  | nil => cases h
  | cons d ds =>
    have hne {c : Char} (hc : c.isDigit = false) : d ≠ c := by
      rintro rfl
      exact absurd (hds d List.mem_cons_self) (by rw [hc]; decide)
    rw [readInt?.eq_3 (d :: ds) (by simpa using hne (by decide)) (by simpa using hne (by decide)),
      h]
    rfl

theorem readInt?_writeInt (i : Int) : readInt? (writeInt i) = some i := by
  rw [writeInt]
  split
  · rw [readInt?_minus (readDigits?_digits _)]
    exact congrArg some (by omega)
  · rw [readInt?_of_isDigit isDigit_of_mem_digits (readDigits?_digits _)]
    exact congrArg some (by omega)

/-- A written number reads back. -/
theorem read?_write (n : Int64) : read? (write n) = some n := by
  rw [read?, write, readInt?_writeInt]
  have hlow : Int64.minValue.toInt ≤ n.toInt := n.minValue_le_toInt
  have hhigh : n.toInt ≤ Int64.maxValue.toInt := n.toInt_le
  simp only [Option.bind_eq_bind, Option.bind_some, hlow, hhigh, and_self, ↓reduceIte,
    Int64.ofInt_toInt]

end QuoteLisp.Decimal
