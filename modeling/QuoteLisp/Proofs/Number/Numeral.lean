import Mathlib.Data.List.Induction
import Mathlib.Data.Nat.Digits.Defs
import QuoteLisp.Proofs.Number.Decimal

/-!
# What numerals denote

A numeral is one or more digits, possibly after a sign, and denotes the sum of its digits weighted
with powers of ten (`Decimal.Denotes`). It may be of any length and begin with any number of zeros.
Reading gives the number that is denoted and no other, and fails exactly when the text is no numeral
or the number takes more than 64 bits (`Decimal.read?_eq_some_iff`, `Decimal.read?_eq_none_iff`).
-/

namespace QuoteLisp.Decimal

variable {text ds : List Char} {i j : Int} {n : Int64}

/-! ## Numerals -/

/-- One or more digits. -/
def IsDigits (ds : List Char) : Prop :=
  ds ≠ [] ∧ ∀ d ∈ ds, d.isDigit = true

/-- The sum of the digits weighted with powers of ten, the last one with the least. -/
def magnitude (ds : List Char) : Nat :=
  Nat.ofDigits 10 (ds.reverse.map fun d ↦ d.toNat - '0'.toNat)

/-- The text is a numeral and denotes an integer. -/
inductive Denotes : List Char → Int → Prop
  | unsigned {ds : List Char} : IsDigits ds → Denotes ds (magnitude ds)
  | plus {ds : List Char} : IsDigits ds → Denotes ('+' :: ds) (magnitude ds)
  | minus {ds : List Char} : IsDigits ds → Denotes ('-' :: ds) (-(magnitude ds : Int))

/-- The integer is one of 64 bits. -/
def InRange (i : Int) : Prop :=
  -9223372036854775808 ≤ i ∧ i ≤ 9223372036854775807

/-! ## Reading digits -/

/-- Reading digit by digit from the first one adds up to the weighted sum. -/
theorem accumulate_eq_magnitude (ds : List Char) : accumulate 0 ds = magnitude ds := by
  induction ds using List.reverseRecOn with
  | nil => rfl
  | append_singleton ds d ih =>
    rw [accumulate_append, ih, accumulate_singleton, magnitude, magnitude, List.reverse_append,
      List.reverse_singleton, List.singleton_append, List.map_cons, Nat.ofDigits_cons]
    exact Nat.add_comm _ _

theorem readDigits?_of_isDigits (h : IsDigits ds) : readDigits? ds = some (magnitude ds) := by
  have hempty : ds.isEmpty = false := List.isEmpty_eq_false_iff.mpr h.1
  rw [readDigits?, List.all_eq_true.mpr h.2, hempty, accumulate_eq_magnitude]
  rfl

theorem readDigits?_eq_some_iff {m : Nat} :
    readDigits? ds = some m ↔ IsDigits ds ∧ magnitude ds = m := by
  refine ⟨fun h ↦ ?_, fun ⟨hds, hm⟩ ↦ hm ▸ readDigits?_of_isDigits hds⟩
  have hds : IsDigits ds := by
    rw [readDigits?] at h
    split at h
    · rename_i hcond
      rw [Bool.and_eq_true, Bool.not_eq_true', List.isEmpty_eq_false_iff, List.all_eq_true] at hcond
      exact hcond
    · cases h
  rw [readDigits?_of_isDigits hds] at h
  exact ⟨hds, Option.some.inj h⟩

/-! ## Reading numerals -/

/-- Only digits are taken for an integer, whatever the sign makes of it. -/
private theorem isDigits_of_map_eq_some {sign : Int → Int}
    (h : ((readDigits? ds).bind fun m ↦ some (m : Int)).map sign = some i) :
    IsDigits ds ∧ sign (magnitude ds) = i := by
  obtain ⟨_, hbind, rfl⟩ := Option.map_eq_some_iff.mp h
  obtain ⟨m, hread, hm⟩ := Option.bind_eq_some_iff.mp hbind
  obtain rfl := Option.some.inj hm
  obtain ⟨hds, rfl⟩ := readDigits?_eq_some_iff.mp hread
  exact ⟨hds, rfl⟩

/-- A numeral is read as the integer that it denotes, and nothing else is read. -/
theorem readInt?_eq_some_iff : readInt? text = some i ↔ Denotes text i := by
  constructor
  · intro h
    rw [readInt?.eq_def] at h
    split at h <;> obtain ⟨hds, rfl⟩ := isDigits_of_map_eq_some h
    · exact .minus hds
    · exact .plus hds
    · exact .unsigned hds
  · intro h
    cases h with
    | unsigned hds => exact readInt?_of_isDigit hds.2 (readDigits?_of_isDigits hds)
    | plus hds => rw [readInt?, readDigits?_of_isDigits hds]; rfl
    | minus hds => exact readInt?_minus (readDigits?_of_isDigits hds)

theorem Denotes.unique (h : Denotes text i) (h' : Denotes text j) : i = j :=
  Option.some.inj ((readInt?_eq_some_iff.mpr h).symm.trans (readInt?_eq_some_iff.mpr h'))

/-! ## Reading numbers -/

theorem inRange_toInt (n : Int64) : InRange n.toInt :=
  ⟨n.minValue_le_toInt, n.toInt_le⟩

theorem toInt_ofInt (h : InRange i) : (Int64.ofInt i).toInt = i :=
  Int64.toInt_ofInt_of_le h.1 (Int.lt_of_le_of_lt h.2 (by decide))

/-- A text is read as a number exactly if it denotes the number. -/
theorem read?_eq_some_iff : read? text = some n ↔ Denotes text n.toInt := by
  rw [← readInt?_eq_some_iff, read?]
  cases readInt? text with
  | none => constructor <;> intro h <;> cases h
  | some i =>
    rw [Option.bind_eq_bind, Option.bind_some, Option.some_inj]
    constructor
    · intro h
      split at h
      · rw [← Option.some.inj h, toInt_ofInt ‹_›]
      · cases h
    · rintro rfl
      exact (if_pos (inRange_toInt n)).trans (congrArg some n.ofInt_toInt)

/-- A text is not read exactly if it denotes no integer of 64 bits. -/
theorem read?_eq_none_iff : read? text = none ↔ ∀ i, Denotes text i → ¬InRange i := by
  constructor
  · intro h i hi hrange
    have hread : read? text = some (Int64.ofInt i) := by
      rw [read?_eq_some_iff, toInt_ofInt hrange]
      exact hi
    cases h.symm.trans hread
  · intro h
    refine Option.eq_none_iff_forall_ne_some.mpr fun n hread ↦ ?_
    exact h _ (read?_eq_some_iff.mp hread) (inRange_toInt n)

end QuoteLisp.Decimal
