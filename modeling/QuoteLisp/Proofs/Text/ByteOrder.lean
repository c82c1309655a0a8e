import Mathlib.Tactic.SplitIfs

/-!
# The order of bytes

Texts are compared by code points, and names and paths are listed in that order. It is the order of
their bytes in UTF-8 as well (`bytesBefore_iff`). The first character in which two texts differ
decides in both, because the bytes of the smaller character differ from those of the greater one
before either comes to its end (`lex_codePointBytes_append`).
-/

namespace QuoteLisp

/-- The bytes of a text in UTF-8, as numbers. -/
def utf8Bytes (text : String) : List Nat :=
  text.toUTF8.data.toList.map UInt8.toNat

/-- The bytes of one text come before those of another: the first byte in which they differ
decides, and a text comes before those that continue it. -/
def BytesBefore (s t : String) : Prop :=
  List.Lex (· < ·) (utf8Bytes s) (utf8Bytes t)

/-- The bytes of a code point: the first tells how many there are, and each of the others holds six
bits. -/
def codePointBytes (n : Nat) : List Nat :=
  if n < 0x80 then [n]
  else if n < 0x800 then [0xC0 + n / 64, 0x80 + n % 64]
  else if n < 0x10000 then [0xE0 + n / 4096, 0x80 + n / 64 % 64, 0x80 + n % 64]
  else [0xF0 + n / 262144, 0x80 + n / 4096 % 64, 0x80 + n / 64 % 64, 0x80 + n % 64]

theorem codePointBytes_ne_nil (n : Nat) : codePointBytes n ≠ [] := by
  rw [codePointBytes]
  split_ifs <;> exact List.cons_ne_nil _ _

theorem map_toNat_utf8EncodeChar (c : Char) :
    (String.utf8EncodeChar c).map UInt8.toNat = codePointBytes c.val.toNat := by
  have hmax : c.val.toNat < 0x110000 := by
    have := c.valid
    grind
  rw [codePointBytes]
  simp only [String.utf8EncodeChar]
  generalize c.val.toNat = n at hmax ⊢
  split_ifs <;> simp [UInt8.toNat_ofNat'] <;> omega

theorem utf8Bytes_eq_flatMap (s : String) :
    utf8Bytes s = s.toList.flatMap fun c ↦ codePointBytes c.val.toNat := by
  conv => lhs; rw [← @String.ofList_toList s]
  change (List.utf8Encode s.toList).data.toList.map UInt8.toNat = _
  rw [List.utf8Encode, List.toList_data_toByteArray, List.map_flatMap]
  exact congrArg (s.toList.flatMap ·) (funext map_toNat_utf8EncodeChar)

/-- The smaller of two code points comes first, whatever bytes follow. -/
theorem lex_codePointBytes_append {m n : Nat} (h : m < n) (xs ys : List Nat) :
    List.Lex (· < ·) (codePointBytes m ++ xs) (codePointBytes n ++ ys) := by
  rw [codePointBytes, codePointBytes]
  split_ifs <;>
    simp only [List.cons_append, List.nil_append, List.cons_lex_cons_iff] <;> omega

theorem bytesBefore_of_lt {s t : String} (h : s < t) : BytesBefore s t := by
  rw [BytesBefore, utf8Bytes_eq_flatMap, utf8Bytes_eq_flatMap]
  replace h : List.Lex (· < ·) s.toList t.toList := h
  generalize s.toList = cs, t.toList = ds at h
  induction h with
  | @nil d ds =>
    obtain ⟨byte, bytes, hbytes⟩ := List.exists_cons_of_ne_nil (codePointBytes_ne_nil d.val.toNat)
    rw [List.flatMap_cons, hbytes]
    exact .nil
  | @rel c cs d ds hlt =>
    rw [List.flatMap_cons, List.flatMap_cons]
    exact lex_codePointBytes_append hlt _ _
  | @cons c cs ds _ ih =>
    rw [List.flatMap_cons, List.flatMap_cons]
    exact List.append_left_lt ih

theorem BytesBefore.asymm {s t : String} (h : BytesBefore s t) : ¬BytesBefore t s :=
  List.lex_asymm (fun hlt ↦ Nat.lt_asymm hlt) h

/-- **Texts are ordered by their bytes.** -/
theorem bytesBefore_iff {s t : String} : BytesBefore s t ↔ s < t := by
  refine ⟨fun h ↦ ?_, bytesBefore_of_lt⟩
  have hle : s ≤ t := String.not_lt.mp fun hlt ↦ h.asymm (bytesBefore_of_lt hlt)
  refine String.not_le.mp fun hge ↦ ?_
  obtain rfl := String.le_antisymm hle hge
  exact h.asymm h

theorem BytesBefore.trans {s t u : String} (h : BytesBefore s t) (h' : BytesBefore t u) :
    BytesBefore s u :=
  List.lex_trans (fun hlt hlt' ↦ Nat.lt_trans hlt hlt') h h'

end QuoteLisp
