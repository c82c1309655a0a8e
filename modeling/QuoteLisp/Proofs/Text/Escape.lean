import QuoteLisp.Text.Escape

/-!
# Reading escaped text

Every character is written either as itself or as a backslash and a letter, and reading tells the
two apart by the backslash. So `unescape` takes the written form of a character off the front of a
text (`unescape_escapeChar_append`), and with that the written form of a whole text.

Every text can be read, but not every text is the written form of one: a character may stand bare
that has a letter, and a backslash before anything but a letter stands for itself. `IsWritten` says
which texts are written forms. Reading a text and writing what was read gives such a form, and
changes nothing exactly when the text is one already (`escape_unescape_eq_self_iff`).
-/

namespace QuoteLisp

/-- A letter stands for the character that is written with it. -/
theorem escapedBy?_of_escapeLetter? {c letter : Char} (h : escapeLetter? c = some letter) :
    escapedBy? letter = some c := by
  unfold escapeLetter? at h
  split at h
  case h_12 => cases h
  all_goals
    obtain rfl := Option.some.inj h
    rfl

/-- A character is written with the letter that stands for it. -/
theorem escapeLetter?_of_escapedBy? {c letter : Char} (h : escapedBy? letter = some c) :
    escapeLetter? c = some letter := by
  unfold escapedBy? at h
  split at h
  case h_12 => cases h
  all_goals
    obtain rfl := Option.some.inj h
    rfl

/-- A character that is written as itself is no backslash and no quote. -/
theorem ne_of_escapeLetter?_eq_none {c : Char} (h : escapeLetter? c = none) :
    c ≠ '\\' ∧ c ≠ '"' := by
  constructor <;> (rintro rfl; exact absurd h (by decide))

theorem unescape_cons_of_ne {c : Char} (h : c ≠ '\\') (cs : List Char) :
    unescape (c :: cs) = c :: unescape cs :=
  unescape.eq_4 c cs (by simp [h]) (by simp [h])

/-- A pair is read by itself, whether or not its second character is a letter. -/
theorem unescape_pair (letter : Char) (cs : List Char) :
    unescape ('\\' :: letter :: cs) = unescape ['\\', letter] ++ unescape cs := by
  rw [unescape, unescape]
  cases escapedBy? letter <;> rfl

/-- The written form of a character is read as that character, whatever follows it. -/
theorem unescape_escapeChar_append (c : Char) (cs : List Char) :
    unescape (escapeChar c ++ cs) = c :: unescape cs := by
  rw [escapeChar]
  split
  · rename_i letter hletter
    rw [List.cons_append, List.singleton_append, unescape, escapedBy?_of_escapeLetter? hletter]
  · rename_i hnone
    rw [List.singleton_append, unescape_cons_of_ne (ne_of_escapeLetter?_eq_none hnone).1]

/-- A written text is read as that text. -/
theorem unescape_escape (cs : List Char) : unescape (escape cs) = cs := by
  induction cs with
  | nil => rfl
  | cons c cs ih => rw [escape_cons, unescape_escapeChar_append, ih]

/-! ## Written forms -/

/-- The texts that are written forms: each backslash stands before a letter, and no character that
has a letter stands bare. -/
inductive IsWritten : List Char → Prop
  | nil : IsWritten []
  | pair {letter : Char} {cs : List Char} :
      (escapedBy? letter).isSome → IsWritten cs → IsWritten ('\\' :: letter :: cs)
  | plain {c : Char} {cs : List Char} :
      escapeLetter? c = none → IsWritten cs → IsWritten (c :: cs)

theorem isWritten_escape (cs : List Char) : IsWritten (escape cs) := by
  induction cs with
  | nil => exact .nil
  | cons c cs ih =>
    rw [escape_cons, escapeChar]
    split
    · rename_i letter hletter
      exact .pair (Option.isSome_of_eq_some (escapedBy?_of_escapeLetter? hletter)) ih
    · rename_i hnone
      exact .plain hnone ih

/-- Writing what a written form is read as gives the form back. -/
theorem IsWritten.escape_unescape {cs : List Char} (h : IsWritten cs) :
    escape (unescape cs) = cs := by
  induction h with
  | nil => rfl
  | @pair letter cs hletter _ ih =>
    -- letters and characters belong to each other, so the same letter is written again
    obtain ⟨c, hc⟩ := Option.isSome_iff_exists.mp hletter
    have hread : unescape ('\\' :: letter :: cs) = c :: unescape cs := by rw [unescape, hc]
    rw [hread, escape_cons, ih, escapeChar, escapeLetter?_of_escapedBy? hc]
    rfl
  | @plain c cs hnone _ ih =>
    rw [unescape_cons_of_ne (ne_of_escapeLetter?_eq_none hnone).1, escape_cons, ih, escapeChar,
      hnone]
    rfl

/-- Reading and writing again leaves the written forms as they are, and no other text. -/
theorem escape_unescape_eq_self_iff {cs : List Char} :
    escape (unescape cs) = cs ↔ IsWritten cs :=
  ⟨fun h ↦ h ▸ isWritten_escape (unescape cs), IsWritten.escape_unescape⟩

theorem exists_escape_eq_iff {cs : List Char} : (∃ text, escape text = cs) ↔ IsWritten cs := by
  constructor
  · rintro ⟨text, rfl⟩
    exact isWritten_escape text
  · intro h
    exact ⟨unescape cs, h.escape_unescape⟩

instance (cs : List Char) : Decidable (IsWritten cs) :=
  decidable_of_iff (escape (unescape cs) = cs) escape_unescape_eq_self_iff

/-- A backslash before anything but a letter stands for itself, and would be written as a pair. -/
example : unescape ['\\', 'q'] = ['\\', 'q'] ∧ ¬IsWritten ['\\', 'q'] := by decide

end QuoteLisp
