import QuoteLisp.Proofs.Text.Runs
import QuoteLisp.Token.Scan

/-!
# The shapes of lexemes

What a lexeme may look like and what may follow it, said without the walk over the source: a
grammar for each kind of atom (`AtomKind.Admits`) and the characters that would prolong it
(`AtomKind.continues`). `Lexeme.match?_eq_some_iff` is the bridge. It says that `Lexeme.match?`
finds exactly the well-formed lexemes at the beginning of a text that nothing prolongs, and hence
that there is at most one.

The choice between the kinds is made on one character, or on two after a minus sign, so a symbol
such as `-` is only kept from being a number by what follows it. That is why the first characters of
numbers are compared on the whole text (`startsNumber_append_iff`) and not on the symbol alone.
-/

namespace QuoteLisp

/-! ## The grammar of atoms -/

/-- A numeral: one or more digits, possibly after a minus sign. -/
def IsNumeral (text : List Char) : Prop :=
  ∃ ds, ds ≠ [] ∧ (∀ d ∈ ds, d.isDigit = true) ∧ (text = ds ∨ text = '-' :: ds)

/-- A name: one or more characters of symbols that do not begin like a number. -/
def IsName (text : List Char) : Prop :=
  text ≠ [] ∧ (∀ c ∈ text, isSymbolChar c = true) ∧ startsNumber text = false

instance (text : List Char) : Decidable (IsName text) :=
  decidable_of_iff (text ≠ [] ∧ text.all isSymbolChar = true ∧ startsNumber text = false)
    (by rw [IsName, List.all_eq_true])

/-- A comment, without the end of its line. -/
def IsComment (text : List Char) : Prop :=
  ∃ body, text = ';' :: body ∧ ∀ c ∈ body, isLineEnd c = false

/-- The inside of a string literal: any characters but quotes and backslashes, and pairs of a
backslash and any character. -/
inductive IsLiteralBody : List Char → Prop
  | nil : IsLiteralBody []
  | escaped (c : Char) {cs : List Char} : IsLiteralBody cs → IsLiteralBody ('\\' :: c :: cs)
  | plain {c : Char} {cs : List Char} : c ≠ '"' → c ≠ '\\' → IsLiteralBody cs →
      IsLiteralBody (c :: cs)

/-- A string literal with its quotes. -/
def IsLiteral (text : List Char) : Prop :=
  ∃ body, IsLiteralBody body ∧ text = '"' :: (body ++ ['"'])

/-- The texts that an atom of a kind can have. -/
def AtomKind.Admits : AtomKind → List Char → Prop
  | number => IsNumeral
  | symbol => IsName
  | string => IsLiteral
  | comment => IsComment

/-- Whether a character right after an atom of a kind would belong to it. -/
def AtomKind.continues : AtomKind → Char → Bool
  | number => Char.isDigit
  | symbol => isSymbolChar
  | string => fun _ ↦ false
  | comment => (!isLineEnd ·)

namespace Lexeme

/-- A lexeme that can be read from a source: an atom with a text of its kind, or a bracket. -/
def WellFormed : Lexeme → Prop
  | atom kind text => kind.Admits text.toList
  | opening _ | closing _ => True
  | endMark => False

/-- Nothing of what follows a lexeme belongs to it. -/
def EndsBefore (rest : List Char) : Lexeme → Prop
  | atom kind _ => ∀ c ∈ rest.head?, kind.continues c = false
  | opening _ | closing _ | endMark => True

end Lexeme

/-! ## Beginnings of numbers -/

theorem isSymbolChar_of_isDigit {c : Char} (h : c.isDigit = true) : isSymbolChar c = true := by
  rw [isSymbolChar, Char.isAlphanum, h, Bool.or_true, Bool.true_or]

theorem isDigit_eq_false_of_isSymbolChar {c : Char} (h : isSymbolChar c = false) :
    c.isDigit = false := by
  by_contra hdigit
  rw [isSymbolChar_of_isDigit (eq_true_of_ne_false hdigit)] at h
  exact absurd h (by decide)

/-- What follows a text that a digit does not prolong has no say in whether it begins a number. -/
theorem startsNumber_append_iff {text rest : List Char} (hne : text ≠ [])
    (hrest : ∀ c ∈ rest.head?, c.isDigit = false) :
    startsNumber (text ++ rest) = startsNumber text := by
  match text, rest with
  | [c], [] => rfl
  | [c], d :: rest =>
    have hd : d.isDigit = false := hrest d rfl
    simp [startsNumber, startsWithDigit, hd]
  | c :: d :: text, rest => rfl

theorem startsNumber_of_isNumeral {text : List Char} (h : IsNumeral text) (rest : List Char) :
    startsNumber (text ++ rest) = true := by
  obtain ⟨ds, hne, hds, rfl | rfl⟩ := h
  all_goals
    obtain ⟨d, ds, rfl⟩ := List.exists_cons_of_ne_nil hne
    have hd := hds d List.mem_cons_self
    simp [startsNumber, startsWithDigit, hd]

/-- What begins like a number is a numeral as far as its digits go. -/
theorem isNumeral_of_startsNumber {c : Char} {cs : List Char}
    (h : startsNumber (c :: cs) = true) : IsNumeral (c :: cs.takeWhile Char.isDigit) := by
  have hrun : ∀ d ∈ cs.takeWhile Char.isDigit, d.isDigit = true :=
    fun d hd ↦ List.mem_takeWhile_imp hd
  by_cases hc : c.isDigit = true
  · exact ⟨_, List.cons_ne_nil _ _, List.forall_mem_cons.mpr ⟨hc, hrun⟩, Or.inl rfl⟩
  · obtain ⟨rfl, hdigit⟩ : c = '-' ∧ startsWithDigit cs = true := by
      simpa [startsNumber, hc] using h
    refine ⟨_, fun hnil ↦ ?_, hrun, Or.inr rfl⟩
    cases cs with
    | nil => simp [startsWithDigit] at hdigit
    | cons d ds => simp [List.takeWhile_cons_of_pos (show d.isDigit = true from hdigit)] at hnil

/-- What begins like a symbol is a name as far as its characters of symbols go. -/
theorem isName_of_isSymbolChar {c : Char} {cs : List Char} (h : isSymbolChar c = true)
    (hnumber : startsNumber (c :: cs) = false) : IsName (c :: cs.takeWhile isSymbolChar) := by
  have hrun : ∀ d ∈ cs.takeWhile isSymbolChar, isSymbolChar d = true :=
    fun d hd ↦ List.mem_takeWhile_imp hd
  refine ⟨List.cons_ne_nil _ _, List.forall_mem_cons.mpr ⟨h, hrun⟩, ?_⟩
  -- the whole text is compared, since a digit after the name would be part of the name
  have hdigit : ∀ d ∈ (cs.dropWhile isSymbolChar).head?, d.isDigit = false := fun d hd ↦
    isDigit_eq_false_of_isSymbolChar (eq_false_of_mem_head?_dropWhile isSymbolChar cs d hd)
  rw [← startsNumber_append_iff (List.cons_ne_nil _ _) hdigit, List.cons_append,
    List.takeWhile_append_dropWhile]
  exact hnumber

/-- A numeral is one character of symbols followed by digits. -/
theorem IsNumeral.exists_cons {text : List Char} (h : IsNumeral text) :
    ∃ c run, text = c :: run ∧ isSymbolChar c = true ∧ ∀ d ∈ run, d.isDigit = true := by
  obtain ⟨ds, hne, hds, rfl | rfl⟩ := h
  · obtain ⟨d, run, rfl⟩ := List.exists_cons_of_ne_nil hne
    rw [List.forall_mem_cons] at hds
    exact ⟨d, run, rfl, isSymbolChar_of_isDigit hds.1, hds.2⟩
  · exact ⟨'-', ds, rfl, by decide, hds⟩

/-! ## Blanks are no part of a lexeme's beginning -/

/-- No visible ASCII character is blank. -/
theorem isBlank_eq_false_of_toNat {c : Char} (hlow : 0x20 < c.toNat) (hhigh : c.toNat < 0x7F) :
    isBlank c = false := by
  simp only [isBlank, blankRanges, List.any_cons, List.any_nil, Bool.or_false, Bool.or_eq_false_iff,
    Bool.and_eq_false_iff, decide_eq_false_iff_not]
  omega

/-- Digits and letters lie between `0` and `z`. -/
theorem toNat_of_isAlphanum {c : Char} (h : c.isAlphanum = true) :
    0x30 ≤ c.toNat ∧ c.toNat ≤ 0x7A := by
  have within {low high : Char} (hlow : low.val ≤ c.val) (hhigh : c.val ≤ high.val)
      (hfirst : 0x30 ≤ low.toNat) (hlast : high.toNat ≤ 0x7A) :
      0x30 ≤ c.toNat ∧ c.toNat ≤ 0x7A :=
    ⟨hfirst.trans (UInt32.le_iff_toNat_le.mp hlow), (UInt32.le_iff_toNat_le.mp hhigh).trans hlast⟩
  rcases Bool.or_eq_true_iff.mp h with h | h
  · rcases Bool.or_eq_true_iff.mp h with h | h
    · obtain ⟨hlow, hhigh⟩ := of_decide_eq_true h
      exact within hlow hhigh (by decide) (by decide)
    · obtain ⟨hlow, hhigh⟩ := Bool.and_eq_true_iff.mp h
      exact within (of_decide_eq_true hlow) (of_decide_eq_true hhigh) (by decide) (by decide)
  · obtain ⟨hlow, hhigh⟩ := Bool.and_eq_true_iff.mp h
    exact within (of_decide_eq_true hlow) (of_decide_eq_true hhigh) (by decide) (by decide)

theorem isBlank_eq_false_of_isSymbolChar {c : Char} (h : isSymbolChar c = true) :
    isBlank c = false := by
  have hmarks : symbolPunctuation.all (!isBlank ·) = true := by decide
  rw [isSymbolChar, Bool.or_eq_true, List.contains_iff_mem] at h
  rcases h with h | h
  · obtain ⟨hlow, hhigh⟩ := toNat_of_isAlphanum h
    exact isBlank_eq_false_of_toNat (by omega) (by omega)
  · have hc := List.all_eq_true.mp hmarks c h
    rwa [Bool.not_eq_true'] at hc

/-- A lexeme takes some room, and its first character is not blank. -/
theorem Lexeme.WellFormed.exists_cons {lexeme : Lexeme} (h : lexeme.WellFormed) :
    ∃ c more, lexeme.chars = c :: more ∧ isBlank c = false := by
  match lexeme with
  | opening bracket | closing bracket => exact ⟨_, [], rfl, by cases bracket <;> decide⟩
  | atom .number text =>
    obtain ⟨c, run, htext, hc, -⟩ := IsNumeral.exists_cons h
    exact ⟨c, run, htext, isBlank_eq_false_of_isSymbolChar hc⟩
  | atom .symbol text =>
    obtain ⟨hne, hall, -⟩ := h
    obtain ⟨c, run, htext⟩ := List.exists_cons_of_ne_nil hne
    exact ⟨c, run, htext, isBlank_eq_false_of_isSymbolChar (hall c (htext ▸ List.mem_cons_self))⟩
  | atom .string text =>
    obtain ⟨body, -, htext⟩ := h
    exact ⟨'"', body ++ ['"'], htext, by decide⟩
  | atom .comment text =>
    obtain ⟨body, htext, -⟩ := h
    exact ⟨';', body, htext, by decide⟩

/-! ## The longest lexeme -/

/-- A literal is closed at the quote after its inside. -/
theorem closeString?_append {body : List Char} (h : IsLiteralBody body) (rest : List Char) :
    closeString? (body ++ '"' :: rest) = some (body ++ ['"'], rest) := by
  induction h with
  | nil => rfl
  | escaped c _ ih =>
    rw [List.cons_append, List.cons_append, closeString?, ih]
    rfl
  | @plain c cs hquote hslash _ ih =>
    rw [List.cons_append, closeString?.eq_5 c _ (by simp [hslash]) (by simp [hslash]) hquote, ih]
    rfl

/-- A literal is closed at the first quote that no backslash takes. -/
theorem closeString?_eq_some_iff {cs text rest : List Char} :
    closeString? cs = some (text, rest) ↔
      ∃ body, IsLiteralBody body ∧ text = body ++ ['"'] ∧ cs = text ++ rest := by
  constructor
  · intro h
    fun_induction closeString? cs generalizing text rest with
    | case1 => simp at h
    | case2 => simp at h
    | case3 c cs ih =>
      obtain ⟨⟨text', rest'⟩, h', heq⟩ := Option.map_eq_some_iff.mp h
      obtain ⟨rfl, rfl⟩ := Prod.mk.inj heq
      obtain ⟨body, hbody, rfl, rfl⟩ := ih h'
      exact ⟨'\\' :: c :: body, hbody.escaped c, rfl, rfl⟩
    | case4 cs =>
      obtain ⟨rfl, rfl⟩ := Prod.mk.inj (Option.some.inj h)
      exact ⟨[], .nil, rfl, rfl⟩
    | case5 c cs _ hescape hquote ih =>
      obtain ⟨⟨text', rest'⟩, h', heq⟩ := Option.map_eq_some_iff.mp h
      obtain ⟨rfl, rfl⟩ := Prod.mk.inj heq
      obtain ⟨body, hbody, rfl, rfl⟩ := ih h'
      have hslash : c ≠ '\\' := by
        rintro rfl
        obtain ⟨d, ds, hds⟩ := List.exists_cons_of_ne_nil
          (show body ++ ['"'] ++ rest' ≠ [] by simp)
        exact hescape d ds rfl hds
      exact ⟨c :: body, hbody.plain hquote hslash, rfl, rfl⟩
  · rintro ⟨body, hbody, rfl, rfl⟩
    rw [List.append_assoc]
    exact closeString?_append hbody rest

namespace Lexeme

variable {c : Char} {cs rest : List Char} {lexeme : Lexeme}

/-- What begins like a number is a number, whatever else its first character could begin. -/
theorem match?_of_startsNumber (h : startsNumber (c :: cs) = true) :
    match? c cs
      = some (atom .number (String.ofList (c :: cs.takeWhile Char.isDigit)),
          cs.dropWhile Char.isDigit) := by
  have hne {d : Char} (hd : startsNumber (d :: cs) = false) : c ≠ d := by
    rintro rfl
    exact absurd h (by rw [hd]; decide)
  rw [match?, if_neg (hne rfl), if_neg (hne rfl), if_neg (hne rfl), if_neg (hne rfl),
    if_neg (hne rfl), if_neg (hne rfl), if_pos h]

/-- What begins with a character of symbols, but not like a number, is a symbol. -/
theorem match?_of_isSymbolChar (h : isSymbolChar c = true)
    (hnumber : startsNumber (c :: cs) = false) :
    match? c cs
      = some (atom .symbol (String.ofList (c :: cs.takeWhile isSymbolChar)),
          cs.dropWhile isSymbolChar) := by
  have hne {d : Char} (hd : isSymbolChar d = false) : c ≠ d := by
    rintro rfl
    exact absurd h (by rw [hd]; decide)
  rw [match?, if_neg (hne (by decide)), if_neg (hne (by decide)), if_neg (hne (by decide)),
    if_neg (hne (by decide)), if_neg (hne (by decide)), if_neg (hne (by decide)),
    if_neg (by rw [hnumber]; decide), if_pos h]

/-- A lexeme that is found is well formed, and nothing of what follows belongs to it. -/
theorem wellFormed_and_endsBefore_of_match? (h : match? c cs = some (lexeme, rest)) :
    lexeme.WellFormed ∧ lexeme.EndsBefore rest := by
  -- the first four branches are the brackets, then come the kinds of atoms
  unfold match? at h
  split at h
  · obtain ⟨rfl, rfl⟩ := Prod.mk.inj (Option.some.inj h)
    exact ⟨trivial, trivial⟩
  split at h
  · obtain ⟨rfl, rfl⟩ := Prod.mk.inj (Option.some.inj h)
    exact ⟨trivial, trivial⟩
  split at h
  · obtain ⟨rfl, rfl⟩ := Prod.mk.inj (Option.some.inj h)
    exact ⟨trivial, trivial⟩
  split at h
  · obtain ⟨rfl, rfl⟩ := Prod.mk.inj (Option.some.inj h)
    exact ⟨trivial, trivial⟩
  split at h
  · obtain ⟨rfl, rfl⟩ := Prod.mk.inj (Option.some.inj h)
    refine ⟨⟨cs.takeWhile (!isLineEnd ·), ?_, fun d hd ↦ ?_⟩, eq_false_of_mem_head?_dropWhile _ cs⟩
    · rw [String.toList_ofList, ‹c = ';'›]
    · have hbody := List.mem_takeWhile_imp hd
      rwa [Bool.not_eq_true'] at hbody
  split at h
  · obtain ⟨⟨text, rest'⟩, hclose, heq⟩ := Option.map_eq_some_iff.mp h
    obtain ⟨rfl, rfl⟩ := Prod.mk.inj heq
    obtain ⟨body, hbody, rfl, -⟩ := closeString?_eq_some_iff.mp hclose
    refine ⟨⟨body, hbody, ?_⟩, fun _ _ ↦ rfl⟩
    rw [String.toList_ofList, ‹c = '"'›]
  split at h
  · rename_i hnumber
    obtain ⟨rfl, rfl⟩ := Prod.mk.inj (Option.some.inj h)
    refine ⟨?_, eq_false_of_mem_head?_dropWhile Char.isDigit cs⟩
    change IsNumeral (String.ofList _).toList
    rw [String.toList_ofList]
    exact isNumeral_of_startsNumber hnumber
  split at h
  · rename_i hnumber hsymbol
    obtain ⟨rfl, rfl⟩ := Prod.mk.inj (Option.some.inj h)
    refine ⟨?_, eq_false_of_mem_head?_dropWhile isSymbolChar cs⟩
    change IsName (String.ofList _).toList
    rw [String.toList_ofList]
    exact isName_of_isSymbolChar hsymbol (eq_false_of_ne_true hnumber)
  · simp at h

/-- An atom that is one character and a run that nothing prolongs is cut where the run ends. -/
private theorem ofList_takeWhile_and_dropWhile {p : Char → Bool} {d : Char} {run : List Char}
    {text : String} (happ : text.toList ++ rest = c :: cs) (htext : text.toList = d :: run)
    (hrun : ∀ e ∈ run, p e = true) (hrest : ∀ e ∈ rest.head?, p e = false) :
    d = c ∧ String.ofList (c :: cs.takeWhile p) = text ∧ cs.dropWhile p = rest := by
  rw [htext, List.cons_append] at happ
  obtain ⟨rfl, rfl⟩ := List.cons.inj happ
  obtain ⟨htake, hdrop⟩ := takeWhile_eq_and_dropWhile_eq_iff.mpr ⟨rfl, hrun, hrest⟩
  rw [htake, ← htext, String.ofList_toList]
  exact ⟨rfl, rfl, hdrop⟩

/-- A well-formed lexeme at the beginning of a text is found if nothing prolongs it. -/
theorem match?_of_wellFormed (hform : lexeme.WellFormed) (hends : lexeme.EndsBefore rest)
    (happ : lexeme.chars ++ rest = c :: cs) : match? c cs = some (lexeme, rest) := by
  match lexeme with
  | opening bracket | closing bracket =>
    obtain ⟨rfl, rfl⟩ := List.cons.inj happ
    cases bracket <;> rfl
  | atom .comment text =>
    obtain ⟨body, htext, hbody⟩ := hform
    obtain ⟨rfl, hmake, hdrop⟩ := ofList_takeWhile_and_dropWhile (p := (!isLineEnd ·)) happ htext
      (fun d hd ↦ by simp [hbody d hd]) hends
    rw [← hmake, ← hdrop]
    rfl
  | atom .string text =>
    obtain ⟨body, hbody, htext⟩ := hform
    rw [Lexeme.chars, htext] at happ
    obtain ⟨rfl, rfl⟩ := List.cons.inj happ
    have hclose : closeString? (body ++ ['"'] ++ rest) = some (body ++ ['"'], rest) := by
      rw [List.append_assoc]
      exact closeString?_append hbody rest
    calc match? '"' (body ++ ['"'] ++ rest)
        = (closeString? (body ++ ['"'] ++ rest)).map
            fun found ↦ (atom .string (String.ofList ('"' :: found.1)), found.2) := rfl
      _ = some (atom .string (String.ofList ('"' :: (body ++ ['"']))), rest) := by
          rw [hclose, Option.map_some]
      _ = some (atom .string text, rest) := by rw [← htext, String.ofList_toList]
  | atom .number text =>
    have happ : text.toList ++ rest = c :: cs := happ
    have hnumber : startsNumber (c :: cs) = true := happ ▸ startsNumber_of_isNumeral hform rest
    obtain ⟨d, run, htext, -, hrun⟩ := IsNumeral.exists_cons hform
    obtain ⟨-, hmake, hdrop⟩ := ofList_takeWhile_and_dropWhile happ htext hrun hends
    rw [match?_of_startsNumber hnumber, hmake, hdrop]
  | atom .symbol text =>
    obtain ⟨hne, hall, hnumber⟩ := hform
    obtain ⟨d, run, htext⟩ := List.exists_cons_of_ne_nil hne
    rw [htext, List.forall_mem_cons] at hall
    obtain ⟨rfl, hmake, hdrop⟩ := ofList_takeWhile_and_dropWhile happ htext hall.2 hends
    -- `-` begins no number because the digit that would make it one is a character of symbols
    have happ : text.toList ++ rest = d :: cs := happ
    rw [← startsNumber_append_iff hne fun e he ↦ isDigit_eq_false_of_isSymbolChar (hends e he),
      happ] at hnumber
    rw [match?_of_isSymbolChar hall.1 hnumber, hmake, hdrop]

/-- The lexeme found at the beginning of a text is the one that is well formed, stands there and
cannot be prolonged. -/
theorem match?_eq_some_iff :
    match? c cs = some (lexeme, rest) ↔
      lexeme.WellFormed ∧ lexeme.EndsBefore rest ∧ lexeme.chars ++ rest = c :: cs := by
  constructor
  · intro h
    obtain ⟨hform, hends⟩ := wellFormed_and_endsBefore_of_match? h
    exact ⟨hform, hends, chars_append_of_match? h⟩
  · rintro ⟨hform, hends, happ⟩
    exact match?_of_wellFormed hform hends happ

/-! ## Where no lexeme begins -/

theorem match?_ne_none_of_isSymbolChar (h : isSymbolChar c = true) (cs : List Char) :
    match? c cs ≠ none := by
  by_cases hnumber : startsNumber (c :: cs) = true
  · rw [match?_of_startsNumber hnumber]
    exact Option.some_ne_none _
  · rw [match?_of_isSymbolChar h (eq_false_of_ne_true hnumber)]
    exact Option.some_ne_none _

/-- Only a quote depends on what follows it: any other character begins a lexeme in every text or
in none. -/
theorem chars_ne_cons_of_match?_eq_none (h : match? c cs = none) (hquote : c ≠ '"')
    (hform : lexeme.WellFormed) (more : List Char) : lexeme.chars ≠ c :: more := by
  intro hchars
  match lexeme with
  | opening bracket | closing bracket =>
    obtain ⟨rfl, -⟩ := List.cons.inj hchars
    cases bracket <;> exact nomatch h
  | atom .comment text =>
    obtain ⟨body, htext, -⟩ := hform
    obtain ⟨rfl, -⟩ := List.cons.inj (htext.symm.trans hchars)
    exact nomatch h
  | atom .string text =>
    obtain ⟨body, -, htext⟩ := hform
    exact hquote (List.cons.inj (htext.symm.trans hchars)).1.symm
  | atom .number text =>
    obtain ⟨d, run, htext, hd, -⟩ := IsNumeral.exists_cons hform
    obtain ⟨rfl, -⟩ := List.cons.inj (htext.symm.trans hchars)
    exact match?_ne_none_of_isSymbolChar hd cs h
  | atom .symbol text =>
    obtain ⟨-, hall, -⟩ := hform
    rw [show text.toList = c :: more from hchars, List.forall_mem_cons] at hall
    exact match?_ne_none_of_isSymbolChar hall.1 cs h

/-- A character that is no quote begins no lexeme here when it begins none anywhere. -/
theorem match?_eq_none_iff (hquote : c ≠ '"') :
    match? c cs = none ↔
      ∀ (lexeme : Lexeme) (more : List Char), lexeme.WellFormed → lexeme.chars ≠ c :: more := by
  refine ⟨fun h lexeme more hform ↦ chars_ne_cons_of_match?_eq_none h hquote hform more,
    fun h ↦ Option.eq_none_iff_forall_ne_some.mpr fun ⟨lexeme, rest⟩ hmatch ↦ ?_⟩
  obtain ⟨more, hchars, -⟩ := exists_chars_of_match? hmatch
  exact h lexeme more (wellFormed_and_endsBefore_of_match? hmatch).1 hchars

/-- A quote begins no lexeme when it opens a string that is never closed. -/
theorem match?_quote_eq_none_iff :
    match? '"' cs = none ↔ ∀ body more, IsLiteralBody body → cs ≠ body ++ '"' :: more := by
  have hclosed : match? '"' cs = none ↔ closeString? cs = none := Option.map_eq_none_iff
  rw [hclosed]
  constructor
  · rintro h body more hbody rfl
    exact absurd h (by rw [closeString?_append hbody more]; exact Option.some_ne_none _)
  · refine fun h ↦ Option.eq_none_iff_forall_ne_some.mpr fun ⟨text, rest⟩ hclose ↦ ?_
    obtain ⟨body, hbody, rfl, rfl⟩ := closeString?_eq_some_iff.mp hclose
    exact h body rest hbody (by rw [List.append_assoc]; rfl)

end Lexeme

end QuoteLisp
