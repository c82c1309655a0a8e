import QuoteLisp.Text.Blank
import QuoteLisp.Token.Basic

/-!
# Cutting a source into tokens

`tokens` walks over a source from left to right. Blanks are skipped; at any other character the
longest lexeme that begins there is taken. Which kind of lexeme it is, one character decides, and
two when the first is a minus sign.

## The invariant

`Lexeme.match?` splits its input: the source text of the lexeme followed by what is left is the text
it was given (`Lexeme.chars_append_of_match?`). The walk carries the number of bytes it has passed,
so the span of a token is that count before and after the text of its lexeme.
-/

namespace QuoteLisp

/-- Why a source cannot be cut into tokens, with the byte offset to blame. -/
inductive LexError where
  | unexpected (c : Char) (offset : Nat)
  | unterminated (offset : Nat)
  deriving DecidableEq, Repr

namespace LexError

/-- The place in the source that an error is about. -/
def offset : LexError → Nat
  | unexpected _ offset | unterminated offset => offset

/-- The wording of an error. -/
def message : LexError → String
  | unexpected c offset => "Unexpected character '" ++ c.toString ++ "' at " ++ offset.repr
  | unterminated offset => "Unterminated string starting at " ++ offset.repr

end LexError

/-! ## One lexeme -/

/-- The rest of a string literal, up to and including the quote that ends it, and what follows. A
backslash takes the next character with it, whatever that is. -/
def closeString? : List Char → Option (List Char × List Char)
  | [] => none
  | ['\\'] => none
  | '\\' :: c :: cs => (closeString? cs).map fun (text, rest) ↦ ('\\' :: c :: text, rest)
  | '"' :: cs => some (['"'], cs)
  | c :: cs => (closeString? cs).map fun (text, rest) ↦ (c :: text, rest)

/-- The longest lexeme at the beginning of the text `c :: cs`, and what follows it. -/
def Lexeme.match? (c : Char) (cs : List Char) : Option (Lexeme × List Char) :=
  if c = '(' then some (opening .paren, cs)
  else if c = ')' then some (closing .paren, cs)
  else if c = '{' then some (opening .brace, cs)
  else if c = '}' then some (closing .brace, cs)
  else if c = ';' then
    let inLine := (!isLineEnd ·)
    some (atom .comment (String.ofList (c :: cs.takeWhile inLine)), cs.dropWhile inLine)
  else if c = '"' then
    (closeString? cs).map fun (text, rest) ↦ (atom .string (String.ofList (c :: text)), rest)
  else if startsNumber (c :: cs) then
    some (atom .number (String.ofList (c :: cs.takeWhile Char.isDigit)), cs.dropWhile Char.isDigit)
  else if isSymbolChar c then
    some (atom .symbol (String.ofList (c :: cs.takeWhile isSymbolChar)), cs.dropWhile isSymbolChar)
  else none

private theorem append_of_closeString? {cs text rest : List Char}
    (h : closeString? cs = some (text, rest)) : text ++ rest = cs := by
  fun_induction closeString? cs generalizing text rest with
  | case1 => simp at h
  | case2 => simp at h
  | case3 c cs ih =>
    obtain ⟨⟨text', rest'⟩, h', heq⟩ := Option.map_eq_some_iff.1 h
    obtain ⟨rfl, rfl⟩ := Prod.mk.inj heq
    simp [ih h']
  | case4 cs =>
    obtain ⟨rfl, rfl⟩ := Prod.mk.inj (Option.some.inj h)
    rfl
  | case5 c cs _ _ _ ih =>
    obtain ⟨⟨text', rest'⟩, h', heq⟩ := Option.map_eq_some_iff.1 h
    obtain ⟨rfl, rfl⟩ := Prod.mk.inj heq
    simp [ih h']

/-- A lexeme begins with the first character of the text, and the rest of it and what follows are
the rest of the text. -/
theorem Lexeme.exists_chars_of_match? {c : Char} {cs rest : List Char} {lexeme : Lexeme}
    (h : Lexeme.match? c cs = some (lexeme, rest)) :
    ∃ more, lexeme.chars = c :: more ∧ more ++ rest = cs := by
  have bracket {l : Lexeme} (hc : l.chars = [c]) (h : some (l, cs) = some (lexeme, rest)) :
      ∃ more, lexeme.chars = c :: more ∧ more ++ rest = cs := by
    obtain ⟨rfl, rfl⟩ := Prod.mk.inj (Option.some.inj h)
    exact ⟨[], hc, rfl⟩
  have run {make : String → Lexeme} (p : Char → Bool) (hmake : ∀ s, (make s).chars = s.toList)
      (h : some (make (String.ofList (c :: cs.takeWhile p)), cs.dropWhile p)
        = some (lexeme, rest)) : ∃ more, lexeme.chars = c :: more ∧ more ++ rest = cs := by
    obtain ⟨rfl, rfl⟩ := Prod.mk.inj (Option.some.inj h)
    exact ⟨cs.takeWhile p, by simp [hmake], List.takeWhile_append_dropWhile⟩
  unfold Lexeme.match? at h
  split at h
  · exact bracket (by simp [chars, Bracket.opener, *]) h
  split at h
  · exact bracket (by simp [chars, Bracket.closer, *]) h
  split at h
  · exact bracket (by simp [chars, Bracket.opener, *]) h
  split at h
  · exact bracket (by simp [chars, Bracket.closer, *]) h
  split at h
  · exact run _ (fun _ ↦ rfl) h
  split at h
  · obtain ⟨⟨text, rest'⟩, h', heq⟩ := Option.map_eq_some_iff.1 h
    obtain ⟨rfl, rfl⟩ := Prod.mk.inj heq
    exact ⟨text, by simp [chars], append_of_closeString? h'⟩
  split at h
  · exact run _ (fun _ ↦ rfl) h
  split at h
  · exact run _ (fun _ ↦ rfl) h
  · exact absurd h (by simp)

/-- Taking a lexeme off a text loses nothing. -/
theorem Lexeme.chars_append_of_match? {c : Char} {cs rest : List Char} {lexeme : Lexeme}
    (h : Lexeme.match? c cs = some (lexeme, rest)) : lexeme.chars ++ rest = c :: cs := by
  obtain ⟨more, hchars, rfl⟩ := exists_chars_of_match? h
  simp [hchars]

/-- What follows a lexeme is shorter than the text it was taken from. -/
theorem Lexeme.length_lt_of_match? {c : Char} {cs rest : List Char} {lexeme : Lexeme}
    (h : Lexeme.match? c cs = some (lexeme, rest)) : rest.length < (c :: cs).length := by
  obtain ⟨more, -, rfl⟩ := exists_chars_of_match? h
  simp only [List.length_cons, List.length_append]
  omega

/-! ## The whole source -/

/-- The tokens of a text that begins at a byte offset of its source. -/
def tokensFrom (offset : Nat) : List Char → Except LexError (List Token)
  | [] => .ok [⟨.endMark, ⟨offset, offset⟩⟩]
  | c :: cs =>
    if isBlank c then tokensFrom (offset + c.utf8Size) cs
    else
      match _h : Lexeme.match? c cs with
      | none => .error (if c = '"' then .unterminated offset else .unexpected c offset)
      | some (lexeme, rest) =>
        let stop := offset + byteLength lexeme.chars
        (tokensFrom stop rest).map (⟨lexeme, ⟨offset, stop⟩⟩ :: ·)
termination_by cs => cs.length
decreasing_by
  · simp
  · exact Lexeme.length_lt_of_match? ‹_›

/-- The tokens of a source, ending in the end mark. -/
def tokens (source : List Char) : Except LexError (List Token) :=
  tokensFrom 0 source

end QuoteLisp
