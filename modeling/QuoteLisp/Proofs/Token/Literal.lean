import QuoteLisp.Proofs.Text.Escape
import QuoteLisp.Proofs.Token.Cover
import QuoteLisp.Proofs.Token.Walk

/-!
# Escaped text between quotes

Three walks follow the pairs that a backslash begins: `escape` writes them, `closeString?` passes
over them on the way to the quote that ends a literal, and `unescape` reads them. A backslash may
be either part of a pair, so each walk depends on where it takes the pairs to begin, and on nothing
that another walk could tell it.

`IsLiteralBody` is what they agree on. A written form is a literal body (`IsWritten.isLiteralBody`).
A literal body ends at the quote after it, wherever it stands and whatever follows
(`tokensFrom_literal`). And no pair reaches over its end, so what follows is read as if it began
there (`IsLiteralBody.unescape_append`); of two texts with a pair across their boundary this does
not hold.
-/

namespace QuoteLisp

/-! ## Pairs within a literal -/

/-- In a written form, a quote is the second part of a pair. -/
theorem IsWritten.isLiteralBody {cs : List Char} (h : IsWritten cs) : IsLiteralBody cs := by
  induction h with
  | nil => exact .nil
  | pair _ _ ih => exact ih.escaped _
  | plain hnone _ ih =>
    obtain ⟨hslash, hquote⟩ := ne_of_escapeLetter?_eq_none hnone
    exact ih.plain hquote hslash

/-- The written form of a text can stand between quotes. -/
theorem isLiteralBody_escape (cs : List Char) : IsLiteralBody (escape cs) :=
  (isWritten_escape cs).isLiteralBody

/-- What follows the inside of a literal is read as if it began there. -/
theorem IsLiteralBody.unescape_append {body : List Char} (h : IsLiteralBody body)
    (rest : List Char) : unescape (body ++ rest) = unescape body ++ unescape rest := by
  induction h with
  | nil => rfl
  | @escaped letter cs _ ih =>
    -- both parts of the pair are in the body, so `rest` has no say in what it is read as
    rw [List.cons_append, List.cons_append, unescape_pair, ih, unescape_pair letter cs,
      List.append_assoc]
  | @plain c cs _ hslash _ ih =>
    rw [List.cons_append, unescape_cons_of_ne hslash, ih, unescape_cons_of_ne hslash,
      List.cons_append]

/-- A backslash at the end of a text takes the character that comes after the text. -/
example : unescape (['\\'] ++ ['n']) ≠ unescape ['\\'] ++ unescape ['n'] := by decide

/-- The insides of literals, one after the other, are read one by one. -/
theorem unescape_flatten {bodies : List (List Char)} (h : ∀ body ∈ bodies, IsLiteralBody body) :
    unescape bodies.flatten = (bodies.map unescape).flatten := by
  induction bodies with
  | nil => rfl
  | cons body bodies ih =>
    obtain ⟨hbody, hbodies⟩ := List.forall_mem_cons.mp h
    rw [List.flatten_cons, hbody.unescape_append, ih hbodies, List.map_cons, List.flatten_cons]

/-! ## Literals in a source -/

/-- The string literal with a given inside. -/
def Lexeme.literal (body : List Char) : Lexeme :=
  .atom .string (String.ofList ('"' :: (body ++ ['"'])))

@[simp] theorem Lexeme.chars_literal (body : List Char) :
    (literal body).chars = '"' :: (body ++ ['"']) :=
  String.toList_ofList

/-- A literal is longer than its inside by the two quotes. -/
theorem Lexeme.byteLength_chars_literal (body : List Char) :
    byteLength (literal body).chars = byteLength body + 2 := by
  rw [chars_literal, byteLength_cons, byteLength_append, byteLength_cons, byteLength_nil,
    Nat.add_comm]
  rfl

theorem IsLiteralBody.wellFormed_literal {body : List Char} (h : IsLiteralBody body) :
    (Lexeme.literal body).WellFormed :=
  ⟨body, h, Lexeme.chars_literal body⟩

/-- A literal is one token that ends with the quote after its inside, and the rest is cut as if the
source began there. -/
theorem tokensFrom_literal {body : List Char} (h : IsLiteralBody body) (offset : Nat)
    (rest : List Char) :
    tokensFrom offset ('"' :: (body ++ '"' :: rest))
      = (tokensFrom (offset + (byteLength body + 2)) rest).map
          (⟨.literal body, ⟨offset, offset + (byteLength body + 2)⟩⟩ :: ·) := by
  have hends : (Lexeme.literal body).EndsBefore rest := fun _ _ ↦ rfl
  have hcut := tokensFrom_chars_append h.wellFormed_literal hends offset
  rw [Lexeme.byteLength_chars_literal, Lexeme.chars_literal, List.cons_append,
    List.append_assoc] at hcut
  exact hcut

/-- **Escaping is self-delimiting, and unescaping normalizes.** Written texts, one after the other,
are read one by one. What is read from a text is read again from its written form, and that is the
text itself exactly if the text is a written form. A written text between quotes is the first token
of a source and ends with the second of these quotes, whenever the source has tokens at all; and it
has them if what follows the quote does. -/
theorem escape_delimits_and_unescape_normalizes :
    (∀ texts : List (List Char), unescape (texts.map escape).flatten = texts.flatten) ∧
      (∀ cs, unescape (escape (unescape cs)) = unescape cs) ∧
      (∀ cs, (escape (unescape cs) = cs ↔ ∃ text, escape text = cs) ∧
        ((∃ text, escape text = cs) ↔ IsWritten cs)) ∧
      ∀ text rest ts, tokens ('"' :: (escape text ++ '"' :: rest)) = .ok ts ↔
        ∃ more, tokensFrom (byteLength (escape text) + 2) rest = .ok more ∧
          ts = ⟨.literal (escape text), ⟨0, byteLength (escape text) + 2⟩⟩ :: more := by
  refine ⟨fun texts ↦ ?_, fun cs ↦ unescape_escape (unescape cs), fun cs ↦ ?_,
    fun text rest ts ↦ ?_⟩
  · have hbodies : ∀ body ∈ texts.map escape, IsLiteralBody body := by
      intro body hbody
      obtain ⟨text, -, rfl⟩ := List.mem_map.mp hbody
      exact isLiteralBody_escape text
    have hread : unescape ∘ escape = id := funext unescape_escape
    rw [unescape_flatten hbodies, List.map_map, hread, List.map_id]
  · exact ⟨escape_unescape_eq_self_iff.trans exists_escape_eq_iff.symm, exists_escape_eq_iff⟩
  · rw [tokens, tokensFrom_literal (isLiteralBody_escape text), Nat.zero_add,
      except_map_eq_ok_iff]
    exact exists_congr fun more ↦ and_congr_right' eq_comm

/-- A text that ends in a backslash takes neither the letter of the text after it nor the quote that
ends the literal. -/
theorem escape_delimits_final_backslash :
    unescape (escape ['\\'] ++ escape ['n']) = ['\\', 'n'] ∧
      tokens ('"' :: (escape ['é', '\\'] ++ '"' :: ['n']))
        = .ok [⟨.literal ['é', '\\', '\\'], ⟨0, 6⟩⟩, ⟨.atom .symbol "n", ⟨6, 7⟩⟩,
            ⟨.endMark, ⟨7, 7⟩⟩] :=
  ⟨escape_delimits_and_unescape_normalizes.1 [['\\'], ['n']],
    (escape_delimits_and_unescape_normalizes.2.2.2 ['é', '\\'] ['n'] _).mpr
      ⟨_, by simp +decide [tokensFrom, Lexeme.match?, Except.map], rfl⟩⟩

end QuoteLisp
