import QuoteLisp.Proofs.Node.Parse
import QuoteLisp.Proofs.Number.Decimal
import QuoteLisp.Proofs.Token.Literal
import QuoteLisp.Proofs.Value.Occurs
import QuoteLisp.Proofs.Value.OfNode
import QuoteLisp.Value.Display

/-!
# Printing and reading

Numbers, strings, symbols and forms of these can be written in a source. The text of such a value
reads back as the value (`Value.ReadsAs`, `Value.readsAs_chars`), and nothing else is ever read from
a source, apart from the errors that stand for numerals out of range (`Value.readable_of_reads`).

## Texts in context

Whether a text is read as some values depends on what comes after it, since a symbol or a numeral
goes on for as long as it can. `Value.ReadsAs` therefore asks for it in front of every text that
begins with something else, and is what texts in sequence and in brackets inherit.
-/

namespace QuoteLisp

/-! ## Tokens in front of a text -/

/-- What is at the beginning of a text cannot belong to a symbol or a numeral before it. -/
def Separates (rest : List Char) : Prop :=
  ∀ c ∈ rest.head?, isSymbolChar c = false

theorem separates_cons {c : Char} {cs : List Char} (h : isSymbolChar c = false) :
    Separates (c :: cs) := by
  intro d hd
  rwa [← Option.some.inj hd]

/-- After an atom other than a comment, a separator is enough. -/
theorem Lexeme.endsBefore_of_separates {kind : AtomKind} {text : String} {rest : List Char}
    (hkind : kind ≠ .comment) (h : Separates rest) : (atom kind text).EndsBefore rest := by
  intro c hc
  cases kind with
  | number => exact isDigit_eq_false_of_isSymbolChar (h c hc)
  | symbol => exact h c hc
  | string => rfl
  | comment => exact absurd rfl hkind

/-- A lexeme that nothing prolongs becomes the first token, and the rest is cut as if the source
began there. -/
theorem tokensFrom_lexeme {lexeme : Lexeme} {rest : List Char} {more : List Token} {offset : Nat}
    (hform : lexeme.WellFormed) (hends : lexeme.EndsBefore rest)
    (hmore : tokensFrom (offset + byteLength lexeme.chars) rest = .ok more) :
    tokensFrom offset (lexeme.chars ++ rest)
      = .ok (⟨lexeme, ⟨offset, offset + byteLength lexeme.chars⟩⟩ :: more) := by
  rw [tokensFrom_chars_append hform hends, hmore]
  rfl

/-- An atom is never written like a bracket, because a bracket would be found there. -/
theorem Lexeme.WellFormed.not_mem_brackets {kind : AtomKind} {text : String}
    (h : (Lexeme.atom kind text).WellFormed) : text ∉ ["(", ")", "\x7b", "\x7d"] := by
  have hfound {c : Char} (htext : text.toList = [c]) :
      Lexeme.match? c [] = some (.atom kind text, []) :=
    Lexeme.match?_of_wellFormed h (fun c hc ↦ absurd hc (Option.not_mem_none c))
      (by rw [List.append_nil]; exact htext)
  have hbracket {bracket : Bracket} :
      Lexeme.match? bracket.opener [] = some (.opening bracket, []) ∧
        Lexeme.match? bracket.closer [] = some (.closing bracket, []) := by
    cases bracket <;> exact ⟨rfl, rfl⟩
  intro hmem
  simp only [List.mem_cons, List.not_mem_nil, or_false] at hmem
  rcases hmem with rfl | rfl | rfl | rfl
  · exact absurd ((@hbracket .paren).1.symm.trans (hfound (by decide))) (by simp)
  · exact absurd ((@hbracket .paren).2.symm.trans (hfound (by decide))) (by simp)
  · exact absurd ((@hbracket .brace).1.symm.trans (hfound (by decide))) (by simp)
  · exact absurd ((@hbracket .brace).2.symm.trans (hfound (by decide))) (by simp)

namespace Value

open Node

/-- An atom other than a comment has a value. -/
theorem ofNodes_cons_atom {kind : AtomKind} {text : String}
    (hform : (Lexeme.atom kind text).WellFormed) (hkind : kind ≠ .comment) (span : Span)
    (nodes : List Node) :
    ofNodes (leaf (atomTag kind) text span :: nodes)
      = ofNode (leaf (atomTag kind) text span) :: ofNodes nodes :=
  ofNodes_cons_of_not_isStructural (isStructural_atom hkind hform.not_mem_brackets span) nodes

/-! ## Texts that read as values -/

/-- Wherever the text stands in a source, if something follows that separates, it is cut into the
tokens of a sequence of items with the given values. -/
def ReadsAs (text : List Char) (values : List Value) : Prop :=
  ∀ offset, ∃ ts items,
    (∀ rest more, Separates rest → tokensFrom (offset + byteLength text) rest = .ok more →
      tokensFrom offset (text ++ rest) = .ok (ts ++ more)) ∧
    Reads ts items [] ∧ ofNodes items = values

theorem readsAs_nil : ReadsAs [] [] :=
  fun _ ↦ ⟨[], [], fun _ _ _ h ↦ h, .done [], rfl⟩

/-- An atom reads as its value. -/
theorem readsAs_atom {kind : AtomKind} {text : String} {v : Value}
    (hform : (Lexeme.atom kind text).WellFormed) (hkind : kind ≠ .comment)
    (hvalue : ∀ span, ofNode (leaf (atomTag kind) text span) = v) : ReadsAs text.toList [v] := by
  intro offset
  refine ⟨[⟨.atom kind text, ⟨offset, offset + byteLength text.toList⟩⟩], _,
    fun rest more hrest hmore ↦ ?_, .atom kind text _ (.done []), ?_⟩
  · have hends : (Lexeme.atom kind text).EndsBefore rest :=
      Lexeme.endsBefore_of_separates hkind hrest
    exact tokensFrom_lexeme hform hends hmore
  · rw [ofNodes_cons_atom hform hkind, hvalue, ofNodes]

/-- Two texts with a space between them read as the values of both. -/
theorem ReadsAs.space {text text' : List Char} {values values' : List Value}
    (h : ReadsAs text values) (h' : ReadsAs text' values') :
    ReadsAs (text ++ ' ' :: text') (values ++ values') := by
  intro offset
  obtain ⟨ts, items, hcut, hreads, rfl⟩ := h offset
  obtain ⟨ts', items', hcut', hreads', rfl⟩ := h' (offset + byteLength text + ' '.utf8Size)
  refine ⟨ts ++ ts', items ++ items', fun rest more hrest hmore ↦ ?_,
    (hreads.append ts').trans hreads', ofNodes_append items items'⟩
  rw [byteLength_append, byteLength_cons, ← Nat.add_assoc, ← Nat.add_assoc] at hmore
  have hspace := tokensFrom_blank (show isBlank ' ' = true by decide) (offset + byteLength text)
    (text' ++ rest)
  rw [hcut' rest more hrest hmore] at hspace
  rw [List.append_assoc, List.cons_append, List.append_assoc]
  exact hcut _ _ (separates_cons (by decide)) hspace

/-- A text in brackets reads as the form with its values. -/
theorem ReadsAs.form {text : List Char} {values : List Value} (h : ReadsAs text values)
    (bracket : Bracket) :
    ReadsAs (bracket.opener :: (text ++ [bracket.closer])) [ofForm bracket values] := by
  intro offset
  obtain ⟨ts, items, hcut, hreads, rfl⟩ := h (offset + byteLength [bracket.opener])
  have hcloser : isSymbolChar bracket.closer = false := by cases bracket <;> decide
  refine ⟨_, _, fun rest more hrest hmore ↦ ?_,
    .form bracket ⟨offset, offset + byteLength [bracket.opener]⟩
      ⟨offset + byteLength [bracket.opener] + byteLength text,
        offset + byteLength [bracket.opener] + byteLength text + byteLength [bracket.closer]⟩
      (hreads.append _) (.done []), ?_⟩
  · have hstop : byteLength (bracket.opener :: (text ++ [bracket.closer]))
        = byteLength [bracket.opener] + byteLength text + byteLength [bracket.closer] := by
      rw [← List.singleton_append, byteLength_append, byteLength_append, Nat.add_assoc]
    rw [hstop, ← Nat.add_assoc, ← Nat.add_assoc] at hmore
    have hclosing := @tokensFrom_lexeme (.closing bracket) _ _ _ trivial trivial hmore
    have hinside := hcut _ _ (separates_cons hcloser) hclosing
    have hopening := @tokensFrom_lexeme (.opening bracket) _ _ _ trivial trivial hinside
    simp only [List.cons_append, List.append_assoc, List.nil_append]
    exact hopening
  · rw [ofNodes_cons_of_not_isStructural (isStructural_form _ _ _ _), ofNode_form, ofNodes]

/-! ## Values that can be written -/

/-- The values that a source can express: numbers, strings, symbols with a name that is one token,
and forms of these. -/
inductive Readable : Value → Prop
  | number (n : Int64) : Readable (number n)
  | string (text : String) : Readable (string text)
  | symbol {name : String} : IsName name.toList → Readable (symbol name)
  | sexpr {cells : List Value} : (∀ v ∈ cells, Readable v) → Readable (sexpr cells)
  | qexpr {cells : List Value} : (∀ v ∈ cells, Readable v) → Readable (qexpr cells)

@[simp] theorem readable_number (n : Int64) : (Value.number n).Readable := .number n

@[simp] theorem readable_string (text : String) : (Value.string text).Readable := .string text

@[simp] theorem readable_symbol_iff {name : String} :
    (Value.symbol name).Readable ↔ IsName name.toList :=
  ⟨fun | .symbol h => h, .symbol⟩

@[simp] theorem readable_sexpr_iff {cells : List Value} :
    (Value.sexpr cells).Readable ↔ ∀ v ∈ cells, v.Readable :=
  ⟨fun | .sexpr h => h, .sexpr⟩

@[simp] theorem readable_qexpr_iff {cells : List Value} :
    (Value.qexpr cells).Readable ↔ ∀ v ∈ cells, v.Readable :=
  ⟨fun | .qexpr h => h, .qexpr⟩

theorem isNumeral_write (n : Int64) : IsNumeral (Decimal.write n) := by
  rw [Decimal.write, Decimal.writeInt]
  refine ⟨_, Decimal.digits_ne_nil n.toInt.natAbs, Decimal.isDigit_of_mem_digits, ?_⟩
  split
  · exact Or.inr rfl
  · exact Or.inl rfl

theorem insideQuotes_literal (body : List Char) :
    insideQuotes ('"' :: (body ++ ['"'])) = body := by
  rw [insideQuotes, List.getLast?_concat, if_pos rfl, List.dropLast_concat]

theorem ofNumberText_write (n : Int64) :
    ofNumberText (String.ofList (Decimal.write n)) = number n := by
  rw [ofNumberText, String.toList_ofList, Decimal.read?_write]

theorem ofStringLiteral_escape (text : String) :
    ofStringLiteral (String.ofList ('"' :: (escape text.toList ++ ['"']))) = string text := by
  rw [ofStringLiteral, String.toList_ofList, insideQuotes_literal, unescape_escape,
    String.ofList_toList]

theorem chars_number (n : Int64) : (number n).chars = Decimal.write n := rfl

theorem chars_string (text : String) :
    (string text).chars = '"' :: (escape text.toList ++ ['"']) := rfl

theorem chars_sexpr (cells : List Value) :
    (sexpr cells).chars = '(' :: (spaced (charsAll cells) ++ [')']) := rfl

theorem chars_qexpr (cells : List Value) :
    (qexpr cells).chars = '{' :: (spaced (charsAll cells) ++ ['}']) := rfl

theorem chars_closure (formals : List String) (body : List Value) (bound : List (String × Value)) :
    (closure formals body bound).chars
      = '(' :: '\\' :: ' ' :: '{' :: (spaced (formals.map String.toList)
          ++ '}' :: ' ' :: '{' :: (spaced (charsAll body) ++ ['}', ')'])) := rfl

theorem spaced_singleton (text : List Char) : spaced [text] = text :=
  List.intercalate_singleton

theorem spaced_cons_cons (text text' : List Char) (texts : List (List Char)) :
    spaced (text :: text' :: texts) = text ++ ' ' :: spaced (text' :: texts) := by
  rw [spaced, List.intercalate_cons_cons, List.append_assoc]
  rfl

/-- The texts of values with spaces between them read as the values. -/
theorem readsAs_spaced {vs : List Value} (h : ∀ v ∈ vs, ReadsAs v.chars [v]) :
    ReadsAs (spaced (charsAll vs)) vs := by
  induction vs with
  | nil => exact readsAs_nil
  | cons v vs ih =>
    obtain ⟨hv, hvs⟩ := List.forall_mem_cons.mp h
    match vs with
    | [] =>
      rw [charsAll, charsAll, spaced_singleton]
      exact hv
    | w :: ws =>
      rw [charsAll, charsAll, spaced_cons_cons]
      exact hv.space (ih hvs)

/-- The text of a value that can be written reads as the value. -/
theorem readsAs_chars {v : Value} (h : v.Readable) : ReadsAs v.chars [v] := by
  induction h with
  | number n =>
    have hform : (Lexeme.atom .number (String.ofList (Decimal.write n))).WellFormed := by
      rw [Lexeme.WellFormed, String.toList_ofList]
      exact isNumeral_write n
    rw [chars_number, ← @String.toList_ofList (Decimal.write n)]
    exact readsAs_atom hform (by decide) fun span ↦ by rw [ofNode_number, ofNumberText_write]
  | string text =>
    have hform : (Lexeme.literal (escape text.toList)).WellFormed :=
      (isLiteralBody_escape text.toList).wellFormed_literal
    rw [chars_string, ← @String.toList_ofList ('"' :: (escape text.toList ++ ['"']))]
    exact readsAs_atom hform (by decide) fun span ↦ by rw [ofNode_string, ofStringLiteral_escape]
  | @symbol name hname =>
    exact @readsAs_atom .symbol name _ hname (by decide) fun span ↦ ofNode_symbol name span
  | sexpr _ ih => exact (readsAs_spaced ih).form .paren
  | qexpr _ ih => exact (readsAs_spaced ih).form .brace

/-! ## Values that are read -/

/-- An atom stands for a value that can be written or for an error, unless it is a comment. -/
theorem readable_of_atom {kind : AtomKind} {text : String}
    (hform : (Lexeme.atom kind text).WellFormed) (hkind : kind ≠ .comment) (span : Span)
    (herror : (ofNode (leaf (atomTag kind) text span)).ErrorFree) :
    (ofNode (leaf (atomTag kind) text span)).Readable := by
  cases kind with
  | number =>
    rw [ofNode_number, ofNumberText] at herror ⊢
    split at herror
    · exact .number _
    · exact absurd herror (not_errorFree_error _)
  | symbol =>
    rw [ofNode_symbol]
    exact .symbol hform
  | string =>
    rw [ofNode_string]
    exact .string _
  | comment => exact absurd rfl hkind

/-- What holds of the values of atoms, and of forms when it holds of their cells, holds of whatever
is read. -/
theorem forall_mem_of_reads {P : Value → Prop} {ts rest : List Token} {items : List Node}
    (h : Reads ts items rest) (hts : ∀ t ∈ ts, t.lexeme.WellFormed)
    (hatom : ∀ kind text span, ⟨.atom kind text, span⟩ ∈ ts → kind ≠ .comment →
      P (ofNode (leaf (atomTag kind) text span)))
    (hform : ∀ bracket cells, (∀ v ∈ cells, P v) → P (ofForm bracket cells)) :
    ∀ v ∈ ofNodes items, P v := by
  induction h with
  | done => exact List.forall_mem_nil _
  | @atom tokens rest items kind text span _ ih =>
    obtain ⟨hlexeme, htokens⟩ := List.forall_mem_cons.mp hts
    have hrest := ih htokens fun kind text span hmem ↦
      hatom kind text span (List.mem_cons_of_mem _ hmem)
    by_cases hkind : kind = .comment
    · subst kind
      rwa [ofNodes_cons_of_isStructural (isStructural_comment text span)]
    · rw [ofNodes_cons_atom hlexeme hkind]
      exact List.forall_mem_cons.mpr ⟨hatom kind text span List.mem_cons_self hkind, hrest⟩
  | @form tokens middle rest inner items bracket opening closing hinner _ ihinner ih =>
    obtain ⟨-, htokens⟩ := List.forall_mem_cons.mp hts
    have hmiddle : middle ⊆ tokens := fun t ht ↦ hinner.subset (List.mem_cons_of_mem _ ht)
    have hcells := ihinner htokens fun kind text span hmem ↦
      hatom kind text span (List.mem_cons_of_mem _ hmem)
    have hrest := ih (fun t ht ↦ htokens t (hmiddle ht)) fun kind text span hmem ↦
      hatom kind text span (List.mem_cons_of_mem _ (hmiddle hmem))
    rw [ofNodes_cons_of_not_isStructural (isStructural_form _ _ _ _), ofNode_form]
    exact List.forall_mem_cons.mpr ⟨hform bracket _ hcells, hrest⟩

/-- Whatever is read can be written, unless an error occurs in it. -/
theorem readable_of_reads {ts rest : List Token} {items : List Node} (h : Reads ts items rest)
    (hform : ∀ t ∈ ts, t.lexeme.WellFormed) (herror : ∀ v ∈ ofNodes items, v.ErrorFree) :
    ∀ v ∈ ofNodes items, v.Readable := by
  have hall : ∀ v ∈ ofNodes items, v.ErrorFree → v.Readable := by
    refine forall_mem_of_reads h hform (fun kind text span hmem hkind ↦ ?_)
      fun bracket cells hcells herror ↦ ?_
    · exact readable_of_atom (hform _ hmem) hkind span
    · cases bracket with
      | paren => exact .sexpr fun v hv ↦ hcells v hv (herror.of_occurs (.sexpr hv .here))
      | brace => exact .qexpr fun v hv ↦ hcells v hv (herror.of_occurs (.qexpr hv .here))
  exact fun v hv ↦ hall v hv (herror v hv)

/-! ## Whole sources -/

/-- A text that reads as some values is the source of the program with these values. -/
theorem ReadsAs.exists_parse {source : String} {values : List Value}
    (h : ReadsAs source.toList values) (file : String) :
    ∃ root, Node.parse source file = .ok root ∧ ofNode root = sexpr values := by
  obtain ⟨ts, items, hcut, hreads, rfl⟩ := h 0
  have hend : tokensFrom (0 + byteLength source.toList) []
      = .ok [⟨.endMark, ⟨byteLength source.toList, byteLength source.toList⟩⟩] := by
    rw [tokensFrom, Nat.zero_add]
  have htokens := hcut [] _ (fun c hc ↦ absurd hc (Option.not_mem_none c)) hend
  rw [List.append_nil] at htokens
  have hroot : ofTokens (ts ++ [⟨.endMark, ⟨byteLength source.toList, byteLength source.toList⟩⟩])
      = .ok (program (byteLength source.toList) items) :=
    (ofTokens_eq_ok_iff rfl hreads.not_endMark).mpr ⟨items, hreads, rfl⟩
  exact ⟨_, parse_eq_ok_of_ofTokens htokens hroot, ofNode_program (byteLength source.toList) items⟩

/-- The value of a source can be written, unless an error occurs in it. -/
theorem readable_of_parse {source file : String} {root : Node}
    (h : Node.parse source file = .ok root) (herror : (ofNode root).ErrorFree) :
    (ofNode root).Readable := by
  obtain ⟨body, items, -, hcover, hreads, rfl⟩ := parse_eq_ok_iff.mp h
  rw [ofNode_program] at herror ⊢
  refine .sexpr (readable_of_reads hreads hcover.wellFormed ?_)
  exact fun v hv ↦ herror.of_occurs (.sexpr hv .here)

/-- **Printing and reading are inverse.** The text of a value that can be written parses, and reads
as the program of that one value. Every source that parses has a value that can be written, unless
an error occurs in it, and so this value is printed and read again without loss. -/
theorem parse_display_and_readable_of_parse :
    (∀ (v : Value) (file : String), v.Readable →
      ∃ root, Node.parse v.display file = .ok root ∧ ofNode root = sexpr [v]) ∧
    ∀ (source file : String) (root : Node), Node.parse source file = .ok root →
      (ofNode root).ErrorFree →
      (ofNode root).Readable ∧
        ∀ file', ∃ root', Node.parse (ofNode root).display file' = .ok root' ∧
          ofNode root' = sexpr [ofNode root] := by
  have hprint (v : Value) (file : String) (h : v.Readable) :
      ∃ root, Node.parse v.display file = .ok root ∧ ofNode root = sexpr [v] := by
    refine ReadsAs.exists_parse ?_ file
    rw [display, String.toList_ofList]
    exact readsAs_chars h
  refine ⟨hprint, fun source file root h herror ↦ ?_⟩
  have hreadable := readable_of_parse h herror
  exact ⟨hreadable, fun file' ↦ hprint _ file' hreadable⟩

/-- A minus sign before a negative number, a name that only looks like one, and a string whose
quotes, backslashes and controls are all escaped. -/
theorem parse_display_minus_signs :
    ∃ root, Node.parse (sexpr [symbol "-", number (-5), qexpr [symbol "--5", symbol "+2"],
        string "\"\\\x00é\n"]).display "a.lspy" = .ok root ∧
      ofNode root = sexpr [sexpr [symbol "-", number (-5), qexpr [symbol "--5", symbol "+2"],
        string "\"\\\x00é\n"]] := by
  have hreadable : (sexpr [symbol "-", number (-5), qexpr [symbol "--5", symbol "+2"],
      string "\"\\\x00é\n"]).Readable := by
    simp +decide
  exact parse_display_and_readable_of_parse.1 _ _ hreadable

end Value

end QuoteLisp
