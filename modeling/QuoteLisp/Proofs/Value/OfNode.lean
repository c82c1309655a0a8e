import QuoteLisp.Node.OfTokens
import QuoteLisp.Value.OfNode

/-!
# The values of the nodes of the grammar

Reading a tree looks for words in tags and for brackets among the contents. For the nodes that are
made from tokens that comes to this: anchors, brackets and comments vanish, a form is the list of
what is left of its items, and an atom is what its text says. No atom vanishes by mistake, because
its text is no bracket.
-/

namespace QuoteLisp

/-- The form that a pair of brackets of a kind makes of some cells. -/
def Value.ofForm : Bracket → List Value → Value
  | .paren => sexpr
  | .brace => qexpr

namespace Value

open Node

theorem ofNodes_append (xs ys : List Node) : ofNodes (xs ++ ys) = ofNodes xs ++ ofNodes ys := by
  induction xs with
  | nil => rfl
  | cons x xs ih =>
    rw [List.cons_append, ofNodes, ofNodes, ih]
    split <;> rfl

theorem ofNodes_cons_of_isStructural {node : Node} (h : node.isStructural = true)
    (nodes : List Node) : ofNodes (node :: nodes) = ofNodes nodes := by
  rw [ofNodes, if_pos h]

theorem ofNodes_cons_of_not_isStructural {node : Node} (h : node.isStructural = false)
    (nodes : List Node) : ofNodes (node :: nodes) = ofNode node :: ofNodes nodes := by
  rw [ofNodes, if_neg (by rw [h]; decide)]

/-- The nodes that frame a sequence vanish. -/
private theorem ofNodes_framed {first last : Node} (hfirst : first.isStructural = true)
    (hlast : last.isStructural = true) (items : List Node) :
    ofNodes (first :: items ++ [last]) = ofNodes items := by
  rw [List.cons_append, ofNodes_cons_of_isStructural hfirst, ofNodes_append,
    ofNodes_cons_of_isStructural hlast, ofNodes, List.append_nil]

/-! ## The words in a tag -/

section

variable (tag contents : String) (span : Span) (children : List Node)

private theorem isStructural_mk : (mk tag contents span children).isStructural =
    (["(", ")", "\x7b", "\x7d"].contains contents || tag == "regex" ||
      mentions "comment".toList tag.toList) := rfl

private theorem ofNode_mk : ofNode (mk tag contents span children) =
    if mentions "number".toList tag.toList then ofNumberText contents
    else if mentions "symbol".toList tag.toList then symbol contents
    else if mentions "string".toList tag.toList then ofStringLiteral contents
    else if mentions "qexpr".toList tag.toList then qexpr (ofNodes children)
    else sexpr (ofNodes children) := by
  rw [ofNode]
  rfl

end

/-! ## Forms -/

theorem isStructural_anchor (offset : Nat) : (anchor offset).isStructural = true := by
  rw [anchor, leaf, isStructural_mk]
  decide

theorem isStructural_delimiter (bracket : Bracket) (span : Span) :
    (delimiter bracket.opener span).isStructural = true ∧
      (delimiter bracket.closer span).isStructural = true := by
  rw [delimiter, leaf, isStructural_mk, delimiter, leaf, isStructural_mk]
  cases bracket <;> decide

theorem isStructural_form (bracket : Bracket) (opening closing : Span) (items : List Node) :
    (form bracket opening closing items).isStructural = false := by
  rw [form, isStructural_mk]
  cases bracket <;> decide

/-- A form is the list of the values of its items. -/
theorem ofNode_form (bracket : Bracket) (opening closing : Span) (items : List Node) :
    ofNode (form bracket opening closing items) = ofForm bracket (ofNodes items) := by
  rw [form, ofNode_mk, ofNodes_framed (isStructural_delimiter bracket opening).1
    (isStructural_delimiter bracket closing).2]
  cases bracket <;> simp +decide [ofForm]

/-- A program is the list of the values of its items. -/
theorem ofNode_program (stop : Nat) (items : List Node) :
    ofNode (program stop items) = sexpr (ofNodes items) := by
  rw [program, ofNode_mk, ofNodes_framed (isStructural_anchor 0) (isStructural_anchor stop)]
  simp +decide

/-! ## Atoms -/

theorem isStructural_comment (text : String) (span : Span) :
    (leaf (atomTag .comment) text span).isStructural = true := by
  rw [leaf, isStructural_mk, Bool.or_eq_true]
  exact .inr (by decide)

/-- Among the atoms, only comments and those that are written like a bracket vanish. -/
theorem isStructural_atom {kind : AtomKind} {text : String} (hkind : kind ≠ .comment)
    (htext : text ∉ ["(", ")", "\x7b", "\x7d"]) (span : Span) :
    (leaf (atomTag kind) text span).isStructural = false := by
  have htag :
      (atomTag kind == "regex" || mentions "comment".toList (atomTag kind).toList) = false := by
    cases kind with
    | comment => exact absurd rfl hkind
    | number | symbol | string => decide
  rw [leaf, isStructural_mk, Bool.or_assoc, htag, Bool.or_false]
  simpa using htext

section

variable (text : String) (span : Span)

theorem ofNode_number : ofNode (leaf (atomTag .number) text span) = ofNumberText text := by
  rw [leaf, ofNode_mk, if_pos (by decide)]

theorem ofNode_symbol : ofNode (leaf (atomTag .symbol) text span) = symbol text := by
  rw [leaf, ofNode_mk, if_neg (by decide), if_pos (by decide)]

theorem ofNode_string : ofNode (leaf (atomTag .string) text span) = ofStringLiteral text := by
  rw [leaf, ofNode_mk, if_neg (by decide), if_neg (by decide), if_pos (by decide)]

end

end Value

end QuoteLisp
