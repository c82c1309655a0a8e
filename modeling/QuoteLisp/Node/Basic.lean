import QuoteLisp.Token.Basic

/-!
# Syntax trees

A node of the tree names the grammar rules that produced it in its tag, joined by bars, and keeps
the span of source that it covers. A leaf keeps its text; a form keeps its parts instead, brackets
included, and has no text of its own. The root is framed by two empty anchors.

The tag is plain text and not one of a fixed list of kinds: whoever reads the tree looks for the
words in it, so a tree may come from elsewhere and carry more rules in its tags.
-/

namespace QuoteLisp

/-- A node of a syntax tree. -/
inductive Node where
  | mk (tag contents : String) (span : Span) (children : List Node)
  deriving Repr

namespace Node

/-- The grammar rules that produced the node. -/
def tag : Node → String
  | mk tag _ _ _ => tag

/-- The text of a leaf. -/
def contents : Node → String
  | mk _ contents _ _ => contents

/-- The part of the source that the node covers. -/
def span : Node → Span
  | mk _ _ span _ => span

/-- The parts of a form, in order. -/
def children : Node → List Node
  | mk _ _ _ children => children

/-- A node without parts. -/
def leaf (tag contents : String) (span : Span) : Node :=
  mk tag contents span []

/-- The anchor at the beginning or the end of a program. -/
def anchor (offset : Nat) : Node :=
  leaf "regex" "" ⟨offset, offset⟩

/-- The opening or closing bracket of a form. -/
def delimiter (c : Char) (span : Span) : Node :=
  leaf "char" c.toString span

/-- The tag of an atom. -/
def atomTag : AtomKind → String
  | .number => "expr|number|regex"
  | .symbol => "expr|symbol|regex"
  | .string => "expr|string|regex"
  | .comment => "expr|comment|regex"

/-- The tag of a form between brackets of a kind. -/
def formTag : Bracket → String
  | .paren => "expr|sexpr|>"
  | .brace => "expr|qexpr|>"

/-- A form with its parts between an opening and a closing bracket of one kind. -/
def form (bracket : Bracket) (opening closing : Span) (items : List Node) : Node :=
  mk (formTag bracket) "" ⟨opening.start, closing.stop⟩
    (delimiter bracket.opener opening :: items ++ [delimiter bracket.closer closing])

/-- A whole program that ends at a byte offset. -/
def program (stop : Nat) (items : List Node) : Node :=
  mk ">" "" ⟨0, stop⟩ (anchor 0 :: items ++ [anchor stop])

mutual

/-- The nodes of a tree in preorder, each with its depth below the given one. -/
def preorder (depth : Nat) : Node → List (Nat × Node)
  | mk tag contents span children =>
    (depth, mk tag contents span children) :: preorderAll (depth + 1) children

/-- The nodes of several trees of one depth, in preorder. -/
def preorderAll (depth : Nat) : List Node → List (Nat × Node)
  | [] => []
  | node :: nodes => preorder depth node ++ preorderAll depth nodes

end

end Node

end QuoteLisp
