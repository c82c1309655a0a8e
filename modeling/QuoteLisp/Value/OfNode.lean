import QuoteLisp.Node.Basic
import QuoteLisp.Number.Decimal
import QuoteLisp.Text.Escape
import QuoteLisp.Value.Basic

/-!
# Reading a tree

A tree becomes a value according to the words in its tags: a number, a symbol, a string, a form in
braces, or else a form in parentheses, whichever word is found first in this order. Brackets,
anchors and comments have done their work when the tree stands, and are dropped.
-/

namespace QuoteLisp

/-- Whether a word occurs in a text. -/
def mentions (word : List Char) : List Char → Bool
  | [] => word.isEmpty
  | c :: cs => word.isPrefixOf (c :: cs) || mentions word cs

namespace Node

/-- Whether a rule's name occurs in the tag of a node. -/
def hasRule (node : Node) (rule : String) : Bool :=
  mentions rule.toList node.tag.toList

/-- Whether a node only frames its neighbours and has no value. -/
def isStructural (node : Node) : Bool :=
  ["(", ")", "\x7b", "\x7d"].contains node.contents || node.tag == "regex" || node.hasRule "comment"

end Node

/-- The text between the quotes of a string literal. A text without a quote at either end has no
inside and is taken whole; a lone quote is not two. -/
def insideQuotes (literal : List Char) : List Char :=
  match literal with
  | '"' :: rest => if rest.getLast? = some '"' then rest.dropLast else literal
  | _ => literal

namespace Value

/-- The number that a literal denotes, or an error when it does not fit. -/
def ofNumberText (text : String) : Value :=
  match Decimal.read? text.toList with
  | some n => number n
  | none => (EvalError.invalidNumber text).toValue

/-- The string that a literal denotes. -/
def ofStringLiteral (literal : String) : Value :=
  string (String.ofList (unescape (insideQuotes literal.toList)))

mutual

/-- The value that a tree stands for. -/
def ofNode : Node → Value
  | .mk tag contents span children =>
    let node := Node.mk tag contents span children
    if node.hasRule "number" then ofNumberText contents
    else if node.hasRule "symbol" then symbol contents
    else if node.hasRule "string" then ofStringLiteral contents
    else if node.hasRule "qexpr" then qexpr (ofNodes children)
    else sexpr (ofNodes children)

/-- The values of those trees that have one. -/
def ofNodes : List Node → List Value
  | [] => []
  | node :: nodes => if node.isStructural then ofNodes nodes else ofNode node :: ofNodes nodes

end

end Value

end QuoteLisp
