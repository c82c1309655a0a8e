import QuoteLisp.Text.Offset

/-!
# Tokens

A source text is cut into lexemes: numbers, symbols, strings, comments, brackets and one mark for
the end of the text. A token is a lexeme together with the span of the source it was read from.

A lexeme keeps its text exactly as written, a string with its quotes and escapes and a comment with
its semicolon, so `Lexeme.chars` is the very piece of source that the lexeme stands for.
-/

namespace QuoteLisp

/-! ## Brackets -/

/-- The two kinds of bracket: parentheses hold a form to evaluate, braces hold quoted data. -/
inductive Bracket where
  | paren
  | brace
  deriving DecidableEq, Repr

namespace Bracket

/-- The character that opens a form. -/
def opener : Bracket → Char
  | paren => '('
  | brace => '{'

/-- The character that closes a form. -/
def closer : Bracket → Char
  | paren => ')'
  | brace => '}'

end Bracket

/-! ## Characters of symbols -/

/-- The punctuation that may occur in a symbol. -/
def symbolPunctuation : List Char :=
  ['_', '+', '-', '*', '/', '\\', '=', '<', '>', '!', '&', '%', '^']

/-- Whether a character may occur in a symbol: the ASCII letters, the ASCII digits and thirteen
marks. -/
def isSymbolChar (c : Char) : Bool :=
  c.isAlphanum || symbolPunctuation.contains c

/-- Whether a text begins with an ASCII digit. -/
def startsWithDigit : List Char → Bool
  | [] => false
  | c :: _ => c.isDigit

/-- Whether a text begins like a number: with a digit, or with a minus sign and a digit. -/
def startsNumber : List Char → Bool
  | [] => false
  | c :: cs => c.isDigit || c == '-' && startsWithDigit cs

/-- Whether a character ends a line, and with it a comment. -/
def isLineEnd (c : Char) : Bool :=
  c == '\n' || c == '\r'

/-! ## Lexemes and tokens -/

/-- The kinds of lexeme that have a text of their own. -/
inductive AtomKind where
  | number
  | symbol
  | string
  | comment
  deriving DecidableEq, Repr

/-- A piece of source that has a meaning of its own. -/
inductive Lexeme where
  | atom (kind : AtomKind) (text : String)
  | opening (bracket : Bracket)
  | closing (bracket : Bracket)
  | endMark
  deriving DecidableEq, Repr

/-- The source text of a lexeme; the end of the text takes no room. -/
def Lexeme.chars : Lexeme → List Char
  | atom _ text => text.toList
  | opening bracket => [bracket.opener]
  | closing bracket => [bracket.closer]
  | endMark => []

/-- A lexeme with the place where it stands in the source. -/
structure Token where
  lexeme : Lexeme
  span : Span
  deriving DecidableEq, Repr

end QuoteLisp
