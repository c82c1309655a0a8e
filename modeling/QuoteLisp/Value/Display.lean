import QuoteLisp.Number.Decimal
import QuoteLisp.Text.Escape
import QuoteLisp.Value.Basic

/-!
# The text of a value

Values are printed the way they are written in a source: numbers in base ten, strings quoted and
escaped, forms in their brackets with single spaces between the cells. Three kinds have no written
form and are printed for the reader only: errors, primitive operations and the request to exit. A
closure is printed as the expression that makes one with the same formals and body.
-/

namespace QuoteLisp

/-- The texts of several things with single spaces between them. -/
def spaced (texts : List (List Char)) : List Char :=
  [' '].intercalate texts

namespace Value

mutual

/-- The characters of a value's text. -/
def chars : Value → List Char
  | number n => Decimal.write n
  | error message => "Error: ".toList ++ message.toList
  | symbol name => name.toList
  | string text => '"' :: escape text.toList ++ ['"']
  | sexpr cells => '(' :: spaced (charsAll cells) ++ [')']
  | qexpr cells => '{' :: spaced (charsAll cells) ++ ['}']
  | primitive _ => "<builtin>".toList
  | closure formals body _ =>
    '(' :: '\\' :: ' ' :: '{' :: spaced (formals.map String.toList) ++
      ('}' :: ' ' :: '{' :: spaced (charsAll body) ++ ['}', ')'])
  | exit => "Exit call...".toList

/-- The characters of several values' texts. -/
def charsAll : List Value → List (List Char)
  | [] => []
  | v :: vs => chars v :: charsAll vs

end

theorem charsAll_eq_map (vs : List Value) : charsAll vs = vs.map chars := by
  induction vs with
  | nil => simp [charsAll]
  | cons v vs ih => simp [charsAll, ih]

/-- The text of a value. -/
def display (v : Value) : String :=
  String.ofList v.chars

/-- The text of a value for debugging: a primitive operation shows its symbol, and everything else
is as usual. -/
def debug : Value → String
  | primitive operation => "<builtin " ++ operation.name ++ ">"
  | v => v.display

end Value

end QuoteLisp
