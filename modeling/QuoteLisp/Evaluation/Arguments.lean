import QuoteLisp.Value.Basic

/-!
# Checking arguments

What the primitive operations ask of their arguments. Each check either extracts what the operation
needs or gives the reason for refusing, and none has an effect, so an operation that checks first
and acts afterwards is never left half done.
-/

namespace QuoteLisp

/-- Checks on the arguments of a function. -/
abbrev Checked := Except EvalError

namespace Arguments

/-- The refusal of an argument because of its kind. -/
def wrongKind (function : String) (index : Nat) (value : Value) (expected : String) : EvalError :=
  .wrongType function index value.kindName expected

/-- The number that an argument is. -/
def number (function : String) (index : Nat) : Value → Checked Int64
  | .number n => .ok n
  | value => .error (wrongKind function index value "Number")

/-- The text that an argument is. -/
def string (function : String) (index : Nat) : Value → Checked String
  | .string text => .ok text
  | value => .error (wrongKind function index value "String")

/-- The cells of an argument that is a form in braces. -/
def cells (function : String) (index : Nat) : Value → Checked (List Value)
  | .qexpr cells => .ok cells
  | value => .error (wrongKind function index value "Q-expression")

/-- The cells of arguments that are all forms in braces, the first refusal winning. -/
def cellsOfAll (function : String) (args : List Value) : Checked (List (List Value)) :=
  args.zipIdx.mapM fun (value, index) ↦ cells function index value

/-- The numbers that the arguments are, the first refusal winning. -/
def numbers (function : String) (args : List Value) : Checked (List Int64) :=
  args.zipIdx.mapM fun (value, index) ↦ number function index value

/-- The names of cells that are all symbols; `refuse` gives the reason for refusing any other cell,
from the name of its kind. -/
def names (refuse : String → EvalError) (cells : List Value) : Checked (List String) :=
  cells.mapM fun
    | .symbol name => .ok name
    | value => .error (refuse value.kindName)

/-- The only argument. -/
def one (function : String) : List Value → Checked Value
  | [value] => .ok value
  | args => .error (.arityMismatch function args.length 1)

/-- The two arguments. -/
def two (function : String) : List Value → Checked (Value × Value)
  | [first, second] => .ok (first, second)
  | args => .error (.arityMismatch function args.length 2)

/-- The three arguments. -/
def three (function : String) : List Value → Checked (Value × Value × Value)
  | [first, second, third] => .ok (first, second, third)
  | args => .error (.arityMismatch function args.length 3)

/-- The cells of the only argument. -/
def onlyCells (function : String) (args : List Value) : Checked (List Value) := do
  cells function 0 (← one function args)

/-- The text of the only argument. -/
def onlyString (function : String) (args : List Value) : Checked String := do
  string function 0 (← one function args)

/-- The cells of the only argument, of which there must be some: the first and the rest. -/
def nonEmptyCells (function : String) (args : List Value) : Checked (Value × List Value) := do
  match ← onlyCells function args with
  | [] => throw (.emptyList function 0)
  | first :: rest => return (first, rest)

end Arguments

end QuoteLisp
