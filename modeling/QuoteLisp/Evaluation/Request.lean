import QuoteLisp.Evaluation.Arithmetic
import QuoteLisp.Value.Display
import QuoteLisp.Value.Equality

/-!
# What a primitive operation asks for

Calling a primitive operation has two parts. First its arguments are checked and the operation says
what is to be done; then that is done. The first part is here. It is a plain function of the
arguments, so an operation that refuses its arguments has no effect, whatever the machine.
-/

namespace QuoteLisp

/-- What is left to do once the arguments of an operation have been checked. -/
inductive Request where
  /-- Nothing: this is the result. -/
  | give (value : Value)
  /-- Evaluate some cells as a form in the calling scope. -/
  | evaluate (cells : List Value)
  /-- Bind names, one after another. -/
  | bind (target : Target) (entries : List (String × Value))
  /-- Evaluate the forms of a file in the calling scope. -/
  | load (path : String)
  /-- Write a line. -/
  | print (line : String)
  /-- Write the bindings of the calling scope. -/
  | printScope

/-- The names and values of a definition. The first argument lists the names and the others are
their values, as many as there are names. -/
def definitions (function : String) : List Value → Checked (List (String × Value))
  | [] => .error (.arityMismatch function 0 1)
  | first :: values => do
    let cells ← Arguments.cells function 0 first
    let names ← Arguments.names (.nonSymbol function) cells
    if names.length = values.length then return names.zip values
    else throw (.arityMismatch function values.length names.length)

/-- The function that a list of formals and a body make. -/
def lambdaOf (args : List Value) : Checked Value := do
  let function := Primitive.lambda.name
  let (first, second) ← Arguments.two function args
  let formals ← Arguments.cells function 0 first
  let body ← Arguments.cells function 1 second
  return .closure (← Arguments.names .nonSymbolFormal formals) body []

/-- The cells that a condition selects: the first branch unless the condition is zero. -/
def branchOf (args : List Value) : Checked (List Value) := do
  let function := Primitive.choose.name
  let (condition, first, second) ← Arguments.three function args
  let n ← Arguments.number function 0 condition
  let thenCells ← Arguments.cells function 1 first
  let elseCells ← Arguments.cells function 2 second
  return if n = 0 then elseCells else thenCells

/-- What an operation asks for, or why it refuses its arguments. -/
def Primitive.request (operation : Primitive) (args : List Value) : Checked Request :=
  match operation with
  | list => .ok (.give (.qexpr args))
  | head => do
    let (first, _) ← Arguments.nonEmptyCells operation.name args
    return .give (.qexpr [first])
  | tail => do
    let (_, rest) ← Arguments.nonEmptyCells operation.name args
    return .give (.qexpr rest)
  | join => return .give (.qexpr (← Arguments.cellsOfAll operation.name args).flatten)
  | eval => return .evaluate (← Arguments.onlyCells operation.name args)
  | arithmetic operation => return .give (← operation.apply args)
  | lambda => return .give (← lambdaOf args)
  | define target => return .bind target (← definitions operation.name args)
  | choose => return .evaluate (← branchOf args)
  | equal => do
    let (first, second) ← Arguments.two operation.name args
    return .give (.ofBool (first == second))
  | unequal => do
    let (first, second) ← Arguments.two operation.name args
    return .give (.ofBool (first != second))
  | compare comparison => return .give (← comparison.apply args)
  | load => return .load (← Arguments.onlyString operation.name args)
  | print => .ok (.print (String.ofList (spaced (args.map Value.chars))))
  | error => return .give (.error (← Arguments.onlyString operation.name args))
  | exit => .ok (.give .exit)
  | printScope => .ok .printScope

end QuoteLisp
