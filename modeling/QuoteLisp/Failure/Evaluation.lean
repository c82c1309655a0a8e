/-!
# Failures of evaluation

The reasons for which evaluating an expression gives an error value, and their wording. The wording
is all that a program can see of a failure.
-/

namespace QuoteLisp

/-- Why an expression has no proper value. Arguments are counted from zero, and the kinds of values
are given by name. -/
inductive EvalError where
  | unboundSymbol (name : String)
  | wrongType (function : String) (index : Nat) (got expected : String)
  | arityMismatch (function : String) (got expected : Nat)
  | emptyList (function : String) (index : Nat)
  /-- A definition of something that is no symbol. -/
  | nonSymbol (function got : String)
  /-- A formal parameter that is no symbol. -/
  | nonSymbolFormal (got : String)
  /-- A form whose operator is no function. -/
  | notAFunction (got : String)
  | tooManyArguments (given expected : Nat)
  /-- A variadic mark that is not followed by exactly one formal parameter. -/
  | invalidVariadic
  | divisionByZero
  /-- A literal that is no 64-bit number. -/
  | invalidNumber (text : String)
  | loadFailed (reason : String)
  deriving DecidableEq, Repr

namespace EvalError

/-- The closing part of the messages that compare what was given with what was expected. -/
private def gotExpected (got expected : String) : String :=
  "Got " ++ got ++ ", Expected " ++ expected ++ "."

/-- The wording of a failure. -/
def message : EvalError → String
  | unboundSymbol name => "Unbound Symbol '" ++ name ++ "'"
  | wrongType function index got expected =>
    "Function '" ++ function ++ "' passed incorrect type for argument " ++ index.repr ++ ". "
      ++ gotExpected got expected
  | arityMismatch function got expected =>
    "Function '" ++ function ++ "' passed incorrect number of arguments. "
      ++ gotExpected got.repr expected.repr
  | emptyList function index =>
    "Function '" ++ function ++ "' passed \x7b\x7d for argument " ++ index.repr ++ "."
  | nonSymbol function got =>
    "Function '" ++ function ++ "' cannot define non-symbol. " ++ gotExpected got "Symbol"
  | nonSymbolFormal got => "Cannot define non-symbol. " ++ gotExpected got "Symbol"
  | notAFunction got =>
    "S-Expression starts with incorrect type. " ++ gotExpected got "Function"
  | tooManyArguments given expected =>
    "Function passed too many arguments. " ++ gotExpected given.repr expected.repr
  | invalidVariadic => "Function format invalid. Symbol '&' not followed by single symbol."
  | divisionByZero => "Division By Zero!"
  | invalidNumber _ => "invalid number"
  | loadFailed reason => "Could not load Library " ++ reason

end EvalError

end QuoteLisp
