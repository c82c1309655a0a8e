import QuoteLisp.Evaluation.Application

/-!
# Evaluation

A symbol evaluates to what it is bound to and a form in parentheses to the result of applying its
first cell to the others; every other value evaluates to itself. The cells of a form are all
evaluated first, from left to right. Only then is the form looked at: if some cell failed, the
leftmost failure is the result.

## Fuel

One step of evaluation is defined from an evaluator for the parts, and `eval` ties the knot with a
bound on the depth of the recursion. Where a run with some fuel has a result, a run with more fuel
has the same.
-/

namespace QuoteLisp

/-- The result of a form whose cells have these values. -/
def applyForm (library : Library) (evaluate : Evaluator) (scope : ScopeId) (values : List Value) :
    Run Value :=
  match values.find? Value.isError with
  | some failure => return failure
  | none =>
    match values with
    | [] => return .unit
    | [value] => return value
    | .exit :: _ :: _ => return .exit
    | operator :: args =>
      match operator.toFunction? with
      | some function => function.apply library evaluate scope args
      | none => return (EvalError.notAFunction operator.kindName).toValue

/-- One step of evaluation, which leaves the parts of a value to the given evaluator. -/
def evalStep (library : Library) (evaluate : Evaluator) : Evaluator := fun scope value ↦
  match value with
  | .symbol name => do
    match (← get).store.lookup? scope name with
    | some value => return value
    | none => return (EvalError.unboundSymbol name).toValue
  | .sexpr cells => do
    let values ← cells.mapM (evaluate scope)
    applyForm library evaluate scope values
  | value => return value

/-- Evaluates a value in a scope, with a bound on the depth of the recursion. -/
def eval (library : Library) : (fuel : Nat) → Evaluator
  | 0 => fun _ _ ↦ throw .outOfFuel
  | fuel + 1 => evalStep library (eval library fuel)

/-- Evaluates a whole source as one form in the global scope, as the prompt does with a line. -/
def evalSource (library : Library) (fuel : Nat) (source : String) :
    Run (Except HostError Value) :=
  match Node.parse source standardInput with
  | .error failure => return .error failure
  | .ok root => return .ok (← eval library fuel globalScope (Value.ofNode root))

/-- Loads the file at a path into a scope. -/
def load (library : Library) (fuel : Nat) (scope : ScopeId) (path : String) : Run Value :=
  loadFile library (eval library fuel) scope path

end QuoteLisp
