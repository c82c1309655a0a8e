import QuoteLisp.Evaluation.Eval
import QuoteLisp.Proofs.Memory.Link

/-!
# Evaluation in memory

The evaluator keeps what a closure has bound in the closure, so that passing the closure on copies
it. Here is an evaluator that keeps it in memory, in a scope of the store that the closure has a
link to. It takes care that this scope is not shared, as follows.

* A name that is looked up gives a copy of its value, and the closures in the copy are linked to
  copies of their scopes (`copy`). Everything else that is done with a value moves it.
* A new closure gets a new scope, which is empty and has no parent.
* Arguments are bound in the scope of the closure that takes them. While it waits for more, it keeps
  its scope. With the last one, that scope is linked to the caller's and the body is evaluated in
  it. Then it is given up, and so is the closure.

Checks, definitions, output and the loading of files are those of the evaluator. Scopes without a
closure that is linked to them stay in the store, where nothing can reach them.
-/

namespace QuoteLisp

/-- Puts bindings in place of those of a scope. -/
def Store.setBindings (store : Store) (id : ScopeId) (bindings : Bindings) : Store :=
  ⟨store.places.modify id (Option.map fun scope ↦ { scope with bindings })⟩

/-- Puts a scope at the next place, to stay there. -/
def Run.newScope (scope : Scope) : Run ScopeId := do
  let id := (← get).store.nextId
  modifyStore (·.push scope)
  return id

namespace Memory

open Run

/-! ## Copies -/

mutual

/-- A copy of a value, where scopes of closures are copied by the given run. -/
def copyWith (copyScope : ScopeId → Run ScopeId) : Value → Run Value
  | .sexpr cells => do return .sexpr (← copyAllWith copyScope cells)
  | .qexpr cells => do return .qexpr (← copyAllWith copyScope cells)
  | .closure formals body link => do
    let body ← copyAllWith copyScope body
    match linked? link with
    | some own => return .closure formals body (linkTo (← copyScope own))
    | none => return .closure formals body []
  | v => return v

/-- Copies of values, one after another. -/
def copyAllWith (copyScope : ScopeId → Run ScopeId) : List Value → Run (List Value)
  | [] => return []
  | v :: vs => do
    let v ← copyWith copyScope v
    return v :: (← copyAllWith copyScope vs)

end

/-- A new scope with copies of everything that a scope binds and with the same link. The closures in
it are linked to scopes that are copied as well, and so on to some depth. -/
def copyScope : (depth : Nat) → ScopeId → Run ScopeId
  | 0, _ => throw .outOfFuel
  | depth + 1, id => do
    let store := (← get).store
    let values ← copyAllWith (copyScope depth) ((store.bindings id).map Prod.snd)
    newScope ⟨((store.bindings id).map Prod.fst).zip values, (store.scope? id).bind Scope.parent⟩

/-- A copy of a value. Unless a closure is bound in its own scope or deeper inside, no more scopes
are inside one another than there are. -/
def copy (v : Value) : Run Value := do
  copyWith (copyScope (← get).store.nextId) v

/-! ## Applying functions -/

/-- Applies a closure in the scope of the caller. -/
def applyClosure (evaluate : Evaluator) (caller : ScopeId) (closure : Closure)
    (args : List Value) : Run Value := do
  let own := (linked? closure.bound).getD globalScope
  match ({ closure with bound := (← get).store.bindings own } : Closure).take args with
  | .error cause => return cause.toValue
  | .ok ([], bound) => do
    modifyStore fun store ↦ (store.setBindings own bound).setParent own caller
    let result ← evaluate own (.sexpr closure.body)
    modifyStore (·.drop own)
    return result
  | .ok (formal :: formals, bound) => do
    modifyStore (·.setBindings own bound)
    return .closure (formal :: formals) closure.body closure.bound

/-- Calls a primitive operation on behalf of a scope. -/
def callPrimitive (library : Library) (evaluate : Evaluator) (scope : ScopeId)
    (operation : Primitive) (args : List Value) : Run Value :=
  match operation.request args with
  | .error cause => return cause.toValue
  | .ok (.give (.closure formals body [])) => do
    return .closure formals body (linkTo (← newScope ⟨[], none⟩))
  | .ok request => request.perform library evaluate scope

/-- Applies a function on behalf of a scope. -/
def applyFunction (library : Library) (evaluate : Evaluator) (scope : ScopeId)
    (function : Function) (args : List Value) : Run Value :=
  match function with
  | .primitive operation => callPrimitive library evaluate scope operation args
  | .closure closure => applyClosure evaluate scope closure args

/-! ## Evaluation -/

/-- The result of a form whose cells have these values. -/
def applyForm (library : Library) (evaluate : Evaluator) (scope : ScopeId) (values : List Value) :
    Run Value :=
  match values.find? Value.isError with
  | some failure => return failure
  | none =>
    match values with
    | [] => return .unit
    | [value] => return value
    | .exit :: _ :: _ => return .exit
    | operator :: args =>
      match operator.toFunction? with
      | some function => applyFunction library evaluate scope function args
      | none => return (EvalError.notAFunction operator.kindName).toValue

/-- One step of evaluation, which leaves the parts of a value to the given evaluator. -/
def evalStep (library : Library) (evaluate : Evaluator) : Evaluator := fun scope value ↦
  match value with
  | .symbol name => do
    match (← get).store.lookup? scope name with
    | some value => copy value
    | none => return (EvalError.unboundSymbol name).toValue
  | .sexpr cells => do
    let values ← cells.mapM (evaluate scope)
    applyForm library evaluate scope values
  | value => return value

/-- Evaluates a linked value in a scope, with a bound on the depth of the recursion. -/
def eval (library : Library) : (fuel : Nat) → Evaluator
  | 0 => fun _ _ ↦ throw .outOfFuel
  | fuel + 1 => evalStep library (eval library fuel)

end Memory

end QuoteLisp
