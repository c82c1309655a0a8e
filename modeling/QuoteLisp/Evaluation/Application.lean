import QuoteLisp.Evaluation.Load
import QuoteLisp.Evaluation.Request

/-!
# Applying functions

A closure takes arguments until it has one for every formal. While it waits for more, it is a
closure with fewer formals and more bound names; with the last argument its body is evaluated, in a
scope of its own that holds the bound names and whose parent is the scope of the caller. So a name
that the closure does not bind is looked up where the closure is called.

## The variadic mark

A formal `&` is a mark: the one formal after it is bound to the list of all arguments from there on,
which may be empty. The mark is only looked at when the arguments before it are there.
-/

namespace QuoteLisp

/-- The mark before a formal that takes all remaining arguments. -/
def variadicMark : String := "&"

/-- Binds the formal after the variadic mark to all remaining arguments. -/
def bindRest (args : List Value) (bound : Bindings) : List String → Checked (List String × Bindings)
  | [name] => .ok ([], bound.insert name (.qexpr args))
  | _ => .error .invalidVariadic

/-- Binds formals to arguments from left to right. The answer holds the formals that are left and
all names bound; `refusal` is the failure for arguments that are left. -/
def bindFormals (refusal : EvalError) :
    List String → List Value → Bindings → Checked (List String × Bindings)
  | [], [], bound => .ok ([], bound)
  | [], _ :: _, _ => .error refusal
  | formal :: formals, args, bound =>
    if formal = variadicMark then bindRest args bound formals
    else
      match args with
      | [] => .ok (formal :: formals, bound)
      | arg :: args => bindFormals refusal formals args (bound.insert formal arg)

/-- The formals that are left and all names bound after a closure takes some arguments. -/
def Closure.take (closure : Closure) (args : List Value) : Checked (List String × Bindings) :=
  bindFormals (.tooManyArguments args.length closure.formals.length) closure.formals args
    closure.bound

/-- Applies a closure in the scope of the caller. -/
def Closure.apply (evaluate : Evaluator) (caller : ScopeId) (closure : Closure)
    (args : List Value) : Run Value :=
  match closure.take args with
  | .error cause => return cause.toValue
  | .ok ([], bound) =>
    Run.withScope ⟨bound, some caller⟩ fun own ↦ evaluate own (.sexpr closure.body)
  | .ok (formal :: formals, bound) => return .closure (formal :: formals) closure.body bound

/-- Binds names in the target of a definition, one after another. -/
def Store.bindAll (target : Target) (scope : ScopeId) (entries : List (String × Value))
    (store : Store) : Store :=
  entries.foldl
    (fun store (name, value) ↦
      match target with
      | .globally => store.setGlobal scope name value
      | .locally => store.setLocal scope name value)
    store

/-- The lines that list some bindings. -/
def Bindings.lines (bindings : Bindings) : List String :=
  bindings.map fun (name, value) ↦ name ++ ": " ++ value.display

/-- Does what a primitive operation asks for, on behalf of the calling scope. -/
def Request.perform (library : Library) (evaluate : Evaluator) (scope : ScopeId) :
    Request → Run Value
  | give value => return value
  | .evaluate cells => evaluate scope (.sexpr cells)
  | bind target entries => do
    Run.modifyStore (Store.bindAll target scope entries)
    return .unit
  | load path => loadFile library evaluate scope path
  | print line => do
    Run.emit line
    return .unit
  | printScope => do
    ((← get).store.bindings scope).lines.forM Run.emit
    return .unit

/-- Calls a primitive operation on behalf of a scope. -/
def Primitive.call (library : Library) (evaluate : Evaluator) (scope : ScopeId)
    (operation : Primitive) (args : List Value) : Run Value :=
  match operation.request args with
  | .error cause => return cause.toValue
  | .ok request => request.perform library evaluate scope

/-- Applies a function on behalf of a scope. -/
def Function.apply (library : Library) (evaluate : Evaluator) (scope : ScopeId)
    (function : Function) (args : List Value) : Run Value :=
  match function with
  | primitive operation => operation.call library evaluate scope args
  | closure c => c.apply evaluate scope args

end QuoteLisp
