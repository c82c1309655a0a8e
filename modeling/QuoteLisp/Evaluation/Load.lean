import QuoteLisp.Evaluation.Machine
import QuoteLisp.Node.Parse
import QuoteLisp.Value.Display
import QuoteLisp.Value.OfNode

/-!
# Loading a file

A file is a sequence of forms, evaluated one after another in the scope that asked for it. A file
that cannot be read or parsed is refused as a whole, and none of its forms is evaluated; a form
whose evaluation fails is reported on the output, and the ones after it are evaluated all the same.
-/

namespace QuoteLisp

/-- A way of evaluating a value in a scope. -/
abbrev Evaluator := ScopeId → Value → Run Value

/-- The forms of a program that was read as one form. -/
def Value.forms : Value → List Value
  | sexpr forms => forms
  | v => [v]

/-- The forms of a source, whose errors name the given file. -/
def readForms (source file : String) : Except HostError (List Value) :=
  (Node.parse source file).map fun root ↦ (Value.ofNode root).forms

/-- The forms of the file at a path, given what reading the file came to. -/
def fileForms (path : String) (outcome : Except ReadError String) :
    Except HostError (List Value) :=
  (Node.parseFile path outcome).map fun root ↦ (Value.ofNode root).forms

/-- Evaluates a form for its effects, and reports it when it fails. -/
def runForm (evaluate : Evaluator) (scope : ScopeId) (form : Value) : Run Unit := do
  let result ← evaluate scope form
  if result.isError then Run.emit result.display

/-- Evaluates the forms of the file at a path. -/
def loadFile (library : Library) (evaluate : Evaluator) (scope : ScopeId) (path : String) :
    Run Value :=
  match library.read? path with
  | none => throw (.unread path)
  | some outcome =>
    match fileForms path outcome with
    | .error failure => return (EvalError.loadFailed failure.message).toValue
    | .ok forms => do
      forms.forM (runForm evaluate scope)
      return .unit

end QuoteLisp
