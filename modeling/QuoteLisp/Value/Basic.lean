import QuoteLisp.Failure.Evaluation
import QuoteLisp.Primitive

/-!
# Values

Programs and data are the same trees. A form in parentheses is to be evaluated, a form in braces is
data, and everything else stands for itself, except symbols, which are looked up.

Values are plain data, so passing one on copies it: the names that a closure has bound so far are
part of the closure and shared with nothing. They are kept in order of name, one entry to a name.
-/

namespace QuoteLisp

/-- A value of the language. -/
inductive Value where
  | number (n : Int64)
  | error (message : String)
  | symbol (name : String)
  | string (text : String)
  /-- A form in parentheses. -/
  | sexpr (cells : List Value)
  /-- A form in braces. -/
  | qexpr (cells : List Value)
  | primitive (operation : Primitive)
  /-- A function with the names of the parameters it still waits for, the cells of its body and the
  arguments it already has. -/
  | closure (formals : List String) (body : List Value) (bound : List (String × Value))
  /-- The request to end the session. -/
  | exit

/-- A function that a program defined. -/
structure Closure where
  formals : List String
  body : List Value
  bound : List (String × Value)

/-- What can stand in the operator position of a form. -/
inductive Function where
  | primitive (operation : Primitive)
  | closure (closure : Closure)

/-- A function as a value. -/
def Function.toValue : Function → Value
  | primitive operation => .primitive operation
  | closure c => .closure c.formals c.body c.bound

/-- A failure of evaluation as a value. -/
def EvalError.toValue (cause : EvalError) : Value :=
  .error cause.message

namespace Value

/-- The form without cells, which stands for the absence of a result. -/
def unit : Value := sexpr []

/-- The numbers one and zero stand for true and false. -/
def ofBool (truth : Bool) : Value :=
  number (if truth then 1 else 0)

/-- The function that a value is, if it is one. -/
def toFunction? : Value → Option Function
  | primitive operation => some (.primitive operation)
  | closure formals body bound => some (.closure ⟨formals, body, bound⟩)
  | _ => none

theorem toFunction?_toValue (f : Function) : toFunction? f.toValue = some f := by
  cases f <;> rfl

/-- The name of a value's kind, as failures mention it. -/
def kindName : Value → String
  | number _ => "Number"
  | error _ => "Error"
  | symbol _ => "Symbol"
  | string _ => "String"
  | sexpr _ => "S-expression"
  | qexpr _ => "Q-expression"
  | primitive _ | closure _ _ _ => "Function"
  | exit => "Exit"

/-- Whether a value is an error. -/
def isError : Value → Bool
  | error _ => true
  | _ => false

end Value

end QuoteLisp
