import QuoteLisp.Evaluation.Arguments
import QuoteLisp.Number.Power

/-!
# Arithmetic

The operations on numbers fold their arguments from the left. Numbers have 64 bits and wrap around;
quotients are truncated toward zero, and a remainder has the sign of the dividend. All arguments are
checked to be numbers before anything is computed.
-/

namespace QuoteLisp

/-- One step of the fold: the number so far and the next argument. -/
def Arithmetic.step : Arithmetic → Int64 → Int64 → Checked Int64
  | add, x, y => .ok (x + y)
  | sub, x, y => .ok (x - y)
  | mul, x, y => .ok (x * y)
  | div, x, y => if y = 0 then .error .divisionByZero else .ok (x / y)
  | mod, x, y => if y = 0 then .error .divisionByZero else .ok (x % y)
  | pow, x, y => (power? x y).elim (.error .divisionByZero) .ok

/-- The result of an operation on numbers. A single number is its own result, except that
subtraction negates it; without numbers there is none. -/
def Arithmetic.fold (operation : Arithmetic) : List Int64 → Checked Int64
  | [] => .error (.arityMismatch (Primitive.arithmetic operation).name 0 1)
  | [x] => .ok (if operation = sub then -x else x)
  | x :: rest => rest.foldlM operation.step x

/-- The result of an operation on arguments of any kind. -/
def Arithmetic.apply (operation : Arithmetic) (args : List Value) : Checked Value := do
  let numbers ← Arguments.numbers (Primitive.arithmetic operation).name args
  return .number (← operation.fold numbers)

/-- Whether a comparison holds. -/
def Comparison.holds : Comparison → Int64 → Int64 → Bool
  | gt, x, y => x > y
  | lt, x, y => x < y
  | ge, x, y => x ≥ y
  | le, x, y => x ≤ y

/-- The outcome of a comparison of two arguments. -/
def Comparison.apply (comparison : Comparison) (args : List Value) : Checked Value := do
  let function := (Primitive.compare comparison).name
  let (first, second) ← Arguments.two function args
  let x ← Arguments.number function 0 first
  let y ← Arguments.number function 1 second
  return .ofBool (comparison.holds x y)

end QuoteLisp
