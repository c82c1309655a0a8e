/-!
# Primitive operations

The twenty-six operations that the language provides, each bound to a symbol of its own in the
global scope. Two primitives are the same function exactly when they are the same operation.
-/

namespace QuoteLisp

/-- The operations that fold a list of numbers. -/
inductive Arithmetic where
  | add
  | sub
  | mul
  | div
  | mod
  | pow
  deriving DecidableEq, Repr

/-- The comparisons of two numbers by size. -/
inductive Comparison where
  | gt
  | lt
  | ge
  | le
  deriving DecidableEq, Repr

/-- Where a definition takes effect: in the outermost scope or in the calling one. -/
inductive Target where
  | globally
  | locally
  deriving DecidableEq, Repr

/-- An operation provided by the language. -/
inductive Primitive where
  | list
  | head
  | tail
  | join
  | eval
  | arithmetic (operation : Arithmetic)
  | lambda
  | define (target : Target)
  | choose
  | equal
  | unequal
  | compare (comparison : Comparison)
  | load
  | print
  | error
  | exit
  | printScope
  deriving DecidableEq, Repr

namespace Primitive

/-- The symbol that an operation is bound to. -/
def name : Primitive → String
  | list => "list"
  | head => "head"
  | tail => "tail"
  | join => "join"
  | eval => "eval"
  | arithmetic .add => "+"
  | arithmetic .sub => "-"
  | arithmetic .mul => "*"
  | arithmetic .div => "/"
  | arithmetic .mod => "%"
  | arithmetic .pow => "^"
  | lambda => "\\"
  | define .globally => "def"
  | define .locally => "="
  | choose => "if"
  | equal => "=="
  | unequal => "!="
  | compare .gt => ">"
  | compare .lt => "<"
  | compare .ge => ">="
  | compare .le => "<="
  | load => "load"
  | print => "print"
  | error => "error"
  | exit => "exit"
  | printScope => "print_env"

/-- All operations. -/
def all : List Primitive :=
  [list, head, tail, eval, join, arithmetic .add, arithmetic .sub, arithmetic .mul,
    arithmetic .div, arithmetic .mod, arithmetic .pow, lambda, define .globally, define .locally,
    choose, equal, unequal, compare .gt, compare .lt, compare .ge, compare .le, load, print, error,
    exit, printScope]

theorem mem_all (p : Primitive) : p ∈ all := by
  rcases p with _ | _ | _ | _ | _ | op | _ | target | _ | _ | _ | c | _ | _ | _ | _ | _
  case arithmetic => cases op <;> decide
  case define => cases target <;> decide
  case compare => cases c <;> decide
  all_goals decide

/-- The operation with a given symbol. -/
def ofName? (symbol : String) : Option Primitive :=
  all.find? (·.name == symbol)

/-- No two operations share a symbol. -/
theorem ofName?_name (p : Primitive) : ofName? p.name = some p := by
  rcases p with _ | _ | _ | _ | _ | op | _ | target | _ | _ | _ | c | _ | _ | _ | _ | _
  case arithmetic => cases op <;> decide
  case define => cases target <;> decide
  case compare => cases c <;> decide
  all_goals decide

end Primitive

end QuoteLisp
