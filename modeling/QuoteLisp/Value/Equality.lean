import QuoteLisp.Value.Basic

/-!
# Equality of values

Two values are equal when they have the same shape and the same leaves. Closures are compared by
their remaining formals and their body; the arguments they already have take no part.
-/

namespace QuoteLisp.Value

mutual

/-- Whether two values are equal. -/
def same : Value → Value → Bool
  | number m, number n => m == n
  | error s, error t => s == t
  | symbol s, symbol t => s == t
  | string s, string t => s == t
  | sexpr xs, sexpr ys => sameAll xs ys
  | qexpr xs, qexpr ys => sameAll xs ys
  | primitive p, primitive q => p == q
  | closure fs xs _, closure gs ys _ => fs == gs && sameAll xs ys
  | exit, exit => true
  | _, _ => false

/-- Whether two lists of values have equal lengths and equal members. -/
def sameAll : List Value → List Value → Bool
  | [], [] => true
  | x :: xs, y :: ys => same x y && sameAll xs ys
  | _, _ => false

end

instance : BEq Value := ⟨same⟩

mutual

/-- A value is equal to itself. -/
theorem same_self : ∀ v : Value, same v v = true
  | number _ | error _ | symbol _ | string _ | primitive _ => beq_self_eq_true _
  | sexpr cells | qexpr cells => sameAll_self cells
  | closure formals body _ => by
    rw [same, beq_self_eq_true, Bool.true_and]
    exact sameAll_self body
  | exit => rfl

theorem sameAll_self : ∀ vs : List Value, sameAll vs vs = true
  | [] => rfl
  | v :: vs => by
    rw [sameAll, same_self v, Bool.true_and]
    exact sameAll_self vs

end

end QuoteLisp.Value
