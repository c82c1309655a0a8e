import QuoteLisp.Evaluation.Eval

/-!
# What a form asks for

Once the cells of a form have values, everything that decides what happens next is a function of
these values: whether one of them is a failure, what the operator is, whether the arguments are
refused. `actionOf` is that function. What it answers is an `Action`, and only performing the action
touches the machine (`applyForm_eq_perform`).
-/

namespace QuoteLisp

/-- What is left to do for a form whose cells have values. -/
inductive Action where
  | request (wanted : Request)
  /-- Evaluate the body of a closure in a scope of its own. -/
  | enter (bound : Bindings) (body : List Value)

namespace Action

/-- Nothing is left to do, and this is the result. -/
def give (v : Value) : Action := request (.give v)

/-- A refusal of the arguments. -/
def refuse (cause : EvalError) : Action := give cause.toValue

/-- Does what is left to do, on behalf of a scope. -/
def perform (library : Library) (evaluate : Evaluator) (scope : ScopeId) : Action → Run Value
  | .request wanted => wanted.perform library evaluate scope
  | .enter bound body =>
    Run.withScope ⟨bound, some scope⟩ fun own ↦ evaluate own (.sexpr body)

end Action

/-- What applying a primitive operation asks for. -/
def Primitive.action (operation : Primitive) (args : List Value) : Action :=
  match operation.request args with
  | .error cause => .refuse cause
  | .ok request => .request request

/-- What applying a closure asks for. -/
def Closure.action (closure : Closure) (args : List Value) : Action :=
  match closure.take args with
  | .error cause => .refuse cause
  | .ok ([], bound) => .enter bound closure.body
  | .ok (formal :: formals, bound) => .give (.closure (formal :: formals) closure.body bound)

theorem Primitive.action_of_request {operation : Primitive} {args : List Value} {wanted : Request}
    (h : operation.request args = .ok wanted) : operation.action args = .request wanted := by
  rw [Primitive.action, h]

theorem Closure.action_of_take {closure : Closure} {args : List Value} {bound : Bindings}
    (h : closure.take args = .ok ([], bound)) :
    closure.action args = .enter bound closure.body := by
  rw [Closure.action, h]

/-- What applying a function asks for. -/
def Function.action : Function → List Value → Action
  | primitive operation => operation.action
  | closure c => c.action

/-- What a form asks for whose cells have these values. -/
def actionOf (values : List Value) : Action :=
  match values.find? Value.isError with
  | some failure => .give failure
  | none =>
    match values with
    | [] => .give .unit
    | [value] => .give value
    | .exit :: _ :: _ => .give .exit
    | operator :: args =>
      match operator.toFunction? with
      | some function => function.action args
      | none => .refuse (.notAFunction operator.kindName)

/-- The leftmost failure among the cells is the result, whatever the form would have asked for. -/
theorem actionOf_of_find?_isError {values : List Value} {failure : Value}
    (h : values.find? Value.isError = some failure) : actionOf values = .give failure := by
  simp only [actionOf, h]

theorem Function.eq_of_toValue_eq {function function' : Function}
    (h : function.toValue = function'.toValue) : function = function' := by
  have hsome := Value.toFunction?_toValue function
  rw [h, Value.toFunction?_toValue] at hsome
  exact (Option.some.inj hsome).symm

theorem Function.isError_toValue (function : Function) : function.toValue.isError = false := by
  cases function <;> rfl

/-- A form whose cells are a function and arguments asks for what the function asks for. -/
theorem actionOf_application {function : Function} {arg : Value} {args : List Value}
    (h : ∀ v ∈ arg :: args, v.isError = false) :
    actionOf (function.toValue :: arg :: args) = function.action (arg :: args) := by
  have hfind : (function.toValue :: arg :: args).find? Value.isError = none := by
    rw [List.find?_cons_of_neg (by rw [function.isError_toValue]; exact Bool.false_ne_true)]
    exact List.find?_eq_none.mpr fun v hv ↦ by rw [h v hv]; exact Bool.false_ne_true
  simp only [actionOf, hfind]
  cases function <;> rfl

/-- A form asks for more than a result only when it applies a function to arguments. -/
theorem actionOf_eq_give_or_application (values : List Value) :
    (∃ v, actionOf values = .give v) ∨
      ∃ (function : Function) (arg : Value) (args : List Value),
        values = function.toValue :: arg :: args ∧ ∀ v ∈ arg :: args, v.isError = false := by
  cases hfind : values.find? Value.isError with
  | some failure => exact Or.inl ⟨failure, actionOf_of_find?_isError hfind⟩
  | none =>
    have hargs {operator : Value} {args : List Value} (heq : values = operator :: args) :
        ∀ v ∈ args, v.isError = false := fun v hv ↦
      eq_false_of_ne_true (List.find?_eq_none.mp hfind v (heq ▸ List.mem_cons_of_mem _ hv))
    unfold actionOf
    rw [hfind]
    match values with
    | [] | [_] => exact Or.inl ⟨_, rfl⟩
    | .primitive operation :: arg :: args =>
      exact Or.inr ⟨.primitive operation, arg, args, rfl, hargs rfl⟩
    | .closure formals body bound :: arg :: args =>
      exact Or.inr ⟨.closure ⟨formals, body, bound⟩, arg, args, rfl, hargs rfl⟩
    | .exit :: _ :: _ | .number _ :: _ :: _ | .error _ :: _ :: _ | .symbol _ :: _ :: _
    | .string _ :: _ :: _ | .sexpr _ :: _ :: _ | .qexpr _ :: _ :: _ => exact Or.inl ⟨_, rfl⟩

variable (library : Library) (evaluate : Evaluator) (scope : ScopeId)

theorem Primitive.call_eq_perform (operation : Primitive) (args : List Value) :
    operation.call library evaluate scope args
      = (operation.action args).perform library evaluate scope := by
  rw [Primitive.call, Primitive.action]
  cases operation.request args with
  | error cause => rfl
  | ok wanted => rfl

theorem Closure.apply_eq_perform (closure : Closure) (args : List Value) :
    closure.apply evaluate scope args
      = (closure.action args).perform library evaluate scope := by
  rw [Closure.apply, Closure.action]
  match closure.take args with
  | .error _ | .ok ([], _) | .ok (_ :: _, _) => rfl

theorem Function.apply_eq_perform (function : Function) (args : List Value) :
    function.apply library evaluate scope args
      = (function.action args).perform library evaluate scope := by
  cases function with
  | primitive operation => exact operation.call_eq_perform library evaluate scope args
  | closure c => exact c.apply_eq_perform library evaluate scope args

/-- A form is done by finding out what it asks for and doing that. -/
theorem applyForm_eq_perform (values : List Value) :
    applyForm library evaluate scope values
      = (actionOf values).perform library evaluate scope := by
  simp only [applyForm, actionOf]
  cases values.find? Value.isError with
  | some failure => rfl
  | none =>
    rcases values with _ | ⟨operator, _ | ⟨arg, args⟩⟩
    · rfl
    · rfl
    · cases operator with
      | primitive operation =>
        exact Function.apply_eq_perform library evaluate scope (.primitive operation) _
      | closure formals body bound =>
        exact Function.apply_eq_perform library evaluate scope (.closure ⟨formals, body, bound⟩) _
      | _ => rfl

end QuoteLisp
