import QuoteLisp.Proofs.Evaluation.Arithmetic
import QuoteLisp.Proofs.Evaluation.Checked
import QuoteLisp.Proofs.Evaluation.Lambda

/-!
# Arguments that are accepted

What a primitive operation takes is a matter of how many arguments there are and of their kinds:
`Primitive.Accepts`. The checks come down to that. An operation that does not accept its arguments
refuses them (`Primitive.exists_request_eq_error`), and one that does is refused nothing but a
division by zero (`Primitive.Accepts.request`).

A refusal has no effect. Whatever the machine and the scope of the call, the result is an error and
the machine is the one before (`Primitive.yields_call_of_request_eq_error`).
-/

namespace QuoteLisp

open Checked Run

theorem Arithmetic.step_eq_ok_or_error (operation : Arithmetic) (n next : Int64) :
    (∃ result, operation.step n next = .ok result) ∨
      operation.step n next = .error .divisionByZero := by
  cases operation with
  | add | sub | mul => exact Or.inl ⟨_, rfl⟩
  | div | mod =>
    rw [step]
    split
    · exact Or.inr rfl
    · exact Or.inl ⟨_, rfl⟩
  | pow =>
    rw [step]
    cases power? n next with
    | none => exact Or.inr rfl
    | some result => exact Or.inl ⟨result, rfl⟩

/-- Once the arguments are numbers, only a division by zero can fail. -/
theorem Arithmetic.fold_cons_eq_ok_or_error (operation : Arithmetic) (n : Int64)
    (ns : List Int64) :
    (∃ result, operation.fold (n :: ns) = .ok result) ∨
      operation.fold (n :: ns) = .error .divisionByZero := by
  have hsteps : ∀ n, (∃ result, ns.foldlM operation.step n = .ok result) ∨
      ns.foldlM operation.step n = .error .divisionByZero := by
    induction ns with
    | nil => exact fun n ↦ Or.inl ⟨n, rfl⟩
    | cons next ns ih =>
      intro n
      rw [List.foldlM_cons]
      rcases operation.step_eq_ok_or_error n next with ⟨result, hstep⟩ | hstep
      · rw [hstep]
        exact ih result
      · rw [hstep]
        exact Or.inr rfl
  cases ns with
  | nil => exact Or.inl ⟨_, rfl⟩
  | cons next ns => exact hsteps n

namespace Primitive

/-- How many arguments an operation takes and of which kinds. -/
def Accepts : Primitive → List Value → Prop
  | head, args | tail, args => ∃ first rest, args = [.qexpr (first :: rest)]
  | eval, args => ∃ cells, args = [.qexpr cells]
  | join, args => ∃ lists : List (List Value), args = lists.map .qexpr
  | arithmetic _, args => ∃ (n : Int64) (ns : List Int64), args = (n :: ns).map .number
  | lambda, args =>
    ∃ (formals : List String) (body : List Value), args = [.qexpr (formals.map .symbol), .qexpr body]
  | define _, args => ∃ (names : List String) (values : List Value),
      args = .qexpr (names.map .symbol) :: values ∧ names.length = values.length
  | choose, args => ∃ n first second, args = [.number n, .qexpr first, .qexpr second]
  | equal, args | unequal, args => ∃ first second, args = [first, second]
  | compare _, args => ∃ x y, args = [.number x, .number y]
  | load, args | error, args => ∃ text, args = [.string text]
  | list, _ | print, _ | exit, _ | printScope, _ => True

variable {operation : Primitive} {args : List Value}

/-! ## Only what is accepted passes the checks -/

theorem gives_arithmetic_apply (operation : Arithmetic) (args : List Value) :
    (operation.apply args).Gives fun _ ↦
      ∃ (n : Int64) (ns : List Int64), args = (n :: ns).map .number := by
  refine (Arguments.gives_numbers_eq _ args).bind fun numbers hargs ↦ ?_
  cases numbers with
  | nil => exact (gives_error (P := fun _ ↦ False) _).bind fun _ ↦ False.elim
  | cons n ns => exact (Gives.of_forall fun _ ↦ ⟨n, ns, hargs⟩).bind fun _ h ↦ gives_ok h

theorem gives_comparison_apply (comparison : Comparison) (args : List Value) :
    (comparison.apply args).Gives fun _ ↦ ∃ x y, args = [.number x, .number y] := by
  refine (Arguments.gives_two_eq _ args).bind fun (first, second) hargs ↦ ?_
  refine (Arguments.gives_number_eq _ 0 first).bind fun x hx ↦ ?_
  refine (Arguments.gives_number_eq _ 1 second).bind fun y hy ↦ gives_ok ⟨x, y, ?_⟩
  rw [hargs, hx, hy]

/-- Whatever passes the checks of an operation is accepted by it. -/
theorem gives_accepts (operation : Primitive) (args : List Value) :
    (operation.request args).Gives fun _ ↦ operation.Accepts args := by
  cases operation with
  | list | print | exit | printScope => exact gives_ok trivial
  | head | tail =>
    exact (Arguments.gives_nonEmptyCells_eq _ args).bind fun (first, rest) hargs ↦
      gives_ok ⟨first, rest, hargs⟩
  | eval =>
    exact (Arguments.gives_onlyCells_eq _ args).bind fun cells hargs ↦ gives_ok ⟨cells, hargs⟩
  | load | error =>
    exact (Arguments.gives_onlyString_eq _ args).bind fun text hargs ↦ gives_ok ⟨text, hargs⟩
  | join =>
    exact (Arguments.gives_cellsOfAll_eq _ args).bind fun lists hargs ↦ gives_ok ⟨lists, hargs⟩
  | equal | unequal =>
    exact (Arguments.gives_two_eq _ args).bind fun (first, second) hargs ↦
      gives_ok ⟨first, second, hargs⟩
  | arithmetic operation =>
    exact (gives_arithmetic_apply operation args).bind fun _ h ↦ gives_ok h
  | lambda =>
    exact (gives_lambdaOf_eq args).bind fun _ ⟨formals, body, hargs, _⟩ ↦
      gives_ok ⟨formals, body, hargs⟩
  | define target =>
    exact (gives_definitions_eq _ args).bind fun _ ⟨names, values, hargs, hlength, _⟩ ↦
      gives_ok ⟨names, values, hargs, hlength⟩
  | choose =>
    exact (gives_branchOf_eq args).bind fun _ ⟨n, first, second, hargs, _⟩ ↦
      gives_ok ⟨n, first, second, hargs⟩
  | compare comparison => exact (gives_comparison_apply comparison args).bind fun _ h ↦ gives_ok h

/-- What is not accepted is refused. -/
theorem exists_request_eq_error (h : ¬operation.Accepts args) :
    ∃ cause, operation.request args = .error cause := by
  cases hrequest : operation.request args with
  | error cause => exact ⟨cause, rfl⟩
  | ok request => exact absurd (gives_accepts operation args request hrequest) h

/-! ## What is accepted passes the checks -/

theorem definitions_of_names {names : List String} {values : List Value}
    (h : names.length = values.length) (function : String) :
    definitions function (.qexpr (names.map .symbol) :: values) = .ok (names.zip values) := by
  change (do
    let names ← Arguments.names (.nonSymbol function) (names.map .symbol)
    if names.length = values.length then return names.zip values
    else throw (.arityMismatch function values.length names.length) :
      Checked (List (String × Value))) = _
  rw [Arguments.names_map_symbol]
  exact if_pos h

theorem Accepts.request (h : operation.Accepts args) :
    (∃ request, operation.request args = .ok request) ∨
      operation.request args = .error .divisionByZero := by
  cases operation with
  | list | print | exit | printScope => exact Or.inl ⟨_, rfl⟩
  | head | tail =>
    obtain ⟨first, rest, rfl⟩ := h
    exact Or.inl ⟨_, rfl⟩
  | eval =>
    obtain ⟨cells, rfl⟩ := h
    exact Or.inl ⟨_, rfl⟩
  | load | error =>
    obtain ⟨text, rfl⟩ := h
    exact Or.inl ⟨_, rfl⟩
  | join =>
    obtain ⟨lists, rfl⟩ := h
    rw [request, Arguments.cellsOfAll_map_qexpr]
    exact Or.inl ⟨_, rfl⟩
  | equal | unequal =>
    obtain ⟨first, second, rfl⟩ := h
    exact Or.inl ⟨_, rfl⟩
  | arithmetic operation =>
    obtain ⟨n, ns, rfl⟩ := h
    rcases operation.fold_cons_eq_ok_or_error n ns with ⟨result, hfold⟩ | hfold
    · rw [request, Arithmetic.apply_map_number hfold]
      exact Or.inl ⟨_, rfl⟩
    · rw [request, Arithmetic.apply_map_number_eq_error hfold]
      exact Or.inr rfl
  | lambda =>
    obtain ⟨formals, body, rfl⟩ := h
    rw [request, lambdaOf_map_symbol]
    exact Or.inl ⟨_, rfl⟩
  | define target =>
    obtain ⟨names, values, rfl, hlength⟩ := h
    rw [request, definitions_of_names hlength]
    exact Or.inl ⟨_, rfl⟩
  | choose =>
    obtain ⟨n, first, second, rfl⟩ := h
    exact Or.inl ⟨_, rfl⟩
  | compare comparison =>
    obtain ⟨x, y, rfl⟩ := h
    exact Or.inl ⟨_, rfl⟩

/-! ## A refusal has no effect -/

/-- A refusal is the result, and the machine is the one before. -/
theorem yields_call_of_request_eq_error {cause : EvalError}
    (h : operation.request args = .error cause) (library : Library) (evaluate : Evaluator)
    (caller : ScopeId) (m : Machine) :
    Yields (operation.call library evaluate caller args) m cause.toValue m := by
  rw [call, h]
  exact yields_pure_iff.mpr ⟨rfl, rfl⟩

end Primitive

end QuoteLisp
