import QuoteLisp.Evaluation.Eval
import QuoteLisp.Evaluation.Yields

/-!
# Fuel

Fuel decides whether evaluation has a result, and not which: a result that is reached with some fuel
is reached with any more (`eval_below_of_le`). So it makes sense to speak of the result of
evaluation without naming an amount: `Evaluates` asks for some fuel, and there is one result at most
(`Evaluates.unique`).

The reason is that a step of evaluation only gains results when the evaluator it is given for the
parts gains some. That is shown here for everything a step is made of.
-/

namespace QuoteLisp

open Run

/-- An evaluator yields everything that another one yields, in every scope and for every value. -/
def Evaluator.Below (e e' : Evaluator) : Prop :=
  ∀ scope v, Run.Below (e scope v) (e' scope v)

variable (library : Library) {e e' : Evaluator}

theorem Closure.apply_below (h : e.Below e') (scope : ScopeId) (c : Closure) (args : List Value) :
    Run.Below (c.apply e scope args) (c.apply e' scope args) := by
  rw [Closure.apply, Closure.apply]
  split
  · exact .refl _
  · exact .bind (.refl _) fun _ ↦ .bind (.refl _) fun _ ↦ .bind (h _ _) fun _ ↦ .refl _
  · exact .refl _

theorem loadFile_below (h : e.Below e') (scope : ScopeId) (path : String) :
    Run.Below (loadFile library e scope path) (loadFile library e' scope path) := by
  rw [loadFile, loadFile]
  split
  · exact .refl _
  · split
    · exact .refl _
    · refine .bind (.forM (fun form ↦ ?_) _) fun _ ↦ .refl _
      exact .bind (h _ _) fun _ ↦ .refl _

theorem Primitive.call_below (h : e.Below e') (scope : ScopeId) (p : Primitive)
    (args : List Value) :
    Run.Below (p.call library e scope args) (p.call library e' scope args) := by
  rw [Primitive.call, Primitive.call]
  split
  · exact .refl _
  · rename_i request _
    cases request with
    | evaluate cells => exact h _ _
    | load path => exact loadFile_below library h _ _
    | _ => exact .refl _

theorem Function.apply_below (h : e.Below e') (scope : ScopeId) (f : Function)
    (args : List Value) :
    Run.Below (f.apply library e scope args) (f.apply library e' scope args) := by
  cases f with
  | primitive p => exact p.call_below library h _ _
  | closure c => exact c.apply_below h _ _

theorem evalStep_below (h : e.Below e') : (evalStep library e).Below (evalStep library e') := by
  intro scope v
  cases v with
  | sexpr cells =>
    refine .bind (.mapM (h scope) _) fun values ↦ ?_
    simp only [applyForm]
    split
    · exact .refl _
    · split
      · exact .refl _
      · exact .refl _
      · exact .refl _
      · split
        · exact Function.apply_below library h _ _ _
        · exact .refl _
  | _ => exact .refl _

theorem eval_below_succ (fuel : Nat) :
    (eval library fuel).Below (eval library (fuel + 1)) := by
  induction fuel with
  | zero =>
    intro scope v m a m' h
    cases h
  | succ fuel ih => exact evalStep_below library ih

/-- More fuel keeps a result. -/
theorem eval_below_of_le {fuel fuel' : Nat} (hle : fuel ≤ fuel') :
    (eval library fuel).Below (eval library fuel') := by
  induction hle with
  | refl => exact fun _ _ ↦ .refl _
  | step _ ih => exact fun scope v ↦ (ih scope v).trans (eval_below_succ library _ scope v)

/-! ## Evaluation that ends -/

/-- Evaluating the value `v` in a scope, on the machine `m`, ends with the result `a` and the
machine `m'`. -/
def Evaluates (scope : ScopeId) (v : Value) (m : Machine) (a : Value) (m' : Machine) : Prop :=
  ∃ fuel, Yields (eval library fuel scope v) m a m'

variable {library} {scope : ScopeId} {v a a' : Value} {m m₁ m₂ : Machine}

/-- Evaluation that ends, ends alike with any sufficient fuel. -/
theorem Evaluates.exists_forall_le (h : Evaluates library scope v m a m₁) :
    ∃ fuel, ∀ fuel', fuel ≤ fuel' → Yields (eval library fuel' scope v) m a m₁ := by
  obtain ⟨fuel, h⟩ := h
  exact ⟨fuel, fun _ hle ↦ eval_below_of_le library hle _ _ _ _ _ h⟩

/-- Evaluation has one result at most. -/
theorem Evaluates.unique (h : Evaluates library scope v m a m₁)
    (h' : Evaluates library scope v m a' m₂) : a = a' ∧ m₁ = m₂ := by
  obtain ⟨fuel, h⟩ := h.exists_forall_le
  obtain ⟨fuel', h'⟩ := h'.exists_forall_le
  exact (h _ (Nat.le_max_left fuel fuel')).unique (h' _ (Nat.le_max_right fuel fuel'))

end QuoteLisp
