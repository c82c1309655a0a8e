import QuoteLisp.Proofs.Evaluation.Activation

/-!
# Failures are passed on

An activity that goes on to another one takes over the result of that one, with one exception. A
form waits for all its cells, and if some of them fail it takes over the leftmost failure. In either
case a failure below is a failure above, so a failure of anything on the way, however deep, makes
the outermost evaluation fail (`Activation.ReachesOutsideLoads.isError`).

Only the loading of a file goes on after a failure: it reports the form that has failed and runs the
others.
-/

namespace QuoteLisp

open Run

variable {library : Library} {scope : ScopeId} {m m' m₁ : Machine} {a : Value}

/-! ## Results that are taken over -/

namespace Activity

/-- A form that applies a function ends as the application does. -/
theorem ends_application_iff {cells args : List Value} {arg : Value} {function : Function}
    (hcells : Derives library scope (.cells cells) m (function.toValue :: arg :: args) m₁)
    (hargs : ∀ v ∈ arg :: args, v.isError = false) :
    (eval (.sexpr cells)).Ends library scope m a m' ↔
      (apply function (arg :: args)).Ends library scope m₁ a m' := by
  rw [ends_eval_iff, derives_sexpr_iff_of_cells hcells, ends_apply_iff, actionOf_application hargs]

/-- A closure that has all its arguments ends as its body does, and its frame is taken back. -/
theorem ends_closure_iff {closure : Closure} {args : List Value} {bound : Bindings}
    (htake : closure.take args = .ok ([], bound)) :
    (apply (.closure closure) args).Ends library scope m a m' ↔
      ∃ m₁, (eval (.sexpr closure.body)).Ends library m.store.nextId (m.enter bound scope) a m₁ ∧
        m' = m₁.leave := by
  simp only [ends_apply_iff, ends_eval_iff, Function.action, Closure.action_of_take htake]
  constructor
  · intro h
    cases h with
    | enter hbody => exact ⟨_, hbody, rfl⟩
  · rintro ⟨m₁, hbody, rfl⟩
    exact .enter hbody

/-- An operation that has cells evaluated ends as their evaluation does. -/
theorem ends_evaluate_iff {operation : Primitive} {args selected : List Value}
    (hrequest : operation.request args = .ok (.evaluate selected)) :
    (call operation args).Ends library scope m a m' ↔
      (eval (.sexpr selected)).Ends library scope m a m' := by
  rw [ends_call_iff, ends_eval_iff, Primitive.action_of_request hrequest]
  constructor
  · intro h
    cases h with
    | evaluate hselected => exact hselected
  · exact .evaluate

theorem ends_load_of_request_iff {operation : Primitive} {args : List Value} {path : String}
    (hrequest : operation.request args = .ok (.load path)) :
    (call operation args).Ends library scope m a m' ↔ (load path).Ends library scope m a m' := by
  rw [ends_call_iff, ends_load_iff, Primitive.action_of_request hrequest]

/-- If some cell of a form fails, the form ends with the leftmost failure when all cells have been
evaluated. -/
theorem Ends.find?_isError {cells values : List Value}
    (h : (eval (.sexpr cells)).Ends library scope m a m')
    (hcells : Derives library scope (.cells cells) m values m₁)
    (hfails : ∃ b ∈ values, b.isError = true) :
    values.find? Value.isError = some a ∧ m' = m₁ := by
  obtain ⟨values', m₂, hvalues, h⟩ := derives_sexpr_iff.mp (ends_eval_iff.mp h)
  obtain ⟨rfl, rfl⟩ := hcells.unique hvalues
  obtain ⟨failure, hfailure⟩ := Option.isSome_iff_exists.mp (List.find?_isSome.mpr hfails)
  rw [actionOf_of_find?_isError hfailure] at h
  cases h
  exact ⟨hfailure, rfl⟩

end Activity

/-! ## From a failure on the way to the result -/

namespace Activation

variable {act act' start : Activation} {b : Value}

/-- When an activation ends, whatever it goes on to directly has ended. The result of that is taken
over, or it is the value of a cell of a form, or the result of a form of a file that is loaded. -/
theorem Calls.exists_ends_cases (hcalls : act.Calls library act') (h : act.Ends library a m') :
    ∃ b m₁, act'.Ends library b m₁ ∧
      (((∀ path, act.activity ≠ .load path) ∧ b = a ∧ m₁.output = m'.output) ∨
        (∃ cells values others bs m₂, act.activity = .eval (.sexpr cells) ∧ b ∈ values ∧
          Derives library act.scope (.cells cells) act.machine values m₂ ∧
          Derives library act.scope (.cells others) m₁ bs m₂ ∧
          (actionOf values).ComesTo library (Derives library) act.scope m₂ a m') ∨
        ∃ path others, act.activity = .load path ∧
          Derives library act.scope (.forms others) (m₁.report b) [] m') := by
  cases hcalls with
  | cell hbefore =>
    obtain ⟨values, m₂, hcells, haction⟩ := derives_sexpr_iff.mp (Activity.ends_eval_iff.mp h)
    obtain ⟨bs, cs, m₃, rfl, hfront, hback⟩ := derives_cells_append_iff.mp hcells
    obtain ⟨rfl, rfl⟩ := hfront.unique hbefore
    cases hback with
    | @cell _ _ b _ cs _ m₄ _ hv hothers =>
      have hmem : b ∈ bs ++ b :: cs := List.mem_append_right _ List.mem_cons_self
      exact ⟨b, m₄, Activity.ends_eval_iff.mpr hv,
        .inr (.inl ⟨_, _, _, _, _, rfl, hmem, hcells, hothers, haction⟩)⟩
  | apply hcells hargs =>
    exact ⟨a, m', (Activity.ends_application_iff hcells hargs).mp h, .inl ⟨nofun, rfl, rfl⟩⟩
  | primitive =>
    have hcall := Activity.ends_call_iff.mpr (Activity.ends_apply_iff.mp h)
    exact ⟨a, m', hcall, .inl ⟨nofun, rfl, rfl⟩⟩
  | body htake =>
    obtain ⟨m₁, hbody, rfl⟩ := (Activity.ends_closure_iff htake).mp h
    exact ⟨a, m₁, hbody, .inl ⟨nofun, rfl, rfl⟩⟩
  | evaluate hrequest =>
    exact ⟨a, m', (Activity.ends_evaluate_iff hrequest).mp h, .inl ⟨nofun, rfl, rfl⟩⟩
  | load hrequest =>
    exact ⟨a, m', (Activity.ends_load_of_request_iff hrequest).mp h, .inl ⟨nofun, rfl, rfl⟩⟩
  | form hread hforms hbefore =>
    obtain ⟨-, hrun⟩ := (Activity.ends_load_of_ok_iff hread hforms).mp h
    obtain ⟨m₂, hfront, hback⟩ := derives_forms_append_iff.mp hrun
    obtain ⟨-, rfl⟩ := hfront.unique hbefore
    cases hback with
    | form hv hothers =>
      exact ⟨_, _, Activity.ends_eval_iff.mpr hv, .inr (.inr ⟨_, _, rfl, hothers⟩)⟩

/-- When an activation ends that is no loading of a file, a failure of whatever it goes on to
directly has made it fail. -/
theorem Calls.exists_ends (hcalls : act.Calls library act')
    (hload : ∀ path, act.activity ≠ .load path) (h : act.Ends library a m') :
    ∃ b m₁, act'.Ends library b m₁ ∧ (b.isError = true → a.isError = true) := by
  obtain ⟨b, m₁, hends, ⟨-, rfl, -⟩ | ⟨_, _, _, _, _, hact, hmem, hcells, -⟩ | ⟨path, -, hact, -⟩⟩ :=
    hcalls.exists_ends_cases h
  · exact ⟨b, m₁, hends, id⟩
  · -- the value of the cell is one of the values that the form looks at
    refine ⟨b, m₁, hends, fun hb ↦ ?_⟩
    rw [Ends, hact] at h
    exact List.find?_some (Activity.Ends.find?_isError h hcells ⟨b, hmem, hb⟩).1
  · exact absurd hact (hload path)

/-- The second activation is the first one or comes about on the way, but not in the course of
loading a file. -/
def ReachesOutsideLoads (library : Library) : Activation → Activation → Prop :=
  Relation.ReflTransGen fun act act' ↦ act.Calls library act' ∧ ∀ path, act.activity ≠ .load path

/-- A failure that does not happen in the course of loading a file is one of the whole. -/
theorem ReachesOutsideLoads.isError (h : start.ReachesOutsideLoads library act)
    (hstart : start.Ends library a m') (hact : act.Ends library b m₁) (hb : b.isError = true) :
    a.isError = true := by
  induction h using Relation.ReflTransGen.head_induction_on generalizing a m' with
  | refl =>
    obtain ⟨rfl, -⟩ := Activity.Ends.unique hstart hact
    exact hb
  | head hstep _ ih =>
    obtain ⟨_, _, hends, hpasses⟩ := hstep.1.exists_ends hstep.2 hstart
    exact hpasses (ih hends)

/-- A form with a cell that fails goes on to its cells and to nothing else. -/
theorem Calls.exists_eval_of_isError {cells values : List Value} {frames : List ScopeId}
    (hcalls : Calls library ⟨scope, .eval (.sexpr cells), m, frames⟩ act)
    (hcells : Derives library scope (.cells cells) m values m₁)
    (hfails : ∃ b ∈ values, b.isError = true) : ∃ v, act.activity = .eval v := by
  cases hcalls with
  | cell => exact ⟨_, rfl⟩
  | @apply _ _ args arg function _ m₂ _ happlied hargs =>
    -- a form that applies a function has no error among its values
    obtain ⟨rfl, rfl⟩ := hcells.unique happlied
    obtain ⟨b, hmem, hb⟩ := hfails
    rcases List.mem_cons.mp hmem with rfl | hmem
    · cases function <;> cases hb
    · exact absurd hb (by rw [hargs b hmem]; exact Bool.false_ne_true)

end Activation

/-- **No failure is swallowed.** Let the evaluation of a value end. If anything on the way to its
result ends with an error, and not in the course of loading a file, then the result is an error.

If the value is a form, its cells have all been evaluated, from left to right, each in the machine
that the one before left behind. If there are errors among their values, the leftmost of them is the
result, nothing else has been done, and no function has been applied.

Whatever comes of the body of a closure that has all its arguments comes of its application.
Whatever comes of the cells that are given to `eval`, and of the branch that `if` selects, comes of
the call. -/
theorem Evaluates.isError_of_reaches {v : Value} (h : Evaluates library scope v m a m')
    (frames : List ScopeId) :
    (∀ act b m₁, Activation.ReachesOutsideLoads library ⟨scope, .eval v, m, frames⟩ act →
        act.Ends library b m₁ → b.isError = true → a.isError = true) ∧
      (∀ cells, v = .sexpr cells → ∃ fuel values m₁,
        Yields (cells.mapM (eval library fuel scope)) m values m₁ ∧
          ((∃ b ∈ values, b.isError = true) →
            values.find? Value.isError = some a ∧ m' = m₁ ∧
              ∀ act, Activation.Calls library ⟨scope, .eval v, m, frames⟩ act →
                ∃ w, act.activity = .eval w)) ∧
      (∀ (closure : Closure) args bound, closure.take args = .ok ([], bound) →
        ∀ caller m₁ b m₂, (Activity.apply (.closure closure) args).Ends library caller m₁ b m₂ ↔
          ∃ m₃, Evaluates library m₁.store.nextId (.sexpr closure.body) (m₁.enter bound caller) b
            m₃ ∧ m₂ = m₃.leave) ∧
      (∀ cells caller m₁ b m₂,
        (Activity.call .eval [.qexpr cells]).Ends library caller m₁ b m₂ ↔
          Evaluates library caller (.sexpr cells) m₁ b m₂) ∧
      ∀ n first second caller m₁ b m₂,
        (Activity.call .choose [.number n, .qexpr first, .qexpr second]).Ends library caller m₁ b
          m₂ ↔ Evaluates library caller (.sexpr (if n = 0 then second else first)) m₁ b m₂ := by
  refine ⟨fun act b m₁ hreaches ↦ hreaches.isError h, fun cells hv ↦ ?_,
    fun closure args bound htake caller m₁ b m₂ ↦ Activity.ends_closure_iff htake,
    fun cells caller m₁ b m₂ ↦ Activity.ends_evaluate_iff rfl,
    fun n first second caller m₁ b m₂ ↦ Activity.ends_evaluate_iff rfl⟩
  subst hv
  obtain ⟨values, m₁, hcells, -⟩ := derives_sexpr_iff.mp (evaluates_iff_derives.mp h)
  obtain ⟨fuel, hrun⟩ := derives_iff.mp hcells
  refine ⟨fuel, values, m₁, hrun, fun hfails ↦ ?_⟩
  obtain ⟨hfind, hm⟩ := Activity.Ends.find?_isError h hcells hfails
  exact ⟨hfind, hm, fun act hcalls ↦ hcalls.exists_eval_of_isError hcells hfails⟩

/-- Two unbound names in a form, the first of them in parentheses. The whole form comes to what that
one comes to. -/
theorem isError_of_reaches_unbound :
    ∃ (m : Machine) (failure : Value) (act : Activation),
      Evaluates ⟨fun _ ↦ none⟩ 0 (.sexpr [.exit, .sexpr [.symbol "x"], .symbol "y"]) m failure m ∧
      Activation.ReachesOutsideLoads ⟨fun _ ↦ none⟩
        ⟨0, .eval (.sexpr [.exit, .sexpr [.symbol "x"], .symbol "y"]), m, []⟩ act ∧
      act.activity = .eval (.symbol "x") ∧ act.Ends ⟨fun _ ↦ none⟩ failure m ∧
      failure = (EvalError.unboundSymbol "x").toValue ∧ failure.isError = true ∧
      ∃ fuel values, Yields ([.exit, .sexpr [.symbol "x"], .symbol "y"].mapM
          (eval ⟨fun _ ↦ none⟩ fuel 0)) m values m ∧
        values.find? Value.isError = some failure := by
  obtain ⟨m, hm⟩ : ∃ m : Machine, m = ⟨⟨#[some ⟨[], none⟩]⟩, .empty⟩ := ⟨_, rfl⟩
  have hx : Derives ⟨fun _ ↦ none⟩ 0 (.value (.symbol "x")) m
      [(EvalError.unboundSymbol "x").toValue] m := .unbound (by rw [hm]; rfl)
  have hy : Derives ⟨fun _ ↦ none⟩ 0 (.value (.symbol "y")) m
      [(EvalError.unboundSymbol "y").toValue] m := .unbound (by rw [hm]; rfl)
  have hinner : Derives ⟨fun _ ↦ none⟩ 0 (.value (.sexpr [.symbol "x"])) m
      [(EvalError.unboundSymbol "x").toValue] m := .give (.cell hx .noCells) rfl
  have hexit : Derives ⟨fun _ ↦ none⟩ 0 (.cells [.exit]) m [.exit] m :=
    .cell (.inert trivial) .noCells
  have hcells : Derives ⟨fun _ ↦ none⟩ 0 (.cells [.exit, .sexpr [.symbol "x"], .symbol "y"]) m
      [.exit, (EvalError.unboundSymbol "x").toValue, (EvalError.unboundSymbol "y").toValue] m :=
    .cell (.inert trivial) (.cell hinner (.cell hy .noCells))
  have heval : Evaluates ⟨fun _ ↦ none⟩ 0 (.sexpr [.exit, .sexpr [.symbol "x"], .symbol "y"]) m
      (EvalError.unboundSymbol "x").toValue m := evaluates_iff_derives.mpr (.give hcells rfl)
  have hreaches : Activation.ReachesOutsideLoads ⟨fun _ ↦ none⟩
      ⟨0, .eval (.sexpr [.exit, .sexpr [.symbol "x"], .symbol "y"]), m, []⟩
      ⟨0, .eval (.symbol "x"), m, []⟩ :=
    .tail (.tail .refl ⟨.cell hexit, fun _ ↦ nofun⟩) ⟨.cell .noCells, fun _ ↦ nofun⟩
  have hends : Activation.Ends ⟨fun _ ↦ none⟩ ⟨0, .eval (.symbol "x"), m, []⟩
      (EvalError.unboundSymbol "x").toValue m := Activity.ends_eval_iff.mpr hx
  obtain ⟨hpassed, hform, -⟩ := Evaluates.isError_of_reaches heval []
  obtain ⟨fuel, values, m₁, hrun, hleftmost⟩ := hform _ rfl
  obtain ⟨rfl, rfl⟩ := hcells.unique (derives_iff.mpr ⟨fuel, hrun⟩)
  exact ⟨m, _, _, heval, hreaches, rfl, hends, rfl, hpassed _ _ _ hreaches hends rfl, fuel, _, hrun,
    (hleftmost ⟨_, List.mem_cons_of_mem _ List.mem_cons_self, rfl⟩).1⟩

end QuoteLisp
