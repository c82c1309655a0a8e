import QuoteLisp.Evaluation.Fuel
import QuoteLisp.Proofs.Evaluation.Action

/-!
# The rules of evaluation

Evaluation that ends has a derivation: a tree with a rule at each node, whose branches are the parts
that were evaluated on the way. `Derives` gives the rules, one for each thing that a form can ask
for, and speaks neither of fuel nor of the order in which a run is computed. A derivation is what
proofs about evaluation are inductions on.

Three kinds of task occur in a derivation: to evaluate one value, to evaluate the cells of a form
one after another, and to run the forms of a file for their effects. They are one family, so that
there is one induction.

## Derivations and runs

A task has a derivation exactly when its run ends with some fuel (`derives_iff`). From a run to a
derivation the fuel is the induction. Back from a derivation, every branch brings its own fuel, and
the most of them is enough because more fuel never changes a result.
-/

namespace QuoteLisp

/-! ## Changes to the machine -/

namespace Machine

/-- Writes a line to the output. -/
def emit (m : Machine) (line : String) : Machine :=
  { m with output := m.output.write line }

/-- Writes lines to the output, one after another. -/
def emitAll (m : Machine) (lines : List String) : Machine :=
  lines.foldl emit m

/-- Reports the result of a form of a file, which is only done when it failed. -/
def report (m : Machine) (result : Value) : Machine :=
  if result.isError then m.emit result.display else m

/-- Binds names in the target of a definition. -/
def bindAll (m : Machine) (target : Target) (scope : ScopeId) (entries : List (String × Value)) :
    Machine :=
  { m with store := m.store.bindAll target scope entries }

/-- Puts a scope with some bindings at the next place, around which is the caller's scope. -/
def enter (m : Machine) (bound : Bindings) (caller : ScopeId) : Machine :=
  { m with store := m.store.push ⟨bound, some caller⟩ }

/-- Takes back the last place. -/
def leave (m : Machine) : Machine :=
  { m with store := m.store.pop }

variable (m : Machine)

@[simp] theorem report_store (result : Value) : (m.report result).store = m.store := by
  rw [report]
  split <;> rfl

theorem report_with_store (store : Store) (result : Value) :
    { m with store := store }.report result = { m.report result with store := store } := by
  rw [report, report]
  split <;> rfl

@[simp] theorem emitAll_store (lines : List String) : (m.emitAll lines).store = m.store := by
  rw [emitAll]
  induction lines generalizing m with
  | nil => rfl
  | cons line lines ih => exact ih (m.emit line)

end Machine

/-! ## The rules -/

/-- What there is to evaluate. -/
inductive Task where
  | value (v : Value)
  /-- The cells of a form, from left to right. -/
  | cells (vs : List Value)
  /-- The forms of a file, for their effects. -/
  | forms (vs : List Value)

/-- Whether a value is its own result. -/
def Value.IsInert : Value → Prop
  | symbol _ | sexpr _ => False
  | _ => True

/-- The rules of evaluation: the task, done in a scope of the first machine, has the given results
and leaves the second machine behind. -/
inductive Derives (library : Library) :
    ScopeId → Task → Machine → List Value → Machine → Prop
  | bound {scope : ScopeId} {name : String} {v : Value} {m : Machine} :
      m.store.lookup? scope name = some v →
      Derives library scope (.value (.symbol name)) m [v] m
  | unbound {scope : ScopeId} {name : String} {m : Machine} :
      m.store.lookup? scope name = none →
      Derives library scope (.value (.symbol name)) m [(EvalError.unboundSymbol name).toValue] m
  | inert {scope : ScopeId} {v : Value} {m : Machine} :
      v.IsInert → Derives library scope (.value v) m [v] m
  | give {scope : ScopeId} {cells values : List Value} {v : Value} {m m₁ : Machine} :
      Derives library scope (.cells cells) m values m₁ →
      actionOf values = .request (.give v) →
      Derives library scope (.value (.sexpr cells)) m [v] m₁
  | evaluate {scope : ScopeId} {cells values selected : List Value} {a : Value}
      {m m₁ m₂ : Machine} :
      Derives library scope (.cells cells) m values m₁ →
      actionOf values = .request (.evaluate selected) →
      Derives library scope (.value (.sexpr selected)) m₁ [a] m₂ →
      Derives library scope (.value (.sexpr cells)) m [a] m₂
  | bind {scope : ScopeId} {cells values : List Value} {target : Target}
      {entries : List (String × Value)} {m m₁ : Machine} :
      Derives library scope (.cells cells) m values m₁ →
      actionOf values = .request (.bind target entries) →
      Derives library scope (.value (.sexpr cells)) m [.unit] (m₁.bindAll target scope entries)
  | loadFails {scope : ScopeId} {cells values : List Value} {path : String}
      {outcome : Except ReadError String} {failure : HostError} {m m₁ : Machine} :
      Derives library scope (.cells cells) m values m₁ →
      actionOf values = .request (.load path) →
      library.read? path = some outcome → fileForms path outcome = .error failure →
      Derives library scope (.value (.sexpr cells)) m
        [(EvalError.loadFailed failure.message).toValue] m₁
  | load {scope : ScopeId} {cells values forms : List Value} {path : String}
      {outcome : Except ReadError String} {m m₁ m₂ : Machine} :
      Derives library scope (.cells cells) m values m₁ →
      actionOf values = .request (.load path) →
      library.read? path = some outcome → fileForms path outcome = .ok forms →
      Derives library scope (.forms forms) m₁ [] m₂ →
      Derives library scope (.value (.sexpr cells)) m [.unit] m₂
  | print {scope : ScopeId} {cells values : List Value} {line : String} {m m₁ : Machine} :
      Derives library scope (.cells cells) m values m₁ →
      actionOf values = .request (.print line) →
      Derives library scope (.value (.sexpr cells)) m [.unit] (m₁.emit line)
  | printScope {scope : ScopeId} {cells values : List Value} {m m₁ : Machine} :
      Derives library scope (.cells cells) m values m₁ →
      actionOf values = .request .printScope →
      Derives library scope (.value (.sexpr cells)) m [.unit]
        (m₁.emitAll (m₁.store.bindings scope).lines)
  | enter {scope : ScopeId} {cells values body : List Value} {bound : Bindings} {a : Value}
      {m m₁ m₂ : Machine} :
      Derives library scope (.cells cells) m values m₁ →
      actionOf values = .enter bound body →
      Derives library m₁.store.nextId (.value (.sexpr body)) (m₁.enter bound scope) [a] m₂ →
      Derives library scope (.value (.sexpr cells)) m [a] m₂.leave
  | noCells {scope : ScopeId} {m : Machine} : Derives library scope (.cells []) m [] m
  | cell {scope : ScopeId} {v a : Value} {vs values : List Value} {m m₁ m₂ : Machine} :
      Derives library scope (.value v) m [a] m₁ →
      Derives library scope (.cells vs) m₁ values m₂ →
      Derives library scope (.cells (v :: vs)) m (a :: values) m₂
  | noForms {scope : ScopeId} {m : Machine} : Derives library scope (.forms []) m [] m
  | form {scope : ScopeId} {v a : Value} {vs : List Value} {m m₁ m₂ : Machine} :
      Derives library scope (.value v) m [a] m₁ →
      Derives library scope (.forms vs) (m₁.report a) [] m₂ →
      Derives library scope (.forms (v :: vs)) m [] m₂

/-! ## What comes of an action

Nine of the rules are about forms, one for each thing that a form can ask for. `Action.ComesTo` puts
these things together, so that a proof can treat all forms alike: a form ends as what it asks for
comes to once its cells have values (`derives_sexpr_iff`).
-/

/-- What comes of an action, done in a scope of the first machine: the result and the machine left
behind. What comes of a task that the action goes on to is up to `P`. -/
inductive Action.ComesTo (library : Library)
    (P : ScopeId → Task → Machine → List Value → Machine → Prop) (scope : ScopeId) :
    Action → Machine → Value → Machine → Prop
  | give {v : Value} {m : Machine} : ComesTo library P scope (.request (.give v)) m v m
  | evaluate {selected : List Value} {a : Value} {m m' : Machine} :
      P scope (.value (.sexpr selected)) m [a] m' →
      ComesTo library P scope (.request (.evaluate selected)) m a m'
  | bind {target : Target} {entries : List (String × Value)} {m : Machine} :
      ComesTo library P scope (.request (.bind target entries)) m .unit
        (m.bindAll target scope entries)
  | loadFails {path : String} {outcome : Except ReadError String} {failure : HostError}
      {m : Machine} :
      library.read? path = some outcome → fileForms path outcome = .error failure →
      ComesTo library P scope (.request (.load path)) m
        (EvalError.loadFailed failure.message).toValue m
  | load {path : String} {outcome : Except ReadError String} {forms : List Value}
      {m m' : Machine} :
      library.read? path = some outcome → fileForms path outcome = .ok forms →
      P scope (.forms forms) m [] m' →
      ComesTo library P scope (.request (.load path)) m .unit m'
  | print {line : String} {m : Machine} :
      ComesTo library P scope (.request (.print line)) m .unit (m.emit line)
  | printScope {m : Machine} :
      ComesTo library P scope (.request .printScope) m .unit
        (m.emitAll (m.store.bindings scope).lines)
  | enter {bound : Bindings} {body : List Value} {a : Value} {m m' : Machine} :
      P m.store.nextId (.value (.sexpr body)) (m.enter bound scope) [a] m' →
      ComesTo library P scope (.enter bound body) m a m'.leave

section

variable {library : Library} {scope : ScopeId} {m m' : Machine}

theorem Action.ComesTo.mono {P Q : ScopeId → Task → Machine → List Value → Machine → Prop}
    {action : Action} {a : Value} (h : action.ComesTo library P scope m a m')
    (hPQ : ∀ {scope task m as m'}, P scope task m as m' → Q scope task m as m') :
    action.ComesTo library Q scope m a m' := by
  cases h with
  | give => exact .give
  | evaluate hselected => exact .evaluate (hPQ hselected)
  | bind => exact .bind
  | loadFails hread hforms => exact .loadFails hread hforms
  | load hread hforms hrun => exact .load hread hforms (hPQ hrun)
  | print => exact .print
  | printScope => exact .printScope
  | enter hbody => exact .enter (hPQ hbody)

theorem derives_sexpr_iff {cells : List Value} {a : Value} :
    Derives library scope (.value (.sexpr cells)) m [a] m' ↔
      ∃ values m₁, Derives library scope (.cells cells) m values m₁ ∧
        (actionOf values).ComesTo library (Derives library) scope m₁ a m' := by
  constructor
  · intro h
    cases h with
    | inert hinert => exact hinert.elim
    | give hcells haction => exact ⟨_, _, hcells, haction ▸ .give⟩
    | evaluate hcells haction hselected => exact ⟨_, _, hcells, haction ▸ .evaluate hselected⟩
    | bind hcells haction => exact ⟨_, _, hcells, haction ▸ .bind⟩
    | loadFails hcells haction hread hforms =>
      exact ⟨_, _, hcells, haction ▸ .loadFails hread hforms⟩
    | load hcells haction hread hforms hrun =>
      exact ⟨_, _, hcells, haction ▸ .load hread hforms hrun⟩
    | print hcells haction => exact ⟨_, _, hcells, haction ▸ .print⟩
    | printScope hcells haction => exact ⟨_, _, hcells, haction ▸ .printScope⟩
    | enter hcells haction hbody => exact ⟨_, _, hcells, haction ▸ .enter hbody⟩
  · rintro ⟨values, m₁, hcells, h⟩
    generalize haction : actionOf values = action at h
    cases h with
    | give => exact .give hcells haction
    | evaluate hselected => exact .evaluate hcells haction hselected
    | bind => exact .bind hcells haction
    | loadFails hread hforms => exact .loadFails hcells haction hread hforms
    | load hread hforms hrun => exact .load hcells haction hread hforms hrun
    | print => exact .print hcells haction
    | printScope => exact .printScope hcells haction
    | enter hbody => exact .enter hcells haction hbody

/-- Induction on derivations with one case for all forms. -/
theorem Derives.action_induction
    {motive : ScopeId → Task → Machine → List Value → Machine → Prop}
    (bound : ∀ {scope name v m}, m.store.lookup? scope name = some v →
      motive scope (.value (.symbol name)) m [v] m)
    (unbound : ∀ {scope name m}, m.store.lookup? scope name = none →
      motive scope (.value (.symbol name)) m [(EvalError.unboundSymbol name).toValue] m)
    (inert : ∀ {scope v m}, v.IsInert → motive scope (.value v) m [v] m)
    (sexpr : ∀ {scope cells values a m m₁ m'}, motive scope (.cells cells) m values m₁ →
      (actionOf values).ComesTo library motive scope m₁ a m' →
      motive scope (.value (.sexpr cells)) m [a] m')
    (noCells : ∀ {scope m}, motive scope (.cells []) m [] m)
    (cell : ∀ {scope v a vs values m m₁ m₂}, motive scope (.value v) m [a] m₁ →
      motive scope (.cells vs) m₁ values m₂ → motive scope (.cells (v :: vs)) m (a :: values) m₂)
    (noForms : ∀ {scope m}, motive scope (.forms []) m [] m)
    (form : ∀ {scope v a vs m m₁ m₂}, motive scope (.value v) m [a] m₁ →
      motive scope (.forms vs) (m₁.report a) [] m₂ → motive scope (.forms (v :: vs)) m [] m₂)
    {task : Task} {as : List Value} (h : Derives library scope task m as m') :
    motive scope task m as m' := by
  induction h with
  | bound hlookup => exact bound hlookup
  | unbound hlookup => exact unbound hlookup
  | inert hinert => exact inert hinert
  | give _ haction ih => exact sexpr ih (haction ▸ .give)
  | evaluate _ haction _ ih ihselected => exact sexpr ih (haction ▸ .evaluate ihselected)
  | bind _ haction ih => exact sexpr ih (haction ▸ .bind)
  | loadFails _ haction hread hforms ih => exact sexpr ih (haction ▸ .loadFails hread hforms)
  | load _ haction hread hforms _ ih ihforms =>
    exact sexpr ih (haction ▸ .load hread hforms ihforms)
  | print _ haction ih => exact sexpr ih (haction ▸ .print)
  | printScope _ haction ih => exact sexpr ih (haction ▸ .printScope)
  | enter _ haction _ ih ihbody => exact sexpr ih (haction ▸ .enter ihbody)
  | noCells => exact noCells
  | cell _ _ ihv ihvs => exact cell ihv ihvs
  | noForms => exact noForms
  | form _ _ ihv ihvs => exact form ihv ihvs

end

/-! ## What the parts of a run yield -/

open Run

section

variable {α β : Type} {m m' : Machine}

theorem yields_modify_iff {f : Machine → Machine} {u : Unit} :
    Yields (modify f) m u m' ↔ m' = f m := by
  change Except.ok ((), f m) = Except.ok (u, m') ↔ _
  simp [eq_comm]

theorem yields_get_bind_iff {f : Machine → Run β} {b : β} :
    Yields (get >>= f) m b m' ↔ Yields (f m) m b m' := Iff.rfl

theorem not_yields_throw {stop : Stop} {a : α} : ¬Yields (throw stop) m a m' :=
  fun h ↦ nomatch h

theorem yields_emit_iff {line : String} {u : Unit} :
    Yields (Run.emit line) m u m' ↔ m' = m.emit line :=
  yields_modify_iff

theorem yields_forM_nil_iff {f : α → Run Unit} {u : Unit} :
    Yields ([].forM f) m u m' ↔ m' = m :=
  yields_pure_iff.trans (and_iff_right rfl)

theorem yields_forM_cons_iff {f : α → Run Unit} {a : α} {as : List α} {u : Unit} :
    Yields ((a :: as).forM f) m u m' ↔ ∃ m₁, Yields (f a) m () m₁ ∧ Yields (as.forM f) m₁ u m' := by
  change Yields (f a >>= fun _ ↦ as.forM f) m u m' ↔ _
  rw [yields_bind_iff]
  exact ⟨fun ⟨_, m₁, h, h'⟩ ↦ ⟨m₁, h, h'⟩, fun ⟨m₁, h, h'⟩ ↦ ⟨(), m₁, h, h'⟩⟩

theorem yields_forM_emit_iff {lines : List String} {u : Unit} :
    Yields (lines.forM Run.emit) m u m' ↔ m' = m.emitAll lines := by
  induction lines generalizing m with
  | nil => exact yields_forM_nil_iff
  | cons line lines ih =>
    simp only [yields_forM_cons_iff, yields_emit_iff, exists_eq_left, ih]
    rfl

/-- A computation in a scope of its own starts with that scope at the next place, and the place is
taken back at the end. -/
theorem Run.withScope_apply (bound : Bindings) (caller : ScopeId) (body : ScopeId → Run α)
    (m : Machine) :
    withScope ⟨bound, some caller⟩ body m
      = (do
          let result ← body m.store.nextId
          modifyStore Store.pop
          return result : Run α) (m.enter bound caller) := rfl

theorem yields_withScope_iff {bound : Bindings} {caller : ScopeId} {body : ScopeId → Run α}
    {a : α} :
    Yields (withScope ⟨bound, some caller⟩ body) m a m' ↔
      ∃ m₁, Yields (body m.store.nextId) (m.enter bound caller) a m₁ ∧ m' = m₁.leave := by
  rw [Yields, withScope_apply, ← Yields]
  simp only [modifyStore, yields_bind_iff, yields_modify_iff, yields_pure_iff]
  constructor
  · rintro ⟨b, m₁, hbody, _, _, rfl, rfl, rfl⟩
    exact ⟨m₁, hbody, rfl⟩
  · rintro ⟨m₁, hbody, rfl⟩
    exact ⟨a, m₁, hbody, (), _, rfl, rfl, rfl⟩

theorem yields_report_iff {result : Value} {u : Unit} :
    Yields (if result.isError then Run.emit result.display else pure ()) m u m' ↔
      m' = m.report result := by
  rw [Machine.report]
  split
  · exact yields_emit_iff
  · exact yields_pure_iff.trans (and_iff_right rfl)

theorem yields_runForm_iff {e : Evaluator} {scope : ScopeId} {form : Value} {u : Unit} :
    Yields (runForm e scope form) m u m' ↔
      ∃ a m₁, Yields (e scope form) m a m₁ ∧ m' = m₁.report a := by
  rw [runForm, yields_bind_iff]
  exact exists_congr fun a ↦ exists_congr fun m₁ ↦ and_congr_right fun _ ↦ yields_report_iff

/-- Loading a file ends at once when the file is refused, and otherwise when its forms have run. -/
theorem yields_loadFile_iff {library : Library} {e : Evaluator} {scope : ScopeId} {path : String}
    {a : Value} :
    Yields (loadFile library e scope path) m a m' ↔
      ∃ outcome, library.read? path = some outcome ∧
        ((∃ failure, fileForms path outcome = .error failure ∧
            a = (EvalError.loadFailed failure.message).toValue ∧ m' = m) ∨
          ∃ forms, fileForms path outcome = .ok forms ∧
            Yields (forms.forM (runForm e scope)) m () m' ∧ a = .unit) := by
  rw [loadFile]
  cases library.read? path with
  | none => simp [not_yields_throw]
  | some outcome =>
    cases hforms : fileForms path outcome with
    | error failure => simp [yields_pure_iff, hforms]
    | ok forms =>
      simp only [yields_bind_iff, yields_pure_iff, Option.some.injEq, exists_eq_left', hforms,
        reduceCtorEq, false_and, exists_false, false_or, Except.ok.injEq]
      constructor
      · rintro ⟨_, m₁, hrun, rfl, rfl⟩
        exact ⟨hrun, rfl⟩
      · rintro ⟨hrun, rfl⟩
        exact ⟨(), m', hrun, rfl, rfl⟩

theorem yields_evalStep_sexpr_iff {library : Library} {e : Evaluator} {scope : ScopeId}
    {cells : List Value} {a : Value} :
    Yields (evalStep library e scope (.sexpr cells)) m a m' ↔
      ∃ values m₁, Yields (cells.mapM (e scope)) m values m₁ ∧
        Yields ((actionOf values).perform library e scope) m₁ a m' := by
  simp only [evalStep, yields_bind_iff, applyForm_eq_perform]

end

/-! ## From runs to derivations -/

/-- Whatever the evaluator yields follows the rules. -/
def Evaluator.Follows (library : Library) (e : Evaluator) : Prop :=
  ∀ scope v m a m', Yields (e scope v) m a m' → Derives library scope (.value v) m [a] m'

variable {library : Library} {e : Evaluator} {scope : ScopeId} {m m₁ m' : Machine}

theorem Evaluator.Follows.cells (h : e.Follows library) {vs values : List Value}
    (hrun : Yields (vs.mapM (e scope)) m values m') :
    Derives library scope (.cells vs) m values m' := by
  induction vs generalizing m values with
  | nil =>
    obtain ⟨rfl, rfl⟩ := yields_pure_iff.mp hrun
    exact .noCells
  | cons v vs ih =>
    rw [List.mapM_cons] at hrun
    obtain ⟨a, m₁, hv, hrun⟩ := yields_bind_iff.mp hrun
    obtain ⟨as, m₂, hvs, hrun⟩ := yields_bind_iff.mp hrun
    obtain ⟨rfl, rfl⟩ := yields_pure_iff.mp hrun
    exact .cell (h _ _ _ _ _ hv) (ih hvs)

theorem Evaluator.Follows.forms (h : e.Follows library) {vs : List Value} {u : Unit}
    (hrun : Yields (vs.forM (runForm e scope)) m u m') :
    Derives library scope (.forms vs) m [] m' := by
  induction vs generalizing m with
  | nil =>
    obtain rfl := yields_forM_nil_iff.mp hrun
    exact .noForms
  | cons v vs ih =>
    obtain ⟨m₁, hv, hvs⟩ := yields_forM_cons_iff.mp hrun
    obtain ⟨a, m₂, hresult, rfl⟩ := yields_runForm_iff.mp hv
    exact .form (h _ _ _ _ _ hresult) (ih hvs)

/-- What performing an action yields follows the rules. -/
theorem Evaluator.Follows.comesTo (h : e.Follows library) {action : Action} {a : Value}
    (hrun : Yields (action.perform library e scope) m a m') :
    action.ComesTo library (Derives library) scope m a m' := by
  match action with
  | .enter bound body =>
    rw [Action.perform, yields_withScope_iff] at hrun
    obtain ⟨m₁, hbody, rfl⟩ := hrun
    exact .enter (h _ _ _ _ _ hbody)
  | .request (.give v) =>
    obtain ⟨rfl, rfl⟩ := yields_pure_iff.mp hrun
    exact .give
  | .request (.evaluate selected) => exact .evaluate (h _ _ _ _ _ hrun)
  | .request (.bind target entries) =>
    obtain ⟨_, _, hbind, hrun⟩ := yields_bind_iff.mp hrun
    obtain ⟨rfl, rfl⟩ := yields_pure_iff.mp hrun
    obtain rfl := yields_modify_iff.mp hbind
    exact .bind
  | .request (.load path) =>
    rw [Action.perform, Request.perform, yields_loadFile_iff] at hrun
    obtain ⟨outcome, hread, ⟨failure, hforms, rfl, rfl⟩ | ⟨forms, hforms, hrun, rfl⟩⟩ := hrun
    · exact .loadFails hread hforms
    · exact .load hread hforms (h.forms hrun)
  | .request (.print line) =>
    obtain ⟨_, _, hemit, hrun⟩ := yields_bind_iff.mp hrun
    obtain ⟨rfl, rfl⟩ := yields_pure_iff.mp hrun
    obtain rfl := yields_emit_iff.mp hemit
    exact .print
  | .request .printScope =>
    rw [Action.perform, Request.perform, yields_get_bind_iff] at hrun
    obtain ⟨_, _, hemit, hrun⟩ := yields_bind_iff.mp hrun
    obtain ⟨rfl, rfl⟩ := yields_pure_iff.mp hrun
    obtain rfl := yields_forM_emit_iff.mp hemit
    exact .printScope

theorem Evaluator.Follows.evalStep (h : e.Follows library) :
    (evalStep library e).Follows library := by
  intro scope v m a m' hrun
  cases v with
  | symbol name =>
    rw [QuoteLisp.evalStep, yields_get_bind_iff] at hrun
    split at hrun
    · obtain ⟨rfl, rfl⟩ := yields_pure_iff.mp hrun
      exact .bound ‹_›
    · obtain ⟨rfl, rfl⟩ := yields_pure_iff.mp hrun
      exact .unbound ‹_›
  | sexpr cells =>
    obtain ⟨values, m₁, hcells, hrun⟩ := yields_evalStep_sexpr_iff.mp hrun
    exact derives_sexpr_iff.mpr ⟨values, m₁, h.cells hcells, h.comesTo hrun⟩
  | _ =>
    obtain ⟨rfl, rfl⟩ := yields_pure_iff.mp hrun
    exact .inert trivial

theorem eval_follows (library : Library) (fuel : Nat) : (eval library fuel).Follows library := by
  induction fuel with
  | zero => exact fun _ _ _ _ _ h ↦ absurd h not_yields_throw
  | succ fuel ih => exact ih.evalStep

/-! ## From derivations to runs -/

/-- The run of a task. -/
def Task.run (library : Library) (fuel : Nat) (scope : ScopeId) : Task → Run (List Value)
  | value v => do return [← eval library fuel scope v]
  | cells vs => vs.mapM (eval library fuel scope)
  | forms vs => do
    vs.forM (runForm (eval library fuel) scope)
    return []

/-- More fuel keeps the result of a task. -/
theorem Task.run_below_of_le {fuel fuel' : Nat} (hle : fuel ≤ fuel') (scope : ScopeId)
    (task : Task) : Run.Below (task.run library fuel scope) (task.run library fuel' scope) := by
  have heval := eval_below_of_le library hle
  cases task with
  | value v => exact .bind (heval scope v) fun _ ↦ .refl _
  | cells vs => exact .mapM (heval scope) vs
  | forms vs =>
    exact .bind (.forM (fun v ↦ .bind (heval scope v) fun _ ↦ .refl _) vs) fun _ ↦ .refl _

theorem Action.perform_below {e' : Evaluator} (h : e.Below e') (scope : ScopeId)
    (action : Action) :
    Run.Below (action.perform library e scope) (action.perform library e' scope) := by
  match action with
  | .enter bound body =>
    exact .bind (.refl _) fun _ ↦ .bind (.refl _) fun _ ↦ .bind (h _ _) fun _ ↦ .refl _
  | .request (.evaluate selected) => exact h _ _
  | .request (.load path) => exact loadFile_below library h _ _
  | .request (.give _) | .request (.bind _ _) | .request (.print _) | .request .printScope =>
    exact .refl _

theorem Task.yields_run_value_iff {fuel : Nat} {v : Value} {as : List Value} :
    Yields ((Task.value v).run library fuel scope) m as m' ↔
      ∃ a, as = [a] ∧ Yields (eval library fuel scope v) m a m' := by
  simp only [Task.run, yields_bind_iff, yields_pure_iff]
  constructor
  · rintro ⟨a, m₁, h, rfl, rfl⟩
    exact ⟨a, rfl, h⟩
  · rintro ⟨a, rfl, h⟩
    exact ⟨a, m', h, rfl, rfl⟩

theorem Task.yields_run_value_singleton_iff {fuel : Nat} {v a : Value} :
    Yields ((Task.value v).run library fuel scope) m [a] m' ↔
      Yields (eval library fuel scope v) m a m' := by
  rw [yields_run_value_iff]
  constructor
  · rintro ⟨b, heq, h⟩
    rwa [List.singleton_inj.mp heq]
  · exact fun h ↦ ⟨a, rfl, h⟩

theorem Task.yields_run_forms_iff {fuel : Nat} {vs as : List Value} :
    Yields ((Task.forms vs).run library fuel scope) m as m' ↔
      as = [] ∧ Yields (vs.forM (runForm (eval library fuel) scope)) m () m' := by
  simp only [Task.run, yields_bind_iff, yields_pure_iff]
  constructor
  · rintro ⟨_, m₁, h, rfl, rfl⟩
    exact ⟨rfl, h⟩
  · rintro ⟨rfl, h⟩
    exact ⟨(), m', h, rfl, rfl⟩

/-- Two tasks that end with some fuel each both end with the larger amount. -/
private theorem exists_fuel_both {scope' : ScopeId} {task task' : Task} {as as' : List Value}
    {m₂ m₃ : Machine} (h : ∃ fuel, Yields (task.run library fuel scope) m as m₁)
    (h' : ∃ fuel, Yields (task'.run library fuel scope') m₂ as' m₃) :
    ∃ fuel, Yields (task.run library fuel scope) m as m₁ ∧
      Yields (task'.run library fuel scope') m₂ as' m₃ := by
  obtain ⟨fuel, h⟩ := h
  obtain ⟨fuel', h'⟩ := h'
  refine ⟨max fuel fuel', ?_, ?_⟩
  · exact Task.run_below_of_le (Nat.le_max_left fuel fuel') scope _ _ _ _ h
  · exact Task.run_below_of_le (Nat.le_max_right fuel fuel') scope' _ _ _ _ h'

/-- An action is performed with some fuel when there is enough for the task that it goes on to. -/
private theorem exists_fuel_of_comesTo {action : Action} {a : Value}
    (h : action.ComesTo library
      (fun scope task m as m' ↦ ∃ fuel, Yields (task.run library fuel scope) m as m')
      scope m a m') :
    ∃ fuel, Yields (action.perform library (eval library fuel) scope) m a m' := by
  cases h with
  | give => exact ⟨0, yields_pure_iff.mpr ⟨rfl, rfl⟩⟩
  | evaluate hselected =>
    obtain ⟨fuel, hselected⟩ := hselected
    exact ⟨fuel, Task.yields_run_value_singleton_iff.mp hselected⟩
  | bind =>
    exact ⟨0, yields_bind_iff.mpr
      ⟨(), _, yields_modify_iff.mpr rfl, yields_pure_iff.mpr ⟨rfl, rfl⟩⟩⟩
  | loadFails hread hforms =>
    exact ⟨0, yields_loadFile_iff.mpr ⟨_, hread, Or.inl ⟨_, hforms, rfl, rfl⟩⟩⟩
  | load hread hforms hrun =>
    obtain ⟨fuel, hrun⟩ := hrun
    exact ⟨fuel, yields_loadFile_iff.mpr
      ⟨_, hread, Or.inr ⟨_, hforms, (Task.yields_run_forms_iff.mp hrun).2, rfl⟩⟩⟩
  | print =>
    exact ⟨0, yields_bind_iff.mpr
      ⟨(), _, yields_emit_iff.mpr rfl, yields_pure_iff.mpr ⟨rfl, rfl⟩⟩⟩
  | printScope =>
    refine ⟨0, ?_⟩
    rw [Action.perform, Request.perform, yields_get_bind_iff]
    exact yields_bind_iff.mpr
      ⟨(), _, yields_forM_emit_iff.mpr rfl, yields_pure_iff.mpr ⟨rfl, rfl⟩⟩
  | enter hbody =>
    obtain ⟨fuel, hbody⟩ := hbody
    refine ⟨fuel, ?_⟩
    rw [Action.perform, yields_withScope_iff]
    exact ⟨_, Task.yields_run_value_singleton_iff.mp hbody, rfl⟩

/-- What the rules derive, a run with some fuel yields. -/
theorem Derives.exists_fuel {task : Task} {as : List Value}
    (h : Derives library scope task m as m') :
    ∃ fuel, Yields (task.run library fuel scope) m as m' := by
  refine h.action_induction
    (motive := fun scope task m as m' ↦ ∃ fuel, Yields (task.run library fuel scope) m as m')
    ?bound ?unbound ?inert ?sexpr ?noCells ?cell ?noForms ?form
  case bound =>
    intro scope name v m hlookup
    refine ⟨1, Task.yields_run_value_singleton_iff.mpr ?_⟩
    rw [eval, evalStep, yields_get_bind_iff, hlookup]
    exact yields_pure_iff.mpr ⟨rfl, rfl⟩
  case unbound =>
    intro scope name m hlookup
    refine ⟨1, Task.yields_run_value_singleton_iff.mpr ?_⟩
    rw [eval, evalStep, yields_get_bind_iff, hlookup]
    exact yields_pure_iff.mpr ⟨rfl, rfl⟩
  case inert =>
    intro scope v m hinert
    refine ⟨1, Task.yields_run_value_singleton_iff.mpr ?_⟩
    cases v with
    | symbol | sexpr => exact hinert.elim
    | _ => exact yields_pure_iff.mpr ⟨rfl, rfl⟩
  case sexpr =>
    intro scope cells values a m m₁ m' ihcells haction
    -- one step more than the larger of what the cells need and what the form asks for
    obtain ⟨fuel, hcells⟩ := ihcells
    obtain ⟨fuel', haction⟩ := exists_fuel_of_comesTo haction
    refine ⟨max fuel fuel' + 1, Task.yields_run_value_singleton_iff.mpr ?_⟩
    refine yields_evalStep_sexpr_iff.mpr ⟨values, m₁, ?_, ?_⟩
    · exact Task.run_below_of_le (Nat.le_max_left fuel fuel') scope _ _ _ _ hcells
    · exact (actionOf values).perform_below
        (eval_below_of_le library (Nat.le_max_right fuel fuel')) scope _ _ _ haction
  case noCells => exact ⟨0, yields_pure_iff.mpr ⟨rfl, rfl⟩⟩
  case cell =>
    intro scope v a vs values m m₁ m₂ ihv ihvs
    obtain ⟨fuel, hv, hvs⟩ := exists_fuel_both ihv ihvs
    rw [Task.yields_run_value_singleton_iff] at hv
    refine ⟨fuel, ?_⟩
    rw [Task.run, List.mapM_cons]
    exact yields_bind_iff.mpr ⟨_, _, hv, yields_bind_iff.mpr
      ⟨_, _, hvs, yields_pure_iff.mpr ⟨rfl, rfl⟩⟩⟩
  case noForms => exact ⟨0, Task.yields_run_forms_iff.mpr ⟨rfl, yields_forM_nil_iff.mpr rfl⟩⟩
  case form =>
    intro scope v a vs m m₁ m₂ ihv ihvs
    obtain ⟨fuel, hv, hvs⟩ := exists_fuel_both ihv ihvs
    rw [Task.yields_run_value_singleton_iff] at hv
    refine ⟨fuel, Task.yields_run_forms_iff.mpr ⟨rfl, ?_⟩⟩
    exact yields_forM_cons_iff.mpr ⟨_, yields_runForm_iff.mpr ⟨_, _, hv, rfl⟩,
      (Task.yields_run_forms_iff.mp hvs).2⟩

/-- **Derivations are runs.** A task has a derivation exactly when its run ends with some fuel. -/
theorem derives_iff {task : Task} {as : List Value} :
    Derives library scope task m as m' ↔ ∃ fuel, Yields (task.run library fuel scope) m as m' := by
  refine ⟨Derives.exists_fuel, fun ⟨fuel, h⟩ ↦ ?_⟩
  have hfollows := eval_follows library fuel
  cases task with
  | value v =>
    obtain ⟨a, rfl, heval⟩ := Task.yields_run_value_iff.mp h
    exact hfollows _ _ _ _ _ heval
  | cells vs => exact hfollows.cells h
  | forms vs =>
    obtain ⟨rfl, hforms⟩ := Task.yields_run_forms_iff.mp h
    exact hfollows.forms hforms

/-- A task has one outcome at most. -/
theorem Derives.unique {task : Task} {as as' : List Value} (h : Derives library scope task m as m₁)
    (h' : Derives library scope task m as' m') : as = as' ∧ m₁ = m' := by
  obtain ⟨fuel, h, h'⟩ := exists_fuel_both h.exists_fuel h'.exists_fuel
  exact h.unique h'

/-- A form whose cells have values ends as what it asks for comes to. -/
theorem derives_sexpr_iff_of_cells {cells values : List Value} {a : Value}
    (hcells : Derives library scope (.cells cells) m values m₁) :
    Derives library scope (.value (.sexpr cells)) m [a] m' ↔
      (actionOf values).ComesTo library (Derives library) scope m₁ a m' := by
  rw [derives_sexpr_iff]
  constructor
  · rintro ⟨values', m₂, hcells', h⟩
    obtain ⟨rfl, rfl⟩ := hcells.unique hcells'
    exact h
  · exact fun h ↦ ⟨values, m₁, hcells, h⟩

/-- An action that is performed to its end comes to what the rules say. -/
theorem Action.comesTo_iff {action : Action} {a : Value} :
    action.ComesTo library (Derives library) scope m a m' ↔
      ∃ fuel, Yields (action.perform library (eval library fuel) scope) m a m' := by
  refine ⟨fun h ↦ exists_fuel_of_comesTo (h.mono fun h ↦ h.exists_fuel), fun ⟨fuel, h⟩ ↦ ?_⟩
  exact (eval_follows library fuel).comesTo h

/-- Evaluation that ends is what the rules derive for a value. -/
theorem evaluates_iff_derives {v a : Value} :
    Evaluates library scope v m a m' ↔ Derives library scope (.value v) m [a] m' := by
  rw [derives_iff]
  exact exists_congr fun fuel ↦ Task.yields_run_value_singleton_iff.symm

end QuoteLisp
