import Mathlib.Logic.Relation
import QuoteLisp.Proofs.Evaluation.Hereditary

/-!
# The calls within an evaluation

Evaluating a value calls for other tasks on the way, each in some scope of the machine as it is at
that moment, and these call for others in turn. `Call.Makes` is the direct step from a call to the
next, one case for each way in which the rules of evaluation go on to a further task, and
`Call.Reaches` follows any number of them. A call is made as soon as everything before it has ended,
so the relation makes sense for evaluations that never end, too.
-/

namespace QuoteLisp

/-- A task with the scope and the machine it is started in. -/
structure Call where
  scope : ScopeId
  task : Task
  machine : Machine

namespace Call

/-- The first call goes on to the second directly. -/
inductive Makes (library : Library) : Call → Call → Prop
  | cells {scope : ScopeId} {cells : List Value} {m : Machine} :
      Makes library ⟨scope, .value (.sexpr cells), m⟩ ⟨scope, .cells cells, m⟩
  | evaluate {scope : ScopeId} {cells values selected : List Value} {m m₁ : Machine} :
      Derives library scope (.cells cells) m values m₁ →
      actionOf values = .request (.evaluate selected) →
      Makes library ⟨scope, .value (.sexpr cells), m⟩ ⟨scope, .value (.sexpr selected), m₁⟩
  | load {scope : ScopeId} {cells values forms : List Value} {path : String}
      {outcome : Except ReadError String} {m m₁ : Machine} :
      Derives library scope (.cells cells) m values m₁ →
      actionOf values = .request (.load path) →
      library.read? path = some outcome → fileForms path outcome = .ok forms →
      Makes library ⟨scope, .value (.sexpr cells), m⟩ ⟨scope, .forms forms, m₁⟩
  | enter {scope : ScopeId} {cells values body : List Value} {bound : Bindings}
      {m m₁ : Machine} :
      Derives library scope (.cells cells) m values m₁ →
      actionOf values = .enter bound body →
      Makes library ⟨scope, .value (.sexpr cells), m⟩
        ⟨m₁.store.nextId, .value (.sexpr body), m₁.enter bound scope⟩
  | firstCell {scope : ScopeId} {v : Value} {vs : List Value} {m : Machine} :
      Makes library ⟨scope, .cells (v :: vs), m⟩ ⟨scope, .value v, m⟩
  | otherCells {scope : ScopeId} {v a : Value} {vs : List Value} {m m₁ : Machine} :
      Derives library scope (.value v) m [a] m₁ →
      Makes library ⟨scope, .cells (v :: vs), m⟩ ⟨scope, .cells vs, m₁⟩
  | firstForm {scope : ScopeId} {v : Value} {vs : List Value} {m : Machine} :
      Makes library ⟨scope, .forms (v :: vs), m⟩ ⟨scope, .value v, m⟩
  | otherForms {scope : ScopeId} {v a : Value} {vs : List Value} {m m₁ : Machine} :
      Derives library scope (.value v) m [a] m₁ →
      Makes library ⟨scope, .forms (v :: vs), m⟩ ⟨scope, .forms vs, m₁.report a⟩

/-- The second call is the first one or is made on the way. -/
def Reaches (library : Library) : Call → Call → Prop :=
  Relation.ReflTransGen (Makes library)

/-! ## No call is left out -/

section

variable {library : Library} {e e' : Evaluator} {scope : ScopeId} {m : Machine}

/-- Two evaluators do the same for every value that is evaluated on the way. -/
def Agree (library : Library) (e e' : Evaluator) (c : Call) : Prop :=
  ∀ c', Relation.TransGen (Makes library) c c' → ∀ v, c'.task = .value v →
    e c'.scope v c'.machine = e' c'.scope v c'.machine

theorem Agree.of_makes {c c' : Call} (h : c.Agree library e e') (hmakes : Makes library c c') :
    c'.Agree library e e' :=
  fun c'' hreaches ↦ h c'' (.head hmakes hreaches)

theorem Agree.eq {c : Call} {v : Value} (h : c.Agree library e e')
    (hmakes : Makes library c ⟨scope, .value v, m⟩) : e scope v m = e' scope v m :=
  h ⟨scope, .value v, m⟩ (.single hmakes) v rfl

private theorem bind_congr {α β : Type} {x x' : Run α} {f f' : α → Run β} (hx : x m = x' m)
    (hf : ∀ a m₁, Run.Yields x m a m₁ → f a m₁ = f' a m₁) : (x >>= f) m = (x' >>= f') m := by
  change StateT.bind x f m = StateT.bind x' f' m
  rw [StateT.bind, StateT.bind, ← hx]
  cases hrun : x m with
  | error stop => rfl
  | ok result => exact hf _ _ hrun

theorem Agree.mapM (hfollows : e.Follows library) {vs : List Value}
    (h : Agree library e e' ⟨scope, .cells vs, m⟩) :
    vs.mapM (e scope) m = vs.mapM (e' scope) m := by
  induction vs generalizing m with
  | nil => rfl
  | cons v vs ih =>
    -- the evaluators agree on the first cell, so the others are evaluated in the same machine
    rw [List.mapM_cons, List.mapM_cons]
    refine bind_congr (h.eq .firstCell) fun a m₁ hv ↦ bind_congr (ih ?_) fun _ _ _ ↦ rfl
    exact h.of_makes (.otherCells (hfollows _ _ _ _ _ hv))

theorem Agree.forM (hfollows : e.Follows library) {vs : List Value}
    (h : Agree library e e' ⟨scope, .forms vs, m⟩) :
    vs.forM (runForm e scope) m = vs.forM (runForm e' scope) m := by
  induction vs generalizing m with
  | nil => rfl
  | cons v vs ih =>
    refine bind_congr (bind_congr (h.eq .firstForm) fun _ _ _ ↦ rfl) fun _ m₁ hv ↦ ih ?_
    obtain ⟨a, m₂, hresult, rfl⟩ := yields_runForm_iff.mp hv
    exact h.of_makes (.otherForms (hfollows _ _ _ _ _ hresult))

theorem Agree.perform (hfollows : e.Follows library) {cells values : List Value} {m₁ : Machine}
    (h : Agree library e e' ⟨scope, .value (.sexpr cells), m⟩)
    (hcells : Derives library scope (.cells cells) m values m₁) :
    (actionOf values).perform library e scope m₁
      = (actionOf values).perform library e' scope m₁ := by
  generalize haction : actionOf values = action
  match action with
  | .enter bound body =>
    rw [Action.perform, Action.perform, Run.withScope_apply, Run.withScope_apply]
    exact bind_congr (h.eq (.enter hcells haction)) fun _ _ _ ↦ rfl
  | .request (.evaluate selected) => exact h.eq (.evaluate hcells haction)
  | .request (.load path) =>
    simp only [Action.perform, Request.perform, loadFile]
    cases hread : library.read? path with
    | none => rfl
    | some outcome =>
      dsimp only
      cases hforms : fileForms path outcome with
      | error failure => rfl
      | ok forms =>
        have hmakes := Makes.load hcells haction hread hforms
        exact bind_congr ((h.of_makes hmakes).forM hfollows) fun _ _ _ ↦ rfl
  | .request (.give _) | .request (.bind _ _) | .request (.print _) | .request .printScope => rfl

/-- What a step of evaluation does depends on the evaluator at the calls on the way only. -/
theorem Agree.evalStep (hfollows : e.Follows library) {v : Value}
    (h : Agree library e e' ⟨scope, .value v, m⟩) :
    evalStep library e scope v m = evalStep library e' scope v m := by
  cases v with
  | sexpr cells =>
    refine bind_congr ((h.of_makes .cells).mapM hfollows) fun values m₁ hcells ↦ ?_
    rw [applyForm_eq_perform, applyForm_eq_perform]
    exact h.perform hfollows (hfollows.cells hcells)
  | _ => rfl

end

/-! ## What calls keep -/

open Value

variable {Q : Value → Prop} {library : Library} {c c' : Call}

/-- The values in the task have a property, and so has everything bound in the store. -/
structure Has (Q : Value → Prop) (c : Call) : Prop where
  values : ∀ v ∈ c.task.values, Q v
  allBound : c.machine.store.AllBound (Binds Q)

theorem Has.of_makes (hQ : Hereditary Q) (hfiles : library.Admits Q) (hc : c.Has Q)
    (h : Makes library c c') : c'.Has Q := by
  obtain ⟨hvalues, hstore⟩ := hc
  cases h with
  | cells => exact ⟨hQ.sexpr_iff.mp (List.forall_mem_singleton.mp hvalues), hstore⟩
  | evaluate hcells haction =>
    obtain ⟨hselected, hstore⟩ := hcells.proper_and_allBound hQ hfiles haction hvalues hstore
    exact ⟨List.forall_mem_singleton.mpr (hQ.sexpr_iff.mpr hselected), hstore⟩
  | load hcells haction hread hforms =>
    exact ⟨hfiles _ _ _ hread hforms,
      (hcells.proper_and_allBound hQ hfiles haction hvalues hstore).2⟩
  | enter hcells haction =>
    obtain ⟨⟨hbound, hbody⟩, hstore⟩ :=
      hcells.proper_and_allBound hQ hfiles haction hvalues hstore
    exact ⟨List.forall_mem_singleton.mpr (hQ.sexpr_iff.mpr hbody), hstore.push hbound⟩
  | firstCell | firstForm =>
    exact ⟨List.forall_mem_singleton.mpr (hvalues _ List.mem_cons_self), hstore⟩
  | otherCells hv =>
    obtain ⟨hfirst, hothers⟩ := List.forall_mem_cons.mp hvalues
    exact ⟨hothers, (hv.isResult_and_allBound hQ hfiles (List.forall_mem_singleton.mpr hfirst)
      hstore).2⟩
  | otherForms hv =>
    obtain ⟨hfirst, hothers⟩ := List.forall_mem_cons.mp hvalues
    refine ⟨hothers, ?_⟩
    rw [Machine.report_store]
    exact (hv.isResult_and_allBound hQ hfiles (List.forall_mem_singleton.mpr hfirst) hstore).2

/-- A property that values share with their parts is kept by all calls on the way. -/
theorem Has.of_reaches (hQ : Hereditary Q) (hfiles : library.Admits Q) (hc : c.Has Q)
    (h : Reaches library c c') : c'.Has Q := by
  induction h with
  | refl => exact hc
  | tail _ hmakes ih => exact ih.of_makes hQ hfiles hmakes

end Call

end QuoteLisp
