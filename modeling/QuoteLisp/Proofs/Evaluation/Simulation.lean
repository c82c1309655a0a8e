import QuoteLisp.Proofs.Evaluation.Frame
import QuoteLisp.Proofs.Evaluation.Loads

/-!
# Evaluation on two stores

Evaluation looks at the store by looking names up, and it changes the store by binding names in a
scope or its root and by putting up frames. So two stores that agree on these things, each seen from
a scope of its own, make no difference to it. A `Simulation` is a relation between such pairs of
stores that is kept by every change, for all names and values with a property `Q`.

A task that is done on one of two related stores is done on the other as well, with the same results
and the same output, and leaves related stores (`Simulation.exists_derives`). The one exception is
`print_env`, which shows the bindings of a single scope, and about that a simulation says nothing.
-/

namespace QuoteLisp

open Value Checked

/-! ## Operations that are applied -/

namespace Activation

/-- A primitive operation is applied on the way. -/
def Applies (library : Library) (start : Activation) (operation : Primitive) : Prop :=
  ∃ act args, start.Reaches library act ∧ act.activity = .apply (.primitive operation) args

variable {library : Library} {start : Activation} {scope : ScopeId} {m m₁ : Machine}
  {cells values : List Value}

/-- What a form has a primitive operation do, the operation was applied for. -/
theorem Holds.exists_applies {request : Request}
    (h : Holds library start ⟨scope, .value (.sexpr cells), m⟩)
    (hcells : Derives library scope (.cells cells) m values m₁)
    (haction : actionOf values = .request request) (hgive : ∀ v, request ≠ .give v) :
    ∃ (operation : Primitive) (args : List Value), operation.request args = .ok request ∧
      start.Applies library operation := by
  obtain ⟨frames, h⟩ := h
  have hne (v : Value) : Action.request request ≠ .give v := fun heq ↦
    hgive v (Action.request.inj heq)
  obtain ⟨function, args, hfunction, h⟩ := h.apply hcells haction hne
  obtain ⟨operation, rfl, hrequest⟩ := exists_request hfunction hgive
  exact ⟨operation, args, hrequest, _, args, h, rfl⟩

/-- A form without forms in it applies one operation, to the values of its cells, if that is an
operation that neither evaluates anything nor loads a file. -/
theorem not_applies_of_flat {operation other : Primitive} {args : List Value}
    {frames : List ScopeId}
    (hcells : Derives library scope (.cells cells) m (.primitive operation :: args) m₁)
    (hflat : ∀ v ∈ cells, ∀ inner, v ≠ .sexpr inner)
    (hrequest : ∀ request, operation.request args = .ok request →
      (∀ selected, request ≠ .evaluate selected) ∧ ∀ path, request ≠ .load path)
    (hne : other ≠ operation) :
    ¬Applies library ⟨scope, .eval (.sexpr cells), m, frames⟩ other := by
  rintro ⟨act, values, hreaches, hact⟩
  rcases Relation.ReflTransGen.cases_head hreaches with rfl | ⟨next, hcalls, hreaches⟩
  · cases hact
  rcases hcalls.of_sexpr with ⟨before, v, after, _, _, rfl, -, rfl⟩ | ⟨_, arg, others, _, h, rfl⟩
  · -- a cell that is no form goes on to nothing
    rcases Relation.ReflTransGen.cases_head hreaches with rfl | ⟨next, hcalls, -⟩
    · cases hact
    · have hv := hflat v (List.mem_append_right _ List.mem_cons_self)
      cases hcalls with
      | cell | apply => exact hv _ rfl
  · obtain ⟨hvalues, rfl⟩ := hcells.unique h
    obtain ⟨hfunction, rfl⟩ := List.cons.inj hvalues
    obtain rfl : Function.primitive operation = _ := Function.eq_of_toValue_eq hfunction
    rcases Relation.ReflTransGen.cases_head hreaches with rfl | ⟨next, hcalls, hreaches⟩
    · cases hact
      exact hne rfl
    cases hcalls
    rcases Relation.ReflTransGen.cases_head hreaches with rfl | ⟨next, hcalls, -⟩
    · cases hact
    · cases hcalls with
      | evaluate h => exact (hrequest _ h).1 _ rfl
      | load h => exact (hrequest _ h).2 _ rfl

end Activation

/-- Only `print_env` asks for the bindings of a scope to be shown, and only `load` for a file. -/
theorem Primitive.gives_own_request (operation : Primitive) (args : List Value) :
    (operation.request args).Gives fun request ↦
      (request = .printScope → operation = .printScope) ∧
        ∀ path, request = .load path → operation = .load := by
  cases operation with
  | printScope => exact gives_ok ⟨fun _ ↦ rfl, fun _ ↦ nofun⟩
  | load => exact (Gives.of_forall fun _ ↦ trivial).bind fun _ _ ↦ gives_ok ⟨nofun, fun _ _ ↦ rfl⟩
  | list | print | exit => exact gives_ok ⟨nofun, fun _ ↦ nofun⟩
  | _ =>
    exact (Gives.of_forall fun _ ↦ trivial).bind fun _ _ ↦ gives_ok ⟨nofun, fun _ ↦ nofun⟩

/-- A file is loaded on the way of an evaluation only if `load` is applied. -/
theorem Activation.Loads.applies {library : Library} {scope : ScopeId} {e : Value} {m : Machine}
    {frames : List ScopeId} {path : String}
    (h : Loads library ⟨scope, .eval e, m, frames⟩ path) :
    Applies library ⟨scope, .eval e, m, frames⟩ .load := by
  obtain ⟨_, _, _, hreaches⟩ := h
  rcases Relation.ReflTransGen.cases_tail hreaches with heq | ⟨act, hreaches, hload⟩
  · cases heq
  cases hload with
  | @load _ operation args _ _ _ hrequest =>
    obtain rfl := (operation.gives_own_request args _ hrequest).2 path rfl
    rcases Relation.ReflTransGen.cases_tail hreaches with heq | ⟨act, hreaches, hcall⟩
    · cases heq
    cases hcall with
    | primitive => exact ⟨_, args, hreaches, rfl⟩

/-! ## Simulations -/

/-- A relation between stores, each seen from a scope, that evaluation cannot tell apart by names
with the property `Q`, and that is kept by what evaluation does with such names and values. -/
structure Simulation (Q : Value → Prop) (ι : Type) where
  /-- The scope that the first store is seen from. -/
  scope : ι → ScopeId
  /-- The scope that the second store is seen from. -/
  scope' : ι → ScopeId
  /-- The two stores look the same. -/
  Rel : ι → Store → Store → Prop
  hereditary : HereditaryWith (fun _ ↦ True) Q
  error (message : String) : Q (.error message)
  lookup?_eq {i : ι} {store store' : Store} {name : String} :
    Rel i store store' → Q (.symbol name) →
      store'.lookup? (scope' i) name = store.lookup? (scope i) name
  of_lookup? {i : ι} {store store' : Store} {name : String} {v : Value} :
    Rel i store store' → Q (.symbol name) → store.lookup? (scope i) name = some v → Q v
  setLocal {i : ι} {store store' : Store} {name : String} {v : Value} (target : Target) :
    Rel i store store' → Q (.symbol name) → Q v →
      Rel i (store.setLocal (store.target (scope i) target) name v)
        (store'.setLocal (store'.target (scope' i) target) name v)
  exists_push {i : ι} {store store' : Store} {bound : Bindings} :
    Rel i store store' → (∀ entry ∈ bound, Q (.symbol entry.1) ∧ Q entry.2) →
      ∃ j, scope j = store.nextId ∧ scope' j = store'.nextId ∧
        Rel j (store.push ⟨bound, some (scope i)⟩) (store'.push ⟨bound, some (scope' i)⟩) ∧
        ∀ after after', (store.push ⟨bound, some (scope i)⟩).ChangesOnly (fun _ ↦ True) after →
          (store'.push ⟨bound, some (scope' i)⟩).ChangesOnly (fun _ ↦ True) after' →
          Rel j after after' → Rel i after.pop after'.pop

namespace Simulation

variable {Q : Value → Prop} {ι : Type} (sim : Simulation Q ι) {i : ι} {store store' : Store}
  {library : Library} {start : Activation} {scope : ScopeId} {m m₁ m' : Machine} {a : Value}

include sim in
theorem unit : Q .unit :=
  sim.hereditary.sexpr_iff.mpr (List.forall_mem_nil _)

include sim in
theorem of_isError {v : Value} (h : v.isError = true) : Q v := by
  cases v with
  | error message => exact sim.error message
  | _ => cases h

theorem bindAll (target : Target) {entries : List (String × Value)} (h : sim.Rel i store store')
    (hentries : ∀ entry ∈ entries, Q (.symbol entry.1) ∧ Q entry.2) :
    sim.Rel i (store.bindAll target (sim.scope i) entries)
      (store'.bindAll target (sim.scope' i) entries) := by
  induction entries generalizing store store' with
  | nil => exact h
  | cons entry entries ih =>
    obtain ⟨hentry, hentries⟩ := List.forall_mem_cons.mp hentries
    have hnext := ih (sim.setLocal target h hentry.1 hentry.2) hentries
    cases target with
    | globally | locally => exact hnext

/-- The task is done on every related store, with the same results and output, and leaves related
stores. -/
def Follows (library : Library) (scope : ScopeId) (task : Task) (m : Machine) (as : List Value)
    (m' : Machine) : Prop :=
  ∀ i store', sim.scope i = scope → (∀ v ∈ task.values, Q v) → sim.Rel i m.store store' →
    ∃ after', Derives library (sim.scope' i) task { m with store := store' } as
        { m' with store := after' } ∧ sim.Rel i m'.store after' ∧ ∀ a ∈ as, Q a

/-- What a form asks for comes to the same on a related store, if that holds of the task that it
goes on to. -/
theorem exists_comesTo {cells values : List Value}
    (hprint : ¬start.Applies library .printScope)
    (hfiles : (library.restrict (start.Loads library)).Admits Q)
    (hholds : Activation.Holds library start ⟨sim.scope i, .value (.sexpr cells), m⟩)
    (hcells : Derives library (sim.scope i) (.cells cells) m values m₁)
    (h : (actionOf values).ComesTo library (fun scope task m as m' ↦
      Derives library scope task m as m' ∧
        (Activation.Holds library start ⟨scope, task, m⟩ → sim.Follows library scope task m as m'))
      (sim.scope i) m₁ a m')
    (hvalues : ∀ v ∈ values, Q v) (hrel : sim.Rel i m₁.store store') :
    ∃ after', (actionOf values).ComesTo library (Derives library) (sim.scope' i)
        { m₁ with store := store' } a { m' with store := after' } ∧
      sim.Rel i m'.store after' ∧ Q a := by
  have hhands : (actionOf values).Hands (fun _ ↦ True) Q :=
    hands_actionOf sim.hereditary fun v hv ↦ Or.inr ⟨trivial, hvalues v hv⟩
  have hboth {entries : List (String × Value)}
      (h : ∀ entry ∈ entries, Q (.symbol entry.1) ∧ True ∧ Q entry.2) :
      ∀ entry ∈ entries, Q (.symbol entry.1) ∧ Q entry.2 :=
    fun entry hmem ↦ (h entry hmem).imp_right And.right
  generalize haction : actionOf values = action at h hhands
  cases h with
  | give => exact ⟨store', .give, hrel, hhands.elim sim.of_isError And.right⟩
  | evaluate hselected =>
    have hform : ∀ v ∈ (Task.value (.sexpr _)).values, Q v :=
      List.forall_mem_singleton.mpr (sim.hereditary.sexpr_iff.mpr hhands)
    obtain ⟨after', hselected, hafter, ha⟩ :=
      hselected.2 (hholds.of_makes (.evaluate hcells haction)) i store' rfl hform hrel
    exact ⟨after', .evaluate hselected, hafter, List.forall_mem_singleton.mp ha⟩
  | @bind target entries =>
    exact ⟨store'.bindAll target (sim.scope' i) entries, .bind,
      sim.bindAll target hrel (hboth hhands), sim.unit⟩
  | loadFails hread hforms => exact ⟨store', .loadFails hread hforms, hrel, sim.error _⟩
  | load hread hforms hrun =>
    have hloaded := Library.restrict_eq_some_iff.mpr ⟨hholds.loads hcells haction, hread⟩
    obtain ⟨after', hrun, hafter, -⟩ := hrun.2 (hholds.of_makes (.load hcells haction hread hforms))
      i store' rfl (hfiles _ _ _ hloaded hforms) hrel
    exact ⟨after', .load hread hforms hrun, hafter, sim.unit⟩
  | print => exact ⟨store', .print, hrel, sim.unit⟩
  | printScope =>
    obtain ⟨operation, args, hrequest, happlies⟩ :=
      hholds.exists_applies hcells haction fun _ ↦ nofun
    obtain rfl := (operation.gives_own_request args _ hrequest).1 rfl
    exact absurd happlies hprint
  | @enter bound body a _ m' hbody =>
    -- both closures' scopes come and go, and in between the stores are related with them in front
    obtain ⟨j, hj, hj', hpush, hpop⟩ := sim.exists_push hrel (hboth hhands.1)
    have hform : ∀ v ∈ (Task.value (.sexpr body)).values, Q v :=
      List.forall_mem_singleton.mpr (sim.hereditary.sexpr_iff.mpr hhands.2)
    obtain ⟨after', hrun, hafter, ha⟩ :=
      hbody.2 (hholds.of_makes (.enter hcells haction)) j _ hj hform hpush
    rw [hj'] at hrun
    refine ⟨after'.pop, ?_, ?_, List.forall_mem_singleton.mp ha⟩
    · exact @Action.ComesTo.enter _ _ _ _ _ _ { m₁ with store := store' } _ hrun
    · exact hpop _ _ hbody.1.changesOnly hrun.changesOnly hafter

/-- **Two stores that look the same make no difference.** What is done on one of them is done on the
other, with the same results and the same output, and the stores that are left look the same. -/
theorem exists_derives {task : Task} {as : List Value}
    (hprint : ¬start.Applies library .printScope)
    (hfiles : (library.restrict (start.Loads library)).Admits Q)
    (h : Derives library scope task m as m')
    (hholds : Activation.Holds library start ⟨scope, task, m⟩) :
    sim.Follows library scope task m as m' := by
  refine h.way_induction ?bound ?unbound ?inert ?sexpr ?noCells ?cell ?noForms ?form hholds
  case bound =>
    rintro _ name v m hlookup i store' rfl hvalues hrel
    have hname := List.forall_mem_singleton.mp hvalues
    exact ⟨store', .bound ((sim.lookup?_eq hrel hname).trans hlookup), hrel,
      List.forall_mem_singleton.mpr (sim.of_lookup? hrel hname hlookup)⟩
  case unbound =>
    rintro _ name m hlookup i store' rfl hvalues hrel
    have hsame := sim.lookup?_eq hrel (List.forall_mem_singleton.mp hvalues)
    exact ⟨store', .unbound (hsame.trans hlookup), hrel,
      List.forall_mem_singleton.mpr (sim.error _)⟩
  case inert =>
    rintro _ v m hinert i store' rfl hv hrel
    exact ⟨store', .inert hinert, hrel, hv⟩
  case sexpr =>
    rintro _ cells values a m m₁ m' hholds hcells ihcells haction i store' rfl hform hrel
    have hparts := sim.hereditary.sexpr_iff.mp (List.forall_mem_singleton.mp hform)
    obtain ⟨between', hcells', hbetween, hvalues⟩ := ihcells i store' rfl hparts hrel
    obtain ⟨after', haction', hafter, ha⟩ :=
      sim.exists_comesTo hprint hfiles hholds hcells haction hvalues hbetween
    exact ⟨after', derives_sexpr_iff.mpr ⟨values, _, hcells', haction'⟩, hafter,
      List.forall_mem_singleton.mpr ha⟩
  case noCells => exact fun i store' _ _ hrel ↦ ⟨store', .noCells, hrel, nofun⟩
  case cell =>
    rintro _ v a vs values m m₁ m₂ hv hvs i store' rfl hcells hrel
    obtain ⟨hfirst, hothers⟩ := List.forall_mem_cons.mp hcells
    obtain ⟨between', hv', hbetween, ha⟩ :=
      hv i store' rfl (List.forall_mem_singleton.mpr hfirst) hrel
    obtain ⟨after', hvs', hafter, has⟩ := hvs i between' rfl hothers hbetween
    exact ⟨after', .cell hv' hvs', hafter,
      List.forall_mem_cons.mpr ⟨List.forall_mem_singleton.mp ha, has⟩⟩
  case noForms => exact fun i store' _ _ hrel ↦ ⟨store', .noForms, hrel, nofun⟩
  case form =>
    rintro _ v a vs m m₁ m₂ hv hvs i store' rfl hforms hrel
    obtain ⟨hfirst, hothers⟩ := List.forall_mem_cons.mp hforms
    obtain ⟨between', hv', hbetween, -⟩ :=
      hv i store' rfl (List.forall_mem_singleton.mpr hfirst) hrel
    rw [← m₁.report_store a] at hbetween
    obtain ⟨after', hvs', hafter, has⟩ := hvs i between' rfl hothers hbetween
    refine ⟨after', .form hv' ?_, hafter, has⟩
    rwa [m₁.report_with_store]

/-- What a value evaluates to on one store, it evaluates to on the other. -/
theorem exists_evaluates {e : Value}
    (hprint : ¬Activation.Applies library ⟨sim.scope i, .eval e, m, []⟩ .printScope)
    (hfiles : (library.restrict
      (Activation.Loads library ⟨sim.scope i, .eval e, m, []⟩)).Admits Q)
    (h : Evaluates library (sim.scope i) e m a m') (he : Q e) (hrel : sim.Rel i m.store store') :
    ∃ after', Evaluates library (sim.scope' i) e { m with store := store' } a
        { m' with store := after' } ∧ sim.Rel i m'.store after' ∧ Q a := by
  obtain ⟨after', h', hafter, ha⟩ := sim.exists_derives hprint hfiles (evaluates_iff_derives.mp h)
    ⟨[], .refl⟩ i store' rfl (List.forall_mem_singleton.mpr he) hrel
  exact ⟨after', evaluates_iff_derives.mpr h', hafter, List.forall_mem_singleton.mp ha⟩

/-- The other way round, from the second store to the first. -/
def symm : Simulation Q ι where
  scope := sim.scope'
  scope' := sim.scope
  Rel i store store' := sim.Rel i store' store
  hereditary := sim.hereditary
  error := sim.error
  lookup?_eq hrel hname := (sim.lookup?_eq hrel hname).symm
  of_lookup? hrel hname hlookup :=
    sim.of_lookup? hrel hname ((sim.lookup?_eq hrel hname).symm.trans hlookup)
  setLocal target hrel hname hv := sim.setLocal target hrel hname hv
  exists_push hrel hbound := by
    obtain ⟨j, hj, hj', hpush, hpop⟩ := sim.exists_push hrel hbound
    exact ⟨j, hj', hj, hpush, fun after after' h h' ↦ hpop after' after h' h⟩

end Simulation

end QuoteLisp
