import QuoteLisp.Proofs.Evaluation.Checked
import QuoteLisp.Proofs.Evaluation.Rules

/-!
# Evaluation keeps what values share with their parts

Let every value in a task have a property that values share with their parts, and everything bound
in the store, and every form of the files that may be loaded. Then every result has the property too
or is an error, and so has everything bound afterwards (`Derives.isResult_and_allBound`).

The heart of it is that no operation hands on anything but parts of its arguments, numbers and
errors (`hands_actionOf`). What an operation leaves to be evaluated need not be settled, and what it
gives or binds is, if its arguments are.
-/

namespace QuoteLisp

open Checked Value

variable {S Q : Value → Prop}

/-! ## What operations hand on -/

/-- What an operation gives is a result, and what it binds or leaves to be evaluated has the
property. -/
def Request.Proper (Q : Value → Prop) : Request → Prop
  | give v => v.IsResult Q
  | evaluate cells => ∀ c ∈ cells, Q c
  | bind _ entries => ∀ entry ∈ entries, Binds Q entry
  | load _ | print _ | printScope => True

/-- What a form asks for is proper in the same sense. -/
def Action.Proper (Q : Value → Prop) : Action → Prop
  | request wanted => wanted.Proper Q
  | enter bound body => (∀ entry ∈ bound, Binds Q entry) ∧ ∀ c ∈ body, Q c

/-- What an operation gives is an error or has both properties, and so have the values that it
binds. The names that it binds and what it leaves to be evaluated have the second one. -/
def Request.Hands (S Q : Value → Prop) : Request → Prop
  | give v => v.isError = true ∨ S v ∧ Q v
  | evaluate cells => ∀ c ∈ cells, Q c
  | bind _ entries => ∀ entry ∈ entries, Q (symbol entry.1) ∧ S entry.2 ∧ Q entry.2
  | load _ | print _ | printScope => True

/-- What a form asks for hands on the properties in the same sense. -/
def Action.Hands (S Q : Value → Prop) : Action → Prop
  | request wanted => wanted.Hands S Q
  | enter bound body =>
    (∀ entry ∈ bound, Q (symbol entry.1) ∧ S entry.2 ∧ Q entry.2) ∧ ∀ c ∈ body, Q c

/-- Being proper is handing on a property of settled values. -/
theorem Action.proper_iff {action : Action} : action.Proper Q ↔ action.Hands Settled Q := by
  cases action with
  | request wanted =>
    cases wanted with
    | bind target entries => exact forall_binds_iff
    | _ => exact Iff.rfl
  | enter bound body => exact and_congr_left' forall_binds_iff

section

variable {args : List Value}

theorem hands_give_qexpr (hQ : HereditaryWith S Q) {cells : List Value} (h : ∀ c ∈ cells, Q c) :
    (Request.give (qexpr cells)).Hands S Q :=
  Or.inr ⟨hQ.of_settled trivial, hQ.qexpr_iff.mpr h⟩

theorem hands_give_number (hQ : HereditaryWith S Q) (n : Int64) :
    (Request.give (number n)).Hands S Q :=
  Or.inr ⟨hQ.of_settled trivial, hQ.number n⟩

theorem gives_definitions (hQ : HereditaryWith S Q) (h : ∀ v ∈ args, S v ∧ Q v)
    (function : String) :
    (definitions function args).Gives fun entries ↦
      ∀ entry ∈ entries, Q (symbol entry.1) ∧ S entry.2 ∧ Q entry.2 := by
  refine (gives_definitions_eq function args).mono ?_
  rintro entries ⟨names, values, rfl, -, rfl⟩ ⟨name, v⟩ hentry
  obtain ⟨hname, hv⟩ := List.of_mem_zip hentry
  obtain ⟨hlist, hvalues⟩ := List.forall_mem_cons.mp h
  exact ⟨hQ.qexpr_iff.mp hlist.2 _ (List.mem_map_of_mem hname), hvalues v hv⟩

theorem gives_lambdaOf (hQ : HereditaryWith S Q) (h : ∀ v ∈ args, Q v) :
    (lambdaOf args).Gives fun v ↦ (Request.give v).Hands S Q := by
  refine (gives_lambdaOf_eq args).mono ?_
  rintro v ⟨formals, body, rfl, rfl⟩
  obtain ⟨hformals, hrest⟩ := List.forall_mem_cons.mp h
  refine Or.inr ⟨hQ.of_settled trivial, hQ.closure_iff.mpr ⟨fun name hname ↦ ?_, ?_, ?_⟩⟩
  · exact hQ.qexpr_iff.mp hformals _ (List.mem_map_of_mem hname)
  · exact hQ.qexpr_iff.mp (List.forall_mem_singleton.mp hrest)
  · exact List.forall_mem_nil _

theorem gives_branchOf (hQ : HereditaryWith S Q) (h : ∀ v ∈ args, Q v) :
    (branchOf args).Gives fun cells ↦ ∀ c ∈ cells, Q c := by
  refine (gives_branchOf_eq args).mono ?_
  rintro cells ⟨n, first, second, rfl, rfl⟩
  split
  · exact hQ.qexpr_iff.mp (h _ (by simp))
  · exact hQ.qexpr_iff.mp (h _ (by simp))

theorem gives_arithmetic (hQ : HereditaryWith S Q) (operation : Arithmetic) :
    (operation.apply args).Gives fun v ↦ (Request.give v).Hands S Q :=
  (Gives.of_forall fun _ ↦ trivial).bind fun _ _ ↦
    (Gives.of_forall fun _ ↦ trivial).bind fun n _ ↦ gives_ok (hands_give_number hQ n)

theorem gives_comparison (hQ : HereditaryWith S Q) (comparison : Comparison) :
    (comparison.apply args).Gives fun v ↦ (Request.give v).Hands S Q :=
  (Gives.of_forall fun _ ↦ trivial).bind fun _ _ ↦
    (Gives.of_forall fun _ ↦ trivial).bind fun _ _ ↦
      (Gives.of_forall fun _ ↦ trivial).bind fun _ _ ↦ gives_ok (hands_give_number hQ _)

/-- Whatever a primitive operation asks for hands on the properties of its arguments. -/
theorem gives_request (hQ : HereditaryWith S Q) (h : ∀ v ∈ args, S v ∧ Q v)
    (operation : Primitive) : (operation.request args).Gives (Request.Hands S Q) := by
  have hargs : ∀ v ∈ args, Q v := fun v hv ↦ (h v hv).2
  have hcells := Arguments.gives_onlyCells hQ hargs operation.name
  cases operation with
  | list => exact gives_ok (hands_give_qexpr hQ hargs)
  | head =>
    refine (Arguments.gives_nonEmptyCells hQ hargs _).bind fun (first, _) hfirst ↦ gives_ok ?_
    exact hands_give_qexpr hQ (List.forall_mem_singleton.mpr hfirst.1)
  | tail =>
    refine (Arguments.gives_nonEmptyCells hQ hargs _).bind fun (_, rest) hrest ↦ gives_ok ?_
    exact hands_give_qexpr hQ hrest.2
  | join =>
    refine (Arguments.gives_cellsOfAll hQ hargs _).bind fun lists hlists ↦ gives_ok ?_
    refine hands_give_qexpr hQ fun c hc ↦ ?_
    obtain ⟨cells, hmem, hc⟩ := List.mem_flatten.mp hc
    exact hlists cells hmem c hc
  | eval => exact hcells.bind fun cells hcells ↦ gives_ok hcells
  | arithmetic operation => exact (gives_arithmetic hQ operation).bind fun v hv ↦ gives_ok hv
  | lambda => exact (gives_lambdaOf hQ hargs).bind fun v hv ↦ gives_ok hv
  | define target => exact (gives_definitions hQ h _).bind fun entries hentries ↦ gives_ok hentries
  | choose => exact (gives_branchOf hQ hargs).bind fun cells hcells ↦ gives_ok hcells
  | equal | unequal =>
    exact (Gives.of_forall fun _ ↦ trivial).bind fun _ _ ↦ gives_ok (hands_give_number hQ _)
  | compare comparison => exact (gives_comparison hQ comparison).bind fun v hv ↦ gives_ok hv
  | load => exact (Gives.of_forall fun _ ↦ trivial).bind fun _ _ ↦ gives_ok trivial
  | print | printScope => exact gives_ok trivial
  | error => exact (Gives.of_forall fun _ ↦ trivial).bind fun _ _ ↦ gives_ok (Or.inl rfl)
  | exit => exact gives_ok (Or.inr ⟨hQ.of_settled trivial, hQ.exit⟩)

theorem Primitive.hands_action (hQ : HereditaryWith S Q) (h : ∀ v ∈ args, S v ∧ Q v)
    (operation : Primitive) : (operation.action args).Hands S Q := by
  rw [Primitive.action]
  cases hrequest : operation.request args with
  | error cause => exact Or.inl rfl
  | ok wanted => exact gives_request hQ h operation wanted hrequest

theorem Closure.hands_action (hQ : HereditaryWith S Q) (h : ∀ v ∈ args, S v ∧ Q v)
    {c : Closure} (hc : Q (.closure c.formals c.body c.bound)) : (c.action args).Hands S Q := by
  obtain ⟨hformals, hbody, hbound⟩ := hQ.closure_iff.mp hc
  have htake := @gives_bindFormals S Q hQ (.tooManyArguments args.length c.formals.length) _ _ _
    hformals h hbound
  rw [Closure.action]
  rcases hresult : c.take args with cause | ⟨_ | ⟨formal, formals⟩, bound⟩
  · exact Or.inl rfl
  · exact ⟨(htake _ hresult).2, hbody⟩
  · obtain ⟨hleft, hbound⟩ := htake _ hresult
    exact Or.inr ⟨hQ.of_settled trivial, hQ.closure_iff.mpr ⟨hleft, hbody, hbound⟩⟩

end

/-- A form hands on the properties of the values of its cells, those of them that are no errors. -/
theorem hands_actionOf (hQ : HereditaryWith S Q) {values : List Value}
    (h : ∀ v ∈ values, v.isError = true ∨ S v ∧ Q v) : (actionOf values).Hands S Q := by
  unfold actionOf
  cases hfind : values.find? Value.isError with
  | some failure => exact h failure (List.mem_of_find?_eq_some hfind)
  | none =>
    -- no cell failed, so every value in the form has the properties
    have hall : ∀ v ∈ values, S v ∧ Q v := fun v hv ↦
      (h v hv).resolve_left (List.find?_eq_none.mp hfind v hv)
    match values with
    | [] => exact Or.inr ⟨hQ.of_settled rfl, hQ.sexpr_iff.mpr (List.forall_mem_nil _)⟩
    | [v] => exact h v List.mem_cons_self
    | operator :: arg :: args =>
      obtain ⟨hoperator, hargs⟩ := List.forall_mem_cons.mp hall
      cases operator with
      | exit => exact Or.inr hoperator
      | primitive operation => exact operation.hands_action hQ hargs
      | closure formals body bound =>
        exact Closure.hands_action hQ hargs (c := ⟨formals, body, bound⟩) hoperator.2
      | _ => exact Or.inl rfl

/-- What a form asks for whose cells have results for values is proper. -/
theorem proper_actionOf (hQ : Hereditary Q) {values : List Value}
    (h : ∀ v ∈ values, v.IsResult Q) : (actionOf values).Proper Q :=
  Action.proper_iff.mpr (hands_actionOf hQ.hereditaryWith h)

/-! ## Along the rules -/

/-- The values that a task is about. -/
def Task.values : Task → List Value
  | value v => [v]
  | cells vs | forms vs => vs

/-- Every form of the files that a library knows has the property. -/
def Library.Admits (library : Library) (Q : Value → Prop) : Prop :=
  ∀ path outcome forms, library.read? path = some outcome → fileForms path outcome = .ok forms →
    ∀ v ∈ forms, Q v

theorem Value.IsInert.isResult {v : Value} (h : v.IsInert) (hv : Q v) : v.IsResult Q := by
  cases v with
  | symbol | sexpr => exact h.elim
  | error message => exact Or.inl rfl
  | _ => exact Or.inr ⟨trivial, hv⟩

/-- The property is kept by a task with these results: if the values of the task have it, and
everything bound before, then the results have it or are errors, and everything bound after has
it. -/
def Task.Keeps (Q : Value → Prop) (task : Task) (m : Machine) (as : List Value) (m' : Machine) :
    Prop :=
  (∀ v ∈ task.values, Q v) → m.store.AllBound (Binds Q) →
    (∀ a ∈ as, a.IsResult Q) ∧ m'.store.AllBound (Binds Q)

/-- What comes of a proper action has the property, if the task that it goes on to keeps it. -/
theorem Action.ComesTo.isResult_and_allBound {library : Library} {scope : ScopeId}
    {action : Action} {m m' : Machine} {a : Value} (hQ : Hereditary Q)
    (hfiles : library.Admits Q)
    (h : action.ComesTo library (fun _ task m as m' ↦ task.Keeps Q m as m') scope m a m')
    (haction : action.Proper Q) (hstore : m.store.AllBound (Binds Q)) :
    a.IsResult Q ∧ m'.store.AllBound (Binds Q) := by
  cases h with
  | give => exact ⟨haction, hstore⟩
  | evaluate hselected =>
    have hform := List.forall_mem_singleton.mpr (hQ.sexpr_iff.mpr haction)
    obtain ⟨ha, hstore⟩ := hselected hform hstore
    exact ⟨List.forall_mem_singleton.mp ha, hstore⟩
  | bind => exact ⟨hQ.isResult_unit, hstore.bindAll _ haction _⟩
  | loadFails => exact ⟨isResult_toValue _, hstore⟩
  | load hread hforms hrun =>
    exact ⟨hQ.isResult_unit, (hrun (hfiles _ _ _ hread hforms) hstore).2⟩
  | print => exact ⟨hQ.isResult_unit, hstore⟩
  | printScope =>
    rw [Machine.emitAll_store]
    exact ⟨hQ.isResult_unit, hstore⟩
  | enter hbody =>
    -- the closure's scope comes and goes, and in between it binds what the closure has bound
    obtain ⟨hbound, hcells⟩ := haction
    have hform := List.forall_mem_singleton.mpr (hQ.sexpr_iff.mpr hcells)
    obtain ⟨ha, hstore⟩ := hbody hform (hstore.push hbound)
    exact ⟨List.forall_mem_singleton.mp ha, hstore.pop⟩

/-- When the cells of a form keep the property, what the form asks for is proper. -/
private theorem proper_of_cells (hQ : Hereditary Q) {cells values : List Value} {m m₁ : Machine}
    (hcells : (Task.cells cells).Keeps Q m values m₁)
    (hform : ∀ v ∈ (Task.value (.sexpr cells)).values, Q v)
    (hstore : m.store.AllBound (Binds Q)) :
    (actionOf values).Proper Q ∧ m₁.store.AllBound (Binds Q) := by
  obtain ⟨hvalues, hstore⟩ := hcells (hQ.sexpr_iff.mp (List.forall_mem_singleton.mp hform)) hstore
  exact ⟨proper_actionOf hQ hvalues, hstore⟩

/-- The property is kept: results have it or are errors, and everything bound has it. -/
theorem Derives.isResult_and_allBound {library : Library} {scope : ScopeId} {task : Task}
    {m m' : Machine} {as : List Value} (hQ : Hereditary Q) (hfiles : library.Admits Q)
    (h : Derives library scope task m as m') (htask : ∀ v ∈ task.values, Q v)
    (hstore : m.store.AllBound (Binds Q)) :
    (∀ a ∈ as, a.IsResult Q) ∧ m'.store.AllBound (Binds Q) := by
  refine h.action_induction (motive := fun _ task m as m' ↦ task.Keeps Q m as m')
    ?bound ?unbound ?inert ?sexpr ?noCells ?cell ?noForms ?form htask hstore
  case bound =>
    intro scope name v m hlookup _ hstore
    have hentry := hstore.of_lookup? _ hlookup
    exact ⟨List.forall_mem_singleton.mpr (Or.inr ⟨hentry.settled, hentry.value⟩), hstore⟩
  case unbound =>
    exact fun _ _ hstore ↦ ⟨List.forall_mem_singleton.mpr (isResult_toValue _), hstore⟩
  case inert =>
    intro scope v m hinert hv hstore
    have ha := hinert.isResult (List.forall_mem_singleton.mp hv)
    exact ⟨List.forall_mem_singleton.mpr ha, hstore⟩
  case sexpr =>
    intro scope cells values a m m₁ m' hcells haction hform hstore
    obtain ⟨hproper, hstore⟩ := proper_of_cells hQ hcells hform hstore
    obtain ⟨ha, hstore⟩ := haction.isResult_and_allBound hQ hfiles hproper hstore
    exact ⟨List.forall_mem_singleton.mpr ha, hstore⟩
  case noCells | noForms => exact fun _ hstore ↦ ⟨List.forall_mem_nil _, hstore⟩
  case cell =>
    intro scope v a vs values m m₁ m₂ hv hvs hcells hstore
    obtain ⟨hfirst, hothers⟩ := List.forall_mem_cons.mp hcells
    obtain ⟨ha, hstore⟩ := hv (List.forall_mem_singleton.mpr hfirst) hstore
    obtain ⟨has, hstore⟩ := hvs hothers hstore
    exact ⟨List.forall_mem_cons.mpr ⟨List.forall_mem_singleton.mp ha, has⟩, hstore⟩
  case form =>
    intro scope v a vs m m₁ m₂ hv hvs hforms hstore
    obtain ⟨hfirst, hothers⟩ := List.forall_mem_cons.mp hforms
    obtain ⟨-, hstore⟩ := hv (List.forall_mem_singleton.mpr hfirst) hstore
    rw [← Machine.report_store] at hstore
    exact hvs hothers hstore

/-- Once the cells of a form have values, what it asks for is proper. -/
theorem Derives.proper_and_allBound {library : Library} {scope : ScopeId}
    {cells values : List Value} {action : Action} {m m₁ : Machine} (hQ : Hereditary Q)
    (hfiles : library.Admits Q) (h : Derives library scope (.cells cells) m values m₁)
    (haction : actionOf values = action) (hform : ∀ v ∈ (Task.value (.sexpr cells)).values, Q v)
    (hstore : m.store.AllBound (Binds Q)) : action.Proper Q ∧ m₁.store.AllBound (Binds Q) :=
  haction ▸ proper_of_cells hQ (h.isResult_and_allBound hQ hfiles) hform hstore

end QuoteLisp
