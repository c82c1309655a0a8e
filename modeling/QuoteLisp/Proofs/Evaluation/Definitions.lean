import QuoteLisp.Proofs.Evaluation.Acceptance
import QuoteLisp.Proofs.Evaluation.Saturation
import QuoteLisp.Proofs.Scope.Changes

/-!
# Definitions bind all of their names or none

A definition is refused for one of four reasons (`DefinitionRefused`), and then it leaves the
machine as it was. Otherwise its arguments are a list of names and as many values
(`definitionRefused_or_names`), and all of the names are bound in one scope: the caller, or the root
of the caller. Binding them one after another does not come apart, because a binding moves no root
(`Store.bindAll_eq_bindAll_locally`).

A name may be listed several times. Its last value is the one that is left (`Store.Defines`).
-/

namespace QuoteLisp

open Run

/-- Why a definition is refused. The reasons are looked for in this order: there are no arguments,
the first is no list, something in the list is no symbol, the names and the values differ in
number. Of several things that are no symbols the leftmost counts. -/
inductive DefinitionRefused (function : String) : List Value → EvalError → Prop
  | noArguments : DefinitionRefused function [] (.arityMismatch function 0 1)
  | noList {first : Value} {values : List Value} : (∀ cells, first ≠ .qexpr cells) →
      DefinitionRefused function (first :: values)
        (.wrongType function 0 first.kindName "Q-expression")
  | noSymbol {names : List String} {cell : Value} {cells values : List Value} :
      (∀ name, cell ≠ .symbol name) →
      DefinitionRefused function (.qexpr (names.map .symbol ++ cell :: cells) :: values)
        (.nonSymbol function cell.kindName)
  | counts {names : List String} {values : List Value} : names.length ≠ values.length →
      DefinitionRefused function (.qexpr (names.map .symbol) :: values)
        (.arityMismatch function values.length names.length)

variable {function : String} {args : List Value} {cause : EvalError}

/-! ## Refused or accepted -/

/-- The leftmost cell that is no symbol is the one that names are refused for. -/
theorem Arguments.names_eq_error {cell : Value} (h : ∀ name, cell ≠ .symbol name)
    (refuse : String → EvalError) (before : List String) (cells : List Value) :
    Arguments.names refuse (before.map .symbol ++ cell :: cells)
      = .error (refuse cell.kindName) := by
  induction before with
  | nil =>
    rw [List.map_nil, List.nil_append, Arguments.names, List.mapM_cons]
    cases cell with
    | symbol name => exact absurd rfl (h name)
    | _ => rfl
  | cons name before ih =>
    rw [Arguments.names] at ih ⊢
    rw [List.map_cons, List.cons_append, List.mapM_cons, ih]
    rfl

theorem DefinitionRefused.definitions_eq (h : DefinitionRefused function args cause) :
    definitions function args = .error cause := by
  cases h with
  | noArguments => rfl
  | @noList first values hfirst =>
    cases first with
    | qexpr cells => exact absurd rfl (hfirst cells)
    | _ => rfl
  | noSymbol hcell =>
    change (Arguments.names _ _ >>= _) = _
    rw [Arguments.names_eq_error hcell]
    rfl
  | counts hlength =>
    change (Arguments.names _ _ >>= _) = _
    rw [Arguments.names_map_symbol]
    exact if_neg hlength

/-- A definition that is not refused has a list of names and as many values. -/
theorem definitionRefused_or_names (function : String) (args : List Value) :
    (∃ cause, DefinitionRefused function args cause) ∨
      ∃ (names : List String) (values : List Value),
        args = .qexpr (names.map .symbol) :: values ∧ names.length = values.length := by
  cases args with
  | nil => exact Or.inl ⟨_, .noArguments⟩
  | cons first values =>
    by_cases hfirst : ∃ cells, first = .qexpr cells
    · obtain ⟨cells, rfl⟩ := hfirst
      rcases exists_map_or_append .symbol cells with ⟨names, rfl⟩ | ⟨names, cell, rest, rfl, hcell⟩
      · by_cases hlength : names.length = values.length
        · exact Or.inr ⟨names, values, rfl, hlength⟩
        · exact Or.inl ⟨_, .counts hlength⟩
      · exact Or.inl ⟨_, .noSymbol hcell⟩
    · exact Or.inl ⟨_, .noList fun cells h ↦ hfirst ⟨cells, h⟩⟩

/-! ## What is bound -/

namespace Store

/-- From one store to the next names were bound to values in the scope `home`, the last value of a
name counting, and nothing else has changed. -/
structure Defines (home : ScopeId) (names : List String) (values : List Value)
    (before after : Store) : Prop where
  nextId_eq : after.nextId = before.nextId
  scope?_eq (id : ScopeId) : id ≠ home → after.scope? id = before.scope? id
  parent_eq : (after.scope? home).map Scope.parent = (before.scope? home).map Scope.parent
  find?_eq (name : String) : (after.bindings home).find? name
    = ((names.zip values).reverse.lookup name).or ((before.bindings home).find? name)

variable {store : Store} {home : ScopeId}

theorem bindings_bindAll_locally (hhome : (store.scope? home).isSome) (names : List String)
    (values : List Value) :
    (store.bindAll .locally home (names.zip values)).bindings home
      = (store.bindings home).insertEach names values := by
  rw [Bindings.insertEach]
  generalize names.zip values = entries
  induction entries generalizing store with
  | nil => rfl
  | cons entry entries ih =>
    have hbindings : (store.setLocal home entry.1 entry.2).bindings home
        = (store.bindings home).insert entry.1 entry.2 := by
      rw [bindings_setLocal, if_pos ⟨rfl, hhome⟩]
    have hsome : ((store.setLocal home entry.1 entry.2).scope? home).isSome := by
      rwa [(store.changesOnly_setLocal home entry.1 entry.2).isSome_scope?]
    have hrest := ih hsome
    rw [hbindings] at hrest
    exact hrest

/-- Names that are bound one after another are bound in the target, and that is all. -/
theorem defines_bindAll {target : Target} {caller : ScopeId}
    (hhome : (store.scope? (store.target caller target)).isSome) (names : List String)
    (values : List Value) :
    store.Defines (store.target caller target) names values
      (store.bindAll target caller (names.zip values)) := by
  have hchanges := store.changesOnly_bindAll target caller (names.zip values)
  refine ⟨hchanges.nextId_eq, fun id hid ↦ hchanges.scope?_eq hid, hchanges.parent_eq _,
    fun name ↦ ?_⟩
  rw [bindAll_eq_bindAll_locally, bindings_bindAll_locally hhome, Bindings.find?_insertEach]

end Store

/-! ## Calls -/

theorem DefinitionRefused.yields_call {target : Target}
    (h : DefinitionRefused (Primitive.define target).name args cause) (library : Library)
    (evaluate : Evaluator) (caller : ScopeId) (m : Machine) :
    Yields ((Primitive.define target).call library evaluate caller args) m cause.toValue m := by
  refine Primitive.yields_call_of_request_eq_error ?_ library evaluate caller m
  rw [Primitive.request, h.definitions_eq]
  rfl

theorem yields_call_define {names : List String} {values : List Value}
    (hlength : names.length = values.length) (target : Target) (library : Library)
    (evaluate : Evaluator) (caller : ScopeId) (m : Machine) :
    Yields ((Primitive.define target).call library evaluate caller
        (.qexpr (names.map .symbol) :: values)) m .unit
      ⟨m.store.bindAll target caller (names.zip values), m.output⟩ := by
  rw [Primitive.call, Primitive.request, Primitive.definitions_of_names hlength]
  rfl

/-- A definition returns an error when it is refused, and only then. -/
theorem isError_call_define_iff (target : Target) (args : List Value) (library : Library)
    (evaluate : Evaluator) (caller : ScopeId) (m : Machine) :
    (∃ v m', Yields ((Primitive.define target).call library evaluate caller args) m v m' ∧
        v.isError) ↔
      ∃ cause, DefinitionRefused (Primitive.define target).name args cause := by
  constructor
  · rintro ⟨v, m', hcall, hv⟩
    refine (definitionRefused_or_names _ args).resolve_right ?_
    rintro ⟨names, values, rfl, hlength⟩
    obtain ⟨rfl, -⟩ := hcall.unique (yields_call_define hlength target library evaluate caller m)
    cases hv
  · rintro ⟨cause, hrefused⟩
    exact ⟨cause.toValue, m, hrefused.yields_call library evaluate caller m, rfl⟩

namespace Store

/-- **Definitions are atomic.** Let the chain of the caller end. A definition that is refused
returns an error and changes nothing at all, and it returns an error for no other reason. One that
is not refused returns the empty form, and the only change is that its names are bound in the root
of the caller or in the caller itself. More generally an operation that does not accept its
arguments returns an error and changes nothing, for every caller and every machine; one that does
accept them can only refuse to divide by zero. -/
theorem HasLiveChain.definition_atomic {m : Machine} {caller : ScopeId} {ids : List ScopeId}
    (h : m.store.HasLiveChain caller ids) (library : Library) (evaluate : Evaluator) :
    (∀ (target : Target) (args : List Value),
      (∀ cause, DefinitionRefused (Primitive.define target).name args cause →
        Yields ((Primitive.define target).call library evaluate caller args) m cause.toValue m) ∧
      ((∃ v m', Yields ((Primitive.define target).call library evaluate caller args) m v m' ∧
          v.isError) ↔
        ∃ cause, DefinitionRefused (Primitive.define target).name args cause) ∧
      ((¬∃ cause, DefinitionRefused (Primitive.define target).name args cause) →
        ∃ (names : List String) (values : List Value) (home : ScopeId) (store : Store),
          args = .qexpr (names.map .symbol) :: values ∧ names.length = values.length ∧
          (target = .globally → ids.getLast? = some home) ∧ (target = .locally → home = caller) ∧
          Yields ((Primitive.define target).call library evaluate caller args) m .unit
            ⟨store, m.output⟩ ∧
          m.store.Defines home names values store)) ∧
    (∀ (operation : Primitive) (args : List Value),
      (¬operation.Accepts args → ∃ cause, operation.request args = .error cause) ∧
      (operation.Accepts args → (∃ request, operation.request args = .ok request) ∨
        operation.request args = .error .divisionByZero) ∧
      ∀ cause, operation.request args = .error cause → ∀ caller m,
        Yields (operation.call library evaluate caller args) m cause.toValue m) := by
  refine ⟨fun target args ↦ ⟨fun cause hrefused ↦ hrefused.yields_call library evaluate caller m,
    isError_call_define_iff target args library evaluate caller m, fun hnot ↦ ?_⟩,
    fun operation args ↦ ⟨Primitive.exists_request_eq_error, Primitive.Accepts.request,
      fun cause hrequest caller m ↦
        Primitive.yields_call_of_request_eq_error hrequest library evaluate caller m⟩⟩
  obtain ⟨names, values, rfl, hlength⟩ := (definitionRefused_or_names _ args).resolve_left hnot
  refine ⟨names, values, m.store.target caller target, _, rfl, hlength, ?_, ?_,
    yields_call_define hlength target library evaluate caller m,
    defines_bindAll (h.isSome_scope?_target target) names values⟩
  · rintro rfl
    exact h.getLast?_eq
  · rintro rfl
    rfl

/-- From a scope with one around it: a name that is listed twice gets its last value in the root, a
list with a number among the names is refused as a whole, and so is a condition that is no
number. -/
theorem HasLiveChain.definition_atomic_of_two_scopes :
    ∃ m : Machine, m.store.HasLiveChain 1 [1, 0] ∧ ∀ library evaluate,
      (∃ store : Store,
        Yields ((Primitive.define .globally).call library evaluate 1
          [.qexpr [.symbol "x", .symbol "y", .symbol "x"], .number 1, .number 2, .number 3]) m .unit
          ⟨store, m.output⟩ ∧
        (store.bindings 0).find? "x" = some (.number 3) ∧
        (store.bindings 0).find? "y" = some (.number 2) ∧
        (store.bindings 0).find? "z" = some (.number 7) ∧ store.scope? 1 = m.store.scope? 1) ∧
      Yields ((Primitive.define .locally).call library evaluate 1
        [.qexpr [.symbol "x", .number 4, .string "s"], .number 1, .number 2]) m
        (EvalError.nonSymbol "=" "Number").toValue m ∧
      ∃ cause : EvalError,
        Yields (Primitive.choose.call library evaluate 1 [.string "s", .qexpr [], .qexpr []]) m
          cause.toValue m := by
  let m : Machine := ⟨⟨#[some ⟨[("z", .number 7)], none⟩, some ⟨[], some 0⟩]⟩, .empty⟩
  have hchain : m.store.HasLiveChain 1 [1, 0] := .link rfl (.root ⟨_, rfl, fun _ ↦ nofun⟩)
  refine ⟨m, hchain, fun library evaluate ↦ ?_⟩
  obtain ⟨hdefinition, hothers⟩ := hchain.definition_atomic library evaluate
  refine ⟨?_, ?_, ?_⟩
  · have hlength : ["x", "y", "x"].length = [Value.number 1, .number 2, .number 3].length := rfl
    obtain ⟨-, -, hdefines⟩ := hdefinition .globally
      (.qexpr (["x", "y", "x"].map .symbol) :: [.number 1, .number 2, .number 3])
    obtain ⟨names, values, home, store, hargs, -, hhome, -, hyields, hstore⟩ := hdefines (by
      rintro ⟨cause, hrefused⟩
      cases hrefused.definitions_eq.symm.trans (Primitive.definitions_of_names hlength _))
    obtain ⟨hnames, rfl⟩ := List.cons.inj hargs
    obtain rfl : ["x", "y", "x"] = names :=
      (List.map_inj_right fun _ _ ↦ Value.symbol.inj).mp (Value.qexpr.inj hnames)
    obtain rfl : 0 = home := Option.some.inj (hhome rfl)
    exact ⟨store, hyields, hstore.find?_eq "x", hstore.find?_eq "y", hstore.find?_eq "z",
      hstore.scope?_eq 1 Nat.one_ne_zero⟩
  · exact (hdefinition .locally _).1 _ (@DefinitionRefused.noSymbol _ ["x"] _ _ _ fun _ ↦ nofun)
  · have hnot : ¬Primitive.choose.Accepts [.string "s", .qexpr [], .qexpr []] := by
      rintro ⟨n, first, second, heq⟩
      cases heq
    obtain ⟨hrefused, -, hyields⟩ := hothers .choose [.string "s", .qexpr [], .qexpr []]
    obtain ⟨cause, hcause⟩ := hrefused hnot
    exact ⟨cause, hyields cause hcause 1 m⟩

end Store

end QuoteLisp
