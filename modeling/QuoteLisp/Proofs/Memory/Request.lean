import QuoteLisp.Proofs.Memory.Link

/-!
# What linked values ask for

The checks and operations on values never look at what a closure has bound. So what an operation
asks for, given linked values, is a linked form of what it asks for, given the plain ones
(`Primitive.request_unlink`), and what a closure binds when it takes arguments is a linked form of
what it would bind (`bindFormals_unlink`).

They pass closures on and never double one. So in what is asked for there are no more links to a
place than in the arguments (`Primitive.links_request_le`). Only `\` makes a closure, and that has
no link yet.
-/

namespace QuoteLisp

open Checked Value

variable {contents : ScopeId → Bindings} {place : Option ScopeId}

namespace Checked

/-- Checks that are done on changed arguments, one by one, extract what is changed alike. -/
theorem mapM_map_eq {α β γ δ : Type} {f : α → Checked β} {f' : γ → Checked δ} {g : α → γ}
    {k : β → δ} (h : ∀ a, f' (g a) = k <$> f a) (as : List α) :
    (as.map g).mapM f' = List.map k <$> as.mapM f := by
  induction as with
  | nil => rfl
  | cons a as ih =>
    rw [List.map_cons, List.mapM_cons, List.mapM_cons, h, ih]
    simp only [map_bind, bind_map_left, map_pure, List.map_cons]

end Checked

namespace Arguments

variable (function : String) (index : Nat) (v : Value) (args : List Value)

theorem number_unlink :
    number function index (v.unlink contents) = number function index v := by
  cases v <;> rfl

theorem string_unlink :
    string function index (v.unlink contents) = string function index v := by
  cases v <;> rfl

theorem cells_unlink : cells function index (v.unlink contents)
    = List.map (Value.unlink contents) <$> cells function index v := by
  cases v with
  | qexpr cells => rw [unlink_qexpr]; rfl
  | _ => rfl

theorem zipIdx_map_unlink : (args.map (Value.unlink contents)).zipIdx
    = args.zipIdx.map (Prod.map (Value.unlink contents) id) :=
  List.zipIdx_map ..

theorem numbers_unlink :
    numbers function (args.map (Value.unlink contents)) = numbers function args := by
  rw [numbers, zipIdx_map_unlink, List.mapM_map, numbers]
  exact congrArg (List.mapM · args.zipIdx) (funext fun (v, index) ↦ number_unlink function index v)

theorem cellsOfAll_unlink : cellsOfAll function (args.map (Value.unlink contents))
    = List.map (List.map (Value.unlink contents)) <$> cellsOfAll function args := by
  rw [cellsOfAll, zipIdx_map_unlink]
  exact Checked.mapM_map_eq (fun (v, index) ↦ cells_unlink function index v) _

theorem names_unlink (refuse : String → EvalError) :
    names refuse (args.map (Value.unlink contents)) = names refuse args := by
  rw [names, List.mapM_map, names]
  exact congrArg (List.mapM · args) (funext fun v ↦ by cases v <;> rfl)

theorem one_map (g : Value → Value) : one function (args.map g) = g <$> one function args := by
  match args with
  | [v] => rfl
  | [] => rfl
  | _ :: _ :: _ => simp [one]

theorem two_map (g : Value → Value) :
    two function (args.map g) = Prod.map g g <$> two function args := by
  match args with
  | [v, w] => rfl
  | [] | [_] => rfl
  | _ :: _ :: _ :: _ => simp [two]

theorem three_map (g : Value → Value) :
    three function (args.map g) = Prod.map g (Prod.map g g) <$> three function args := by
  match args with
  | [u, v, w] => rfl
  | [] | [_] | [_, _] => rfl
  | _ :: _ :: _ :: _ :: _ => simp [three]

theorem onlyCells_unlink : onlyCells function (args.map (Value.unlink contents))
    = List.map (Value.unlink contents) <$> onlyCells function args := by
  simp only [onlyCells, one_map, bind_map_left, cells_unlink, map_bind]

theorem onlyString_unlink :
    onlyString function (args.map (Value.unlink contents)) = onlyString function args := by
  simp only [onlyString, one_map, bind_map_left, string_unlink]

theorem nonEmptyCells_unlink : nonEmptyCells function (args.map (Value.unlink contents))
    = Prod.map (Value.unlink contents) (List.map (Value.unlink contents)) <$>
        nonEmptyCells function args := by
  simp only [nonEmptyCells, onlyCells_unlink, bind_map_left, map_bind]
  refine bind_congr fun cells ↦ ?_
  cases cells <;> rfl

end Arguments

theorem definitions_unlink (function : String) (args : List Value) :
    definitions function (args.map (Value.unlink contents))
      = Bindings.unlink contents <$> definitions function args := by
  cases args with
  | nil => rfl
  | cons first values =>
    simp only [definitions, List.map_cons, Arguments.cells_unlink, bind_map_left,
      Arguments.names_unlink, map_bind, List.length_map]
    refine bind_congr fun cells ↦ bind_congr fun names ↦ ?_
    split
    · rw [map_pure, Bindings.unlink_zip]
    · rfl

theorem lambdaOf_unlink (args : List Value) :
    lambdaOf (args.map (Value.unlink contents)) = Value.unlink contents <$> lambdaOf args := by
  simp only [lambdaOf, Arguments.two_map, bind_map_left, Prod.map, Arguments.cells_unlink,
    Arguments.names_unlink, map_bind, map_pure, unlink_closure]
  rfl

theorem branchOf_unlink (args : List Value) :
    branchOf (args.map (Value.unlink contents))
      = List.map (Value.unlink contents) <$> branchOf args := by
  simp only [branchOf, Arguments.three_map, bind_map_left, Prod.map, Arguments.number_unlink,
    Arguments.cells_unlink, map_bind, map_pure, apply_ite (List.map _)]

theorem Arithmetic.apply_unlink (operation : Arithmetic) (args : List Value) :
    operation.apply (args.map (Value.unlink contents))
      = Value.unlink contents <$> operation.apply args := by
  simp only [Arithmetic.apply, Arguments.numbers_unlink, map_bind, map_pure]
  rfl

theorem Comparison.apply_unlink (comparison : Comparison) (args : List Value) :
    comparison.apply (args.map (Value.unlink contents))
      = Value.unlink contents <$> comparison.apply args := by
  simp only [Comparison.apply, Arguments.two_map, bind_map_left, Prod.map, Arguments.number_unlink,
    map_bind, map_pure]
  rfl

/-- A request for linked values as one for plain values. -/
def Request.unlink (contents : ScopeId → Bindings) : Request → Request
  | .give v => .give (v.unlink contents)
  | .evaluate cells => .evaluate (cells.map (Value.unlink contents))
  | .bind target entries => .bind target (Bindings.unlink contents entries)
  | .load path => .load path
  | .print line => .print line
  | .printScope => .printScope

/-- How often the values in a request have a closure that is linked to the place. -/
def Request.links (place : Option ScopeId) : Request → Nat
  | .give v => v.links place
  | .evaluate cells => Value.linksAll place cells
  | .bind _ entries => Bindings.links place entries
  | _ => 0

/-- What is asked for, given linked values, is a linked form of what is asked for otherwise. -/
theorem Primitive.request_unlink (operation : Primitive) (args : List Value) :
    operation.request (args.map (Value.unlink contents))
      = Request.unlink contents <$> operation.request args := by
  cases operation with
  | list => simp [request, Request.unlink]
  | head | tail =>
    simp only [request, Arguments.nonEmptyCells_unlink, bind_map_left, map_bind, map_pure,
      Prod.map, Request.unlink, unlink_qexpr, List.map_cons, List.map_nil]
  | join =>
    simp only [request, Arguments.cellsOfAll_unlink, bind_map_left, map_bind, map_pure,
      Request.unlink, unlink_qexpr, List.map_flatten]
  | eval =>
    simp only [request, Arguments.onlyCells_unlink, bind_map_left, map_bind, map_pure,
      Request.unlink]
  | arithmetic operation =>
    simp only [request, operation.apply_unlink, bind_map_left, map_bind, map_pure, Request.unlink]
  | compare comparison =>
    simp only [request, comparison.apply_unlink, bind_map_left, map_bind, map_pure, Request.unlink]
  | lambda =>
    simp only [request, lambdaOf_unlink, bind_map_left, map_bind, map_pure, Request.unlink]
  | define target =>
    simp only [request, definitions_unlink, bind_map_left, map_bind, map_pure, Request.unlink]
  | choose =>
    simp only [request, branchOf_unlink, bind_map_left, map_bind, map_pure, Request.unlink]
  | equal | unequal =>
    simp only [request, Arguments.two_map, bind_map_left, map_bind, map_pure, Prod.map, beq_unlink,
      bne, Request.unlink]
    rfl
  | load =>
    simp only [request, Arguments.onlyString_unlink, map_bind, map_pure, Request.unlink]
  | error =>
    simp only [request, Arguments.onlyString_unlink, map_bind, map_pure, Request.unlink]
    rfl
  | print =>
    have hchars : (args.map (Value.unlink contents)).map Value.chars = args.map Value.chars := by
      rw [List.map_map]
      exact List.map_congr_left fun v _ ↦ chars_rebind _ v
    rw [request, hchars]
    rfl
  | exit | printScope => rfl

/-- Whatever is asked for, given plain values, is what is asked for otherwise. -/
theorem Primitive.exists_request_of_unlink {operation : Primitive} {args : List Value}
    {wanted : Request} (h : operation.request (args.map (Value.unlink contents)) = .ok wanted) :
    ∃ linked, operation.request args = .ok linked ∧ linked.unlink contents = wanted := by
  rw [operation.request_unlink] at h
  cases hrequest : operation.request args with
  | error cause =>
    rw [hrequest] at h
    cases h
  | ok linked =>
    rw [hrequest] at h
    exact ⟨linked, rfl, Except.ok.inj h⟩

/-! ## No link is doubled -/

theorem Value.linksAll_map_qexpr (lists : List (List Value)) :
    linksAll place (lists.map .qexpr) = linksAll place lists.flatten := by
  induction lists with
  | nil => rfl
  | cons cells lists ih => simp [ih]

theorem Bindings.links_zip {names : List String} {values : List Value}
    (h : names.length = values.length) :
    Bindings.links place (names.zip values) = linksAll place values := by
  rw [Bindings.links, List.map_snd_zip h.ge]

/-- What is asked for has links that were in the arguments only, unless it is a new closure. -/
theorem Primitive.links_request_le (operation : Primitive) (args : List Value) :
    (operation.request args).Gives fun wanted ↦
      wanted.links place ≤ linksAll place args ∨
        ∃ formals body, wanted = .give (.closure formals body []) ∧
          linksAll place body ≤ linksAll place args := by
  cases operation with
  | list => exact gives_ok (Or.inl (by simp [Request.links]))
  | head =>
    refine (Arguments.gives_nonEmptyCells_eq _ args).bind ?_
    rintro ⟨first, rest⟩ rfl
    exact gives_ok (Or.inl (by simp [Request.links]))
  | tail =>
    refine (Arguments.gives_nonEmptyCells_eq _ args).bind ?_
    rintro ⟨first, rest⟩ rfl
    exact gives_ok (Or.inl (by simp [Request.links]))
  | join =>
    refine (Arguments.gives_cellsOfAll_eq _ args).bind ?_
    rintro lists rfl
    exact gives_ok (Or.inl (by rw [Request.links, links_qexpr, linksAll_map_qexpr]))
  | eval =>
    refine (Arguments.gives_onlyCells_eq _ args).bind ?_
    rintro cells rfl
    exact gives_ok (Or.inl (by simp [Request.links]))
  | lambda =>
    refine (gives_lambdaOf_eq args).bind ?_
    rintro _ ⟨formals, body, rfl, rfl⟩
    exact gives_ok (Or.inr ⟨formals, body, rfl, by simp⟩)
  | define target =>
    refine (gives_definitions_eq _ args).bind ?_
    rintro _ ⟨names, values, rfl, hlength, rfl⟩
    exact gives_ok (Or.inl (by simp [Request.links, Bindings.links_zip hlength]))
  | choose =>
    refine (gives_branchOf_eq args).bind ?_
    rintro _ ⟨n, first, second, rfl, rfl⟩
    refine gives_ok (Or.inl ?_)
    rw [Request.links, linksAll_cons, linksAll_cons, linksAll_cons, links_qexpr, links_qexpr]
    split <;> omega
  | arithmetic operation =>
    refine Gives.bind (P := fun v ↦ v.links place = 0) ?_ fun v hv ↦
      gives_ok (Or.inl (hv.trans_le (Nat.zero_le _)))
    exact (Gives.of_forall fun _ ↦ trivial).bind fun _ _ ↦
      (Gives.of_forall fun _ ↦ trivial).bind fun _ _ ↦ gives_ok rfl
  | compare comparison =>
    refine Gives.bind (P := fun v ↦ v.links place = 0) ?_ fun v hv ↦
      gives_ok (Or.inl (hv.trans_le (Nat.zero_le _)))
    exact (Gives.of_forall fun _ ↦ trivial).bind fun _ _ ↦
      (Gives.of_forall fun _ ↦ trivial).bind fun _ _ ↦
        (Gives.of_forall fun _ ↦ trivial).bind fun _ _ ↦ gives_ok rfl
  | equal | unequal | load | error =>
    exact (Gives.of_forall fun _ ↦ trivial).bind fun _ _ ↦ gives_ok (Or.inl (Nat.zero_le _))
  | print | exit | printScope => exact gives_ok (Or.inl (Nat.zero_le _))

/-! ## Arguments that a closure takes -/

theorem bindRest_unlink (args : List Value) (bound : Bindings) (formals : List String) :
    bindRest (args.map (Value.unlink contents)) (bound.unlink contents) formals
      = Prod.map id (Bindings.unlink contents) <$> bindRest args bound formals := by
  match formals with
  | [name] =>
    rw [bindRest, ← unlink_qexpr, Bindings.insert_unlink]
    rfl
  | [] | _ :: _ :: _ => rfl

theorem bindFormals_unlink (refusal : EvalError) (formals : List String) (args : List Value)
    (bound : Bindings) :
    bindFormals refusal formals (args.map (Value.unlink contents)) (bound.unlink contents)
      = Prod.map id (Bindings.unlink contents) <$> bindFormals refusal formals args bound := by
  fun_induction bindFormals refusal formals args bound with
  | case1 bound => rfl
  | case2 => rfl
  | case3 formals args bound =>
    rw [bindFormals.eq_def]
    exact (if_pos rfl).trans (bindRest_unlink args bound formals)
  | case4 formal formals bound hmark =>
    rw [List.map_nil, bindFormals, if_neg hmark]
    rfl
  | case5 formal formals bound hmark arg args ih =>
    rw [List.map_cons, bindFormals, if_neg hmark, Bindings.insert_unlink, ih]

/-- What is bound has links that were in the arguments or were bound before. -/
theorem links_bindFormals_le (refusal : EvalError) (formals : List String) (args : List Value)
    (bound : Bindings) :
    (bindFormals refusal formals args bound).Gives fun taken ↦
      taken.2.links place ≤ linksAll place args + bound.links place := by
  fun_induction bindFormals refusal formals args bound with
  | case1 bound => exact gives_ok (Nat.le_add_left _ _)
  | case2 => exact gives_error _
  | case3 formals args bound =>
    rcases formals with _ | ⟨name, _ | ⟨other, formals⟩⟩
    · exact gives_error _
    · exact gives_ok (by simpa using Bindings.links_insert_le name (.qexpr args))
    · exact gives_error _
  | case4 formal formals bound hmark => exact gives_ok (Nat.le_add_left _ _)
  | case5 formal formals bound hmark arg args ih =>
    refine ih.mono fun taken htaken ↦ ?_
    have hinsert : (bound.insert formal arg).links place ≤ _ := Bindings.links_insert_le formal arg
    rw [linksAll_cons]
    omega

end QuoteLisp
