import QuoteLisp.Evaluation.Application
import QuoteLisp.Proofs.Scope.Store
import QuoteLisp.Proofs.Value.Hereditary

/-!
# What checks hand on

`Checked.Gives` is a property of whatever a check extracts when it does not refuse. It is carried
through a sequence of checks step by step. For a property that values share with their parts, the
cells, names and values that the checks on arguments extract have it when the arguments do, and so
have the names that a closure binds when it takes arguments.

A check that extracts something has seen what it extracts, and nothing else, in the arguments. The
lemmas on single checks say so first (`Arguments.gives_one_eq` and those like it).
-/

namespace QuoteLisp

/-- Whatever the check extracts has the property. -/
def Checked.Gives {α : Type} (P : α → Prop) (x : Checked α) : Prop :=
  ∀ a, x = .ok a → P a

namespace Checked

variable {α β : Type} {P : α → Prop} {R : β → Prop}

theorem gives_ok {a : α} (h : P a) : Gives P (.ok a) := by
  intro b hb
  rwa [← Except.ok.inj hb]

theorem gives_error (cause : EvalError) : Gives P (.error cause) :=
  fun _ h ↦ nomatch h

theorem Gives.bind {x : Checked α} {f : α → Checked β} (hx : x.Gives P)
    (hf : ∀ a, P a → (f a).Gives R) : (x >>= f).Gives R := by
  intro b hb
  cases hcheck : x with
  | error cause =>
    rw [hcheck] at hb
    cases hb
  | ok a =>
    rw [hcheck] at hb
    exact hf a (hx a hcheck) b hb

theorem Gives.mono {R : α → Prop} {x : Checked α} (hx : x.Gives P) (h : ∀ a, P a → R a) :
    x.Gives R :=
  fun a ha ↦ h a (hx a ha)

/-- Nothing is asked of what a check extracts that is only used for numbers. -/
theorem Gives.of_forall {x : Checked α} (h : ∀ a, P a) : x.Gives P :=
  fun a _ ↦ h a

/-- Where each check extracts what its argument was made from, so do all of them together. -/
theorem gives_mapM_map {γ : Type} {f : α → Checked β} (g : α → γ) (wrap : β → γ)
    (h : ∀ a, (f a).Gives fun b ↦ g a = wrap b) (as : List α) :
    (as.mapM f).Gives fun bs ↦ as.map g = bs.map wrap := by
  induction as with
  | nil =>
    rw [List.mapM_nil]
    exact gives_ok rfl
  | cons a as ih =>
    rw [List.mapM_cons]
    refine (h a).bind fun b hb ↦ ih.bind fun bs hbs ↦ gives_ok ?_
    rw [List.map_cons, List.map_cons, hb, hbs]

end Checked

open Checked Value

/-! ## What was checked -/

namespace Arguments

section

variable (function : String) (args : List Value)

theorem gives_one_eq : (one function args).Gives fun v ↦ args = [v] := by
  match args with
  | [v] => exact gives_ok rfl
  | [] | _ :: _ :: _ => exact gives_error _

theorem gives_two_eq : (two function args).Gives fun (v, w) ↦ args = [v, w] := by
  match args with
  | [v, w] => exact gives_ok rfl
  | [] | [_] | _ :: _ :: _ :: _ => exact gives_error _

theorem gives_three_eq : (three function args).Gives fun (u, v, w) ↦ args = [u, v, w] := by
  match args with
  | [u, v, w] => exact gives_ok rfl
  | [] | [_] | [_, _] | _ :: _ :: _ :: _ :: _ => exact gives_error _

theorem gives_number_eq (index : Nat) (v : Value) :
    (Arguments.number function index v).Gives fun n ↦ v = .number n := by
  cases v with
  | number n => exact gives_ok rfl
  | _ => exact gives_error _

theorem gives_string_eq (index : Nat) (v : Value) :
    (Arguments.string function index v).Gives fun text ↦ v = .string text := by
  cases v with
  | string text => exact gives_ok rfl
  | _ => exact gives_error _

theorem gives_cells_eq (index : Nat) (v : Value) :
    (cells function index v).Gives fun cells ↦ v = .qexpr cells := by
  cases v with
  | qexpr cells => exact gives_ok rfl
  | _ => exact gives_error _

theorem gives_names_eq (refuse : String → EvalError) (cells : List Value) :
    (names refuse cells).Gives fun names ↦ cells = names.map .symbol := by
  refine (gives_mapM_map id .symbol (fun v ↦ ?_) cells).mono fun names h ↦ ?_
  · cases v with
    | symbol name => exact gives_ok rfl
    | _ => exact gives_error _
  · rwa [List.map_id] at h

theorem gives_numbers_eq : (numbers function args).Gives fun ns ↦ args = ns.map .number := by
  refine (gives_mapM_map Prod.fst Value.number
    (fun (v, index) ↦ gives_number_eq function index v) _).mono fun ns h ↦ ?_
  rwa [List.zipIdx_map_fst] at h

theorem gives_cellsOfAll_eq :
    (cellsOfAll function args).Gives fun lists ↦ args = lists.map .qexpr := by
  refine (gives_mapM_map Prod.fst Value.qexpr
    (fun (v, index) ↦ gives_cells_eq function index v) _).mono fun lists h ↦ ?_
  rwa [List.zipIdx_map_fst] at h

theorem gives_onlyCells_eq : (onlyCells function args).Gives fun cells ↦ args = [.qexpr cells] :=
  (gives_one_eq function args).bind fun v hv ↦
    (gives_cells_eq function 0 v).mono fun _ hcells ↦ hcells ▸ hv

theorem gives_onlyString_eq :
    (onlyString function args).Gives fun text ↦ args = [.string text] :=
  (gives_one_eq function args).bind fun v hv ↦
    (gives_string_eq function 0 v).mono fun _ htext ↦ htext ▸ hv

theorem gives_nonEmptyCells_eq :
    (nonEmptyCells function args).Gives fun (first, rest) ↦ args = [.qexpr (first :: rest)] := by
  refine (gives_onlyCells_eq function args).bind fun cells hcells ↦ ?_
  cases cells with
  | nil => exact gives_error _
  | cons first rest => exact gives_ok hcells

end

end Arguments

theorem gives_definitions_eq (function : String) (args : List Value) :
    (definitions function args).Gives fun entries ↦
      ∃ (names : List String) (values : List Value),
        args = .qexpr (names.map .symbol) :: values ∧ names.length = values.length ∧
          entries = names.zip values := by
  cases args with
  | nil => exact gives_error _
  | cons first values =>
    refine (Arguments.gives_cells_eq function 0 first).bind fun cells hcells ↦ ?_
    refine (Arguments.gives_names_eq _ cells).bind fun names hnames ↦ ?_
    split
    · exact gives_ok ⟨names, values, by rw [hcells, hnames], ‹_›, rfl⟩
    · exact gives_error _

theorem gives_lambdaOf_eq (args : List Value) :
    (lambdaOf args).Gives fun v ↦ ∃ (formals : List String) (body : List Value),
      args = [.qexpr (formals.map .symbol), .qexpr body] ∧ v = .closure formals body [] := by
  refine (Arguments.gives_two_eq _ args).bind fun (first, second) hargs ↦ ?_
  refine (Arguments.gives_cells_eq _ 0 first).bind fun cells hcells ↦ ?_
  refine (Arguments.gives_cells_eq _ 1 second).bind fun body hbody ↦ ?_
  refine (Arguments.gives_names_eq _ cells).bind fun formals hformals ↦
    gives_ok ⟨formals, body, ?_, rfl⟩
  rw [hargs, hcells, hbody, hformals]

theorem gives_branchOf_eq (args : List Value) :
    (branchOf args).Gives fun cells ↦ ∃ n first second,
      args = [.number n, .qexpr first, .qexpr second] ∧
        cells = if n = 0 then second else first := by
  refine (Arguments.gives_three_eq _ args).bind fun (condition, first, second) hargs ↦ ?_
  refine (Arguments.gives_number_eq _ 0 condition).bind fun n hn ↦ ?_
  refine (Arguments.gives_cells_eq _ 1 first).bind fun thenCells hthen ↦ ?_
  refine (Arguments.gives_cells_eq _ 2 second).bind fun elseCells helse ↦
    gives_ok ⟨n, thenCells, elseCells, ?_, rfl⟩
  rw [hargs, hn, hthen, helse]

/-! ## What is handed on -/

namespace Arguments

variable {S Q : Value → Prop} {args : List Value}

theorem gives_onlyCells (hQ : HereditaryWith S Q) (h : ∀ v ∈ args, Q v) (function : String) :
    (onlyCells function args).Gives fun cells ↦ ∀ c ∈ cells, Q c := by
  refine (gives_onlyCells_eq function args).mono ?_
  rintro cells rfl
  exact hQ.qexpr_iff.mp (List.forall_mem_singleton.mp h)

theorem gives_nonEmptyCells (hQ : HereditaryWith S Q) (h : ∀ v ∈ args, Q v) (function : String) :
    (nonEmptyCells function args).Gives fun (first, rest) ↦ Q first ∧ ∀ c ∈ rest, Q c := by
  refine (gives_nonEmptyCells_eq function args).mono ?_
  rintro ⟨first, rest⟩ rfl
  exact List.forall_mem_cons.mp (hQ.qexpr_iff.mp (List.forall_mem_singleton.mp h))

theorem gives_cellsOfAll (hQ : HereditaryWith S Q) (h : ∀ v ∈ args, Q v) (function : String) :
    (cellsOfAll function args).Gives fun lists ↦ ∀ cells ∈ lists, ∀ c ∈ cells, Q c := by
  refine (gives_cellsOfAll_eq function args).mono ?_
  rintro lists rfl cells hmem
  exact hQ.qexpr_iff.mp (h _ (List.mem_map_of_mem hmem))

end Arguments

/-! ## Taking arguments -/

variable {S Q : Value → Prop}

/-- Binding the formal after the variadic mark leaves no formal. -/
theorem gives_bindRest (hQ : HereditaryWith S Q) {args : List Value} {bound : Bindings}
    {formals : List String} (hargs : ∀ v ∈ args, Q v)
    (hbound : ∀ entry ∈ bound, Q (.symbol entry.1) ∧ S entry.2 ∧ Q entry.2)
    (hformals : ∀ name ∈ formals, Q (.symbol name)) :
    (bindRest args bound formals).Gives fun (left, bound) ↦ (∀ name ∈ left, Q (.symbol name)) ∧
      ∀ entry ∈ bound, Q (.symbol entry.1) ∧ S entry.2 ∧ Q entry.2 := by
  match formals with
  | [name] =>
    refine gives_ok ⟨List.forall_mem_nil _, Bindings.forall_mem_insert ?_ hbound⟩
    exact ⟨hformals name List.mem_cons_self, hQ.of_settled trivial, hQ.qexpr_iff.mpr hargs⟩
  | [] | _ :: _ :: _ => exact gives_error _

theorem gives_bindFormals (hQ : HereditaryWith S Q) {refusal : EvalError} {formals : List String}
    {args : List Value} {bound : Bindings} (hformals : ∀ name ∈ formals, Q (.symbol name))
    (hargs : ∀ v ∈ args, S v ∧ Q v)
    (hbound : ∀ entry ∈ bound, Q (.symbol entry.1) ∧ S entry.2 ∧ Q entry.2) :
    (bindFormals refusal formals args bound).Gives fun (left, bound) ↦
      (∀ name ∈ left, Q (.symbol name)) ∧
        ∀ entry ∈ bound, Q (.symbol entry.1) ∧ S entry.2 ∧ Q entry.2 := by
  -- what is bound is an invariant of the loop, and the formals that are left become fewer
  fun_induction bindFormals refusal formals args bound with
  | case1 bound => exact gives_ok ⟨hformals, hbound⟩
  | case2 => exact gives_error _
  | case3 =>
    exact gives_bindRest hQ (fun v hv ↦ (hargs v hv).2) hbound
      fun name hname ↦ hformals name (List.mem_cons_of_mem _ hname)
  | case4 formal formals bound hmark => exact gives_ok ⟨hformals, hbound⟩
  | case5 formal formals bound hmark arg args ih =>
    obtain ⟨hformal, hformals⟩ := List.forall_mem_cons.mp hformals
    obtain ⟨harg, hargs⟩ := List.forall_mem_cons.mp hargs
    exact ih hformals hargs (Bindings.forall_mem_insert ⟨hformal, harg.1, harg.2⟩ hbound)

end QuoteLisp
