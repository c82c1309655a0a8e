import QuoteLisp.Proofs.Evaluation.Checked
import QuoteLisp.Proofs.Value.Equality

/-!
# Links to scopes

What a closure has bound can be part of the closure. It can also be kept in a scope, with nothing
but a link to that scope in the closure. A value whose closures have links is *linked*, and it is
made into a plain value by putting what the scopes hold in place of the links (`Value.unlink`).

How many closures of a value are linked to a place is counted by `Value.links`. Nothing here says
that the place holds a scope, or that a scope has one closure only that is linked to it.
-/

namespace QuoteLisp

/-- The link to the scope at a place. It stands in a closure where the bound names would be, so it
is written as a list, whose length tells the place. -/
def linkTo (id : ScopeId) : Bindings :=
  List.replicate (id + 1) ("", .exit)

/-- The place that a link leads to. The empty list leads to none. -/
def linked? : Bindings → Option ScopeId
  | [] => none
  | _ :: above => some above.length

@[simp] theorem linked?_linkTo (id : ScopeId) : linked? (linkTo id) = some id :=
  congrArg some List.length_replicate

namespace Value

mutual

/-- How often a value has a closure that is linked to the place, or that has no link. -/
def links (place : Option ScopeId) : Value → Nat
  | sexpr cells | qexpr cells => linksAll place cells
  | closure _ body link => (if linked? link = place then 1 else 0) + linksAll place body
  | _ => 0

/-- How often values have such a closure. -/
def linksAll (place : Option ScopeId) : List Value → Nat
  | [] => 0
  | v :: vs => links place v + linksAll place vs

end

/-- The value with what some scopes hold in place of the links to them. -/
def unlink (contents : ScopeId → Bindings) (v : Value) : Value :=
  v.rebind fun link ↦ (linked? link).elim [] contents

end Value

/-- A function with linked values in it, made into one with plain ones. -/
def Function.unlink (contents : ScopeId → Bindings) : Function → Function
  | primitive operation => .primitive operation
  | closure ⟨formals, body, link⟩ =>
    .closure ⟨formals, body.map (Value.unlink contents), (linked? link).elim [] contents⟩

/-- Bindings of linked values, made into bindings of plain ones. -/
def Bindings.unlink (contents : ScopeId → Bindings) (bindings : Bindings) : Bindings :=
  bindings.map fun (name, v) ↦ (name, v.unlink contents)

/-- How often the values of some bindings have a closure that is linked to the place. -/
def Bindings.links (place : Option ScopeId) (bindings : Bindings) : Nat :=
  Value.linksAll place (bindings.map Prod.snd)

namespace Value

variable {contents contents' : ScopeId → Bindings} {place : Option ScopeId} {v : Value}
  {vs ws : List Value}

@[simp] theorem links_sexpr (cells : List Value) :
    (sexpr cells).links place = linksAll place cells := by rw [links]

@[simp] theorem links_qexpr (cells : List Value) :
    (qexpr cells).links place = linksAll place cells := by rw [links]

@[simp] theorem links_closure (formals : List String) (body : List Value) (link : Bindings) :
    (closure formals body link).links place
      = (if linked? link = place then 1 else 0) + linksAll place body := by rw [links]

@[simp] theorem linksAll_nil : linksAll place [] = 0 := by rw [linksAll]

@[simp] theorem linksAll_cons (v : Value) (vs : List Value) :
    linksAll place (v :: vs) = v.links place + linksAll place vs := by rw [linksAll]

@[simp] theorem linksAll_append (vs ws : List Value) :
    linksAll place (vs ++ ws) = linksAll place vs + linksAll place ws := by
  induction vs with
  | nil => simp
  | cons v vs ih => simp [ih, Nat.add_assoc]

theorem links_le_linksAll (h : v ∈ vs) : v.links place ≤ linksAll place vs := by
  obtain ⟨before, after, rfl⟩ := List.append_of_mem h
  simp only [linksAll_append, linksAll_cons]
  omega

/-! ## From linked values to plain ones -/

@[simp] theorem unlink_sexpr (cells : List Value) :
    (sexpr cells).unlink contents = sexpr (cells.map (unlink contents)) :=
  congrArg sexpr (rebindAll_eq_map _ _)

@[simp] theorem unlink_qexpr (cells : List Value) :
    (qexpr cells).unlink contents = qexpr (cells.map (unlink contents)) :=
  congrArg qexpr (rebindAll_eq_map _ _)

@[simp] theorem unlink_closure (formals : List String) (body : List Value) (link : Bindings) :
    (closure formals body link).unlink contents
      = closure formals (body.map (unlink contents)) ((linked? link).elim [] contents) :=
  congrArg (closure formals · _) (rebindAll_eq_map _ _)

@[simp] theorem isError_unlink : (v.unlink contents).isError = v.isError := by
  cases v <;> rfl

@[simp] theorem display_unlink : (v.unlink contents).display = v.display :=
  congrArg String.ofList (chars_rebind _ v)

theorem beq_unlink (v w : Value) : (v.unlink contents == w.unlink contents) = (v == w) := by
  rw [Bool.eq_iff_iff, beq_iff, beq_iff, unlink, unlink, skeleton_rebind, skeleton_rebind]

mutual

/-- It is what the scopes hold that matters to which there is a link. -/
theorem unlink_congr : ∀ v : Value,
    (∀ id, 0 < v.links (some id) → contents id = contents' id) →
      v.unlink contents = v.unlink contents'
  | sexpr cells, h | qexpr cells, h => by
    simp only [unlink_sexpr, unlink_qexpr]
    rw [map_unlink_congr cells fun id hid ↦ h id (by simpa using hid)]
  | closure formals body link, h => by
    rw [unlink_closure, unlink_closure,
      map_unlink_congr body fun id hid ↦ h id (by rw [links_closure]; omega)]
    cases hlink : linked? link with
    | none => rfl
    | some id =>
      rw [Option.elim_some, Option.elim_some, h id (by rw [links_closure, if_pos hlink]; omega)]
  | number _, _ | error _, _ | symbol _, _ | string _, _ | primitive _, _ | exit, _ => rfl

theorem map_unlink_congr : ∀ vs : List Value,
    (∀ id, 0 < linksAll (some id) vs → contents id = contents' id) →
      vs.map (unlink contents) = vs.map (unlink contents')
  | [], _ => rfl
  | v :: vs, h => by
    rw [List.map_cons, List.map_cons, unlink_congr v fun id hid ↦ h id (by simp; omega),
      map_unlink_congr vs fun id hid ↦ h id (by simp; omega)]

end

@[simp] theorem unlink_toValue (function : Function) :
    function.toValue.unlink contents = (function.unlink contents).toValue := by
  cases function with
  | primitive operation => rfl
  | closure closure => exact unlink_closure _ _ _

/-- A linked function is a function. -/
theorem exists_function_of_unlink_eq {function : Function}
    (h : v.unlink contents = function.toValue) :
    ∃ linked : Function, v = linked.toValue ∧ linked.unlink contents = function := by
  have hfunction := congrArg toFunction? h
  rw [toFunction?_toValue] at hfunction
  cases v with
  | primitive operation => exact ⟨.primitive operation, rfl, Option.some.inj hfunction⟩
  | closure formals body link =>
    refine ⟨.closure ⟨formals, body, link⟩, rfl, Option.some.inj (Eq.trans ?_ hfunction)⟩
    rw [unlink_closure]
    rfl
  | _ => cases hfunction

theorem find?_isError_unlink (vs : List Value) : (vs.map (unlink contents)).find? isError
    = (vs.find? isError).map (unlink contents) := by
  rw [List.find?_map]
  exact congrArg (fun p ↦ (vs.find? p).map _) (funext fun _ ↦ isError_unlink)

/-! ## Values without closures -/

mutual

theorem unlink_eq_self : ∀ v : Value, (∀ place, v.links place = 0) → v.unlink contents = v
  | sexpr cells, h => by
    rw [unlink_sexpr, map_unlink_eq_self cells fun place ↦ (links_sexpr cells).symm.trans (h place)]
  | qexpr cells, h => by
    rw [unlink_qexpr, map_unlink_eq_self cells fun place ↦ (links_qexpr cells).symm.trans (h place)]
  | closure formals body link, h => by
    have hlink := h (linked? link)
    rw [links_closure, if_pos rfl] at hlink
    omega
  | number _, _ | error _, _ | symbol _, _ | string _, _ | primitive _, _ | exit, _ => rfl

theorem map_unlink_eq_self : ∀ vs : List Value, (∀ place, linksAll place vs = 0) →
    vs.map (unlink contents) = vs
  | [], _ => rfl
  | v :: vs, h => by
    simp only [linksAll_cons, Nat.add_eq_zero_iff] at h
    rw [List.map_cons, unlink_eq_self v fun place ↦ (h place).1,
      map_unlink_eq_self vs fun place ↦ (h place).2]

end

mutual

/-- Nothing that is read has a closure in it. -/
theorem links_ofNode : ∀ node : Node, (ofNode node).links place = 0
  | .mk tag contents span children => by
    rw [ofNode]
    repeat' split
    · rw [ofNumberText]
      split <;> rfl
    · rfl
    · rfl
    · rw [links_qexpr, linksAll_ofNodes children]
    · rw [links_sexpr, linksAll_ofNodes children]

theorem linksAll_ofNodes : ∀ nodes : List Node, linksAll place (ofNodes nodes) = 0
  | [] => by rw [ofNodes, linksAll_nil]
  | node :: nodes => by
    rw [ofNodes]
    split
    · exact linksAll_ofNodes nodes
    · rw [linksAll_cons, links_ofNode node, linksAll_ofNodes nodes]

end

theorem linksAll_forms (v : Value) : linksAll place v.forms = v.links place := by
  cases v with
  | sexpr cells => exact (links_sexpr cells).symm
  | _ => rfl

end Value

namespace Bindings

variable {contents contents' : ScopeId → Bindings} {place : Option ScopeId} {bindings : Bindings}

theorem unlink_congr (h : ∀ id, 0 < bindings.links (some id) → contents id = contents' id) :
    bindings.unlink contents = bindings.unlink contents' := by
  have hvalues := Value.map_unlink_congr _ h
  refine List.map_congr_left fun entry hentry ↦ Prod.ext rfl ?_
  exact List.map_inj_left.mp hvalues _ (List.mem_map_of_mem hentry)

theorem unlink_eq_self (h : ∀ place, bindings.links place = 0) :
    bindings.unlink contents = bindings := by
  refine (List.map_congr_left fun entry hentry ↦ ?_).trans (List.map_id bindings)
  refine Prod.ext rfl (Value.unlink_eq_self entry.2 fun place ↦ Nat.le_zero.mp ?_)
  exact (Value.links_le_linksAll (List.mem_map_of_mem hentry)).trans_eq (h place)

theorem unlink_zip (names : List String) (values : List Value) :
    Bindings.unlink contents (names.zip values)
      = names.zip (values.map (Value.unlink contents)) := by
  rw [List.zip_map_right, unlink]
  rfl

theorem unlink_eq_zip (bindings : Bindings) : bindings.unlink contents
    = (bindings.map Prod.fst).zip ((bindings.map Prod.snd).map (Value.unlink contents)) := by
  induction bindings with
  | nil => rfl
  | cons entry rest ih =>
    rw [unlink] at ih
    rw [unlink, List.map_cons, ih]
    rfl

theorem lines_unlink : (bindings.unlink contents).lines = bindings.lines := by
  rw [lines, unlink, List.map_map]
  exact List.map_congr_left fun entry _ ↦
    congrArg (entry.1 ++ ": " ++ ·) Value.display_unlink

theorem find?_unlink (name : String) :
    (bindings.unlink contents).find? name = (bindings.find? name).map (Value.unlink contents) := by
  induction bindings with
  | nil => rfl
  | cons entry rest ih => grind [unlink, find?]

theorem insert_unlink (name : String) (v : Value) :
    insert name (v.unlink contents) (bindings.unlink contents)
      = (insert name v bindings).unlink contents := by
  induction bindings with
  | nil => rfl
  | cons entry rest ih => grind [unlink, insert]

/-- A binding adds the links of its value. -/
theorem links_insert_le (name : String) (v : Value) :
    (insert name v bindings).links place ≤ v.links place + bindings.links place := by
  induction bindings with
  | nil => simp [insert, links]
  | cons entry rest ih => grind [insert, links, Value.linksAll_cons]

end Bindings

end QuoteLisp
