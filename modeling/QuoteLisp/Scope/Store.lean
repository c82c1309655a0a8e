import QuoteLisp.Scope.Bindings

/-!
# The store of scopes

Every scope has a set of bindings and may have a parent. Scopes are named by their place in the
store, and a place that was given up stays empty, so a name is never taken over by another scope. A
scope whose parent was given up has no parent from then on.

## Chains

From a scope the parent links lead to its root. A name is looked up along this chain, and the first
scope that binds it decides. Links may be changed, so nothing rules out a chain that runs in a
circle; following as many links as there are places in the store reaches the end of every chain
that has one, and stops on those that have none.
-/

namespace QuoteLisp

/-- The place of a scope in the store. -/
abbrev ScopeId := Nat

/-- A set of bindings with a link to the scope around it. -/
structure Scope where
  bindings : Bindings
  parent : Option ScopeId

/-- All scopes, each at its place. -/
structure Store where
  places : Array (Option Scope)

namespace Store

variable (store : Store)

/-! ## Looking -/

/-- The scope at a place, unless the place is empty. -/
def scope? (id : ScopeId) : Option Scope :=
  store.places[id]?.join

/-- The bindings of the scope at a place; an empty place binds nothing. -/
def bindings (id : ScopeId) : Bindings :=
  ((store.scope? id).map Scope.bindings).getD []

/-- The scope that a scope's link leads to, if there still is one. -/
def parent? (id : ScopeId) : Option ScopeId :=
  (store.scope? id).bind fun scope ↦ scope.parent.filter fun parent ↦ (store.scope? parent).isSome

/-- The scopes that are reached by following at most `links` links, the starting one first. -/
def chainWithin : (links : Nat) → ScopeId → List ScopeId
  | 0, id => [id]
  | links + 1, id =>
    match store.parent? id with
    | none => [id]
    | some parent => id :: chainWithin links parent

/-- The scopes from a scope to its root. -/
def chain (id : ScopeId) : List ScopeId :=
  store.chainWithin store.places.size id

/-- The value of a name in the first of at most `links + 1` scopes that binds it. -/
def lookupWithin (name : String) : (links : Nat) → ScopeId → Option Value
  | 0, id => (store.bindings id).find? name
  | links + 1, id =>
    match (store.bindings id).find? name with
    | some value => some value
    | none =>
      match store.parent? id with
      | none => none
      | some parent => lookupWithin name links parent

/-- The value of a name in the first scope on the chain that binds it. -/
def lookup? (id : ScopeId) (name : String) : Option Value :=
  store.lookupWithin name store.places.size id

/-- The scope that is reached by following links, at most `links` of them. -/
def rootWithin : (links : Nat) → ScopeId → ScopeId
  | 0, id => id
  | links + 1, id =>
    match store.parent? id with
    | none => id
    | some parent => rootWithin links parent

/-- The last scope on the chain. -/
def root (id : ScopeId) : ScopeId :=
  store.rootWithin store.places.size id

/-! ## Changing -/

/-- Binds a name in one scope. -/
def setLocal (id : ScopeId) (name : String) (value : Value) : Store :=
  ⟨store.places.modify id
    (Option.map fun scope ↦ { scope with bindings := scope.bindings.insert name value })⟩

/-- Binds a name in the root of a scope. -/
def setGlobal (id : ScopeId) (name : String) (value : Value) : Store :=
  store.setLocal (store.root id) name value

/-- Links a scope to another one. -/
def setParent (id parent : ScopeId) : Store :=
  ⟨store.places.modify id (Option.map fun scope ↦ { scope with parent := some parent })⟩

/-- The place that the next scope is put at. -/
def nextId : ScopeId :=
  store.places.size

/-- Puts a scope at the next place. -/
def push (scope : Scope) : Store :=
  ⟨store.places.push (some scope)⟩

/-- Takes back the last place. -/
def pop : Store :=
  ⟨store.places.pop⟩

/-- Gives up the scope at a place for good. -/
def drop (id : ScopeId) : Store :=
  ⟨store.places.modify id fun _ ↦ none⟩

/-- Puts at the next place a scope with the same bindings and the same link as another one. -/
def copy (id : ScopeId) : Store :=
  ⟨store.places.push (store.scope? id)⟩

/-! ## The chain decides -/

/-- A lookup answers with the first scope on the chain that binds the name. -/
theorem lookupWithin_eq_findSome? (name : String) (links : Nat) (id : ScopeId) :
    store.lookupWithin name links id
      = (store.chainWithin links id).findSome? fun i ↦ (store.bindings i).find? name := by
  induction links generalizing id with
  | zero =>
    simp only [lookupWithin, chainWithin, List.findSome?]
    split <;> simp_all
  | succ links ih =>
    rw [lookupWithin, chainWithin]
    split
    · split <;> simp_all
    · split <;> simp_all

theorem lookup?_eq_findSome? (id : ScopeId) (name : String) :
    store.lookup? id name = (store.chain id).findSome? fun i ↦ (store.bindings i).find? name :=
  store.lookupWithin_eq_findSome? name _ id

/-- The root is the last scope on the chain. -/
theorem getLast?_chainWithin (links : Nat) (id : ScopeId) :
    (store.chainWithin links id).getLast? = some (store.rootWithin links id) := by
  induction links generalizing id with
  | zero => rfl
  | succ links ih =>
    rw [chainWithin, rootWithin]
    split
    · rfl
    · rw [List.getLast?_cons, ih]
      rfl

end Store

end QuoteLisp
