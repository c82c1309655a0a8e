import QuoteLisp.Evaluation.Machine
import QuoteLisp.Evaluation.Application

/-!
# What the store holds

One equation for each change to the store says which scope is at which place afterwards. From these
follows what a change can add to the bindings, and with that a change keeps a property of everything
that is bound (`Store.AllBound`) when what it binds has the property.
-/

namespace QuoteLisp

/-! ## Bindings -/

namespace Bindings

variable {bindings : Bindings} {entry : String × Value} {name : String} {value : Value}

/-- A binding adds nothing but itself. -/
theorem eq_or_mem_of_mem_insert (h : entry ∈ insert name value bindings) :
    entry = (name, value) ∨ entry ∈ bindings := by
  induction bindings with
  | nil => exact Or.inl (List.mem_singleton.mp h)
  | cons head rest ih =>
    rw [insert] at h
    split at h
    · exact (List.mem_cons.mp h).imp_right (List.mem_cons_of_mem _)
    · split at h
      · exact List.mem_cons.mp h
      · rcases List.mem_cons.mp h with rfl | h
        · exact Or.inr List.mem_cons_self
        · exact (ih h).imp_right (List.mem_cons_of_mem _)

theorem forall_mem_insert {P : String × Value → Prop} (hnew : P (name, value))
    (h : ∀ entry ∈ bindings, P entry) : ∀ entry ∈ insert name value bindings, P entry := by
  intro entry hmem
  rcases eq_or_mem_of_mem_insert hmem with rfl | hmem
  · exact hnew
  · exact h entry hmem

/-- Everything bound by a list of entries stands in the list. -/
theorem mem_of_mem_ofList {entries : List (String × Value)} (h : entry ∈ ofList entries) :
    entry ∈ entries := by
  have hfold : ∀ (entries : List (String × Value)) (bindings : Bindings),
      entry ∈ entries.foldl (fun bindings bound ↦ insert bound.1 bound.2 bindings) bindings →
        entry ∈ bindings ∨ entry ∈ entries := by
    intro entries
    induction entries with
    | nil => exact fun _ h ↦ Or.inl h
    | cons head rest ih =>
      intro bindings h
      rcases ih _ h with h | h
      · rcases eq_or_mem_of_mem_insert h with rfl | h
        · exact Or.inr List.mem_cons_self
        · exact Or.inl h
      · exact Or.inr (List.mem_cons_of_mem _ h)
  exact (hfold entries [] h).resolve_left List.not_mem_nil

/-- Of the values that a list gives to a name the last one counts. -/
theorem find?_foldl_insert (entries : List (String × Value)) (bindings : Bindings)
    (name : String) :
    find? (entries.foldl (fun bindings bound ↦ insert bound.1 bound.2 bindings) bindings) name
      = (entries.reverse.lookup name).or (find? bindings name) := by
  induction entries generalizing bindings with
  | nil => rfl
  | cons entry entries ih =>
    rw [List.foldl_cons, ih, find?_insert, List.reverse_cons, List.lookup_append, Option.or_assoc]
    by_cases hname : name = entry.1
    · rw [if_pos hname, hname, List.lookup_cons_self, Option.some_or]
    · rw [if_neg hname, List.lookup_cons, beq_false_of_ne hname, List.lookup_nil, Option.none_or]

theorem find?_ofList (entries : List (String × Value)) (name : String) :
    find? (ofList entries) name = entries.reverse.lookup name :=
  (find?_foldl_insert entries [] name).trans Option.or_none

/-- A name that a list gives one value only, and that once at least, is bound to that value. -/
theorem find?_ofList_of_forall {entries : List (String × Value)} (hmem : (name, value) ∈ entries)
    (hunique : ∀ other, (name, other) ∈ entries → other = value) :
    find? (ofList entries) name = some value := by
  rw [find?_ofList]
  cases hlookup : entries.reverse.lookup name with
  | none =>
    have hne := List.lookup_eq_none_iff.mp hlookup _ (List.mem_reverse.mpr hmem)
    exact absurd rfl (bne_iff_ne.mp hne)
  | some other =>
    obtain ⟨before, after, hentries, -⟩ := List.lookup_eq_some_iff.mp hlookup
    refine congrArg some (hunique other (List.mem_reverse.mp ?_))
    rw [hentries]
    exact List.mem_append_right before List.mem_cons_self

theorem mem_of_find?_eq_some (h : find? bindings name = some value) : (name, value) ∈ bindings := by
  induction bindings with
  | nil => cases h
  | cons head rest ih =>
    obtain ⟨other, held⟩ := head
    rw [find?, List.lookup_cons] at h
    split at h
    · obtain rfl := Option.some.inj h
      obtain rfl := eq_of_beq ‹_›
      exact List.mem_cons_self
    · exact List.mem_cons_of_mem _ (ih h)

/-- Bindings of different names can be made in either order. -/
theorem insert_comm {other : String} (hne : name ≠ other) (value held : Value)
    (bindings : Bindings) :
    insert name value (insert other held bindings)
      = insert other held (insert name value bindings) := by
  have horder : name < other ∨ other < name := by grind
  induction bindings with
  | nil => rcases horder with hlt | hlt <;> grind [insert]
  | cons entry rest ih => rcases horder with hlt | hlt <;> grind [insert]

/-- Binding a name again leaves nothing of its first binding. -/
theorem insert_insert (name : String) (value held : Value) (bindings : Bindings) :
    insert name value (insert name held bindings) = insert name value bindings := by
  induction bindings with
  | nil => simp [insert]
  | cons entry rest ih =>
    simp only [insert]
    split
    · simp [insert]
    · split
      · simp [insert]
      · rw [insert, if_neg ‹_›, if_neg ‹_›, ih]

end Bindings

/-! ## Places -/

namespace Store

variable (store : Store) (id other : ScopeId)

theorem bindings_eq_of_scope?_eq_some {store : Store} {id : ScopeId} {scope : Scope}
    (h : store.scope? id = some scope) : store.bindings id = scope.bindings := by
  rw [bindings, h]
  rfl

theorem scope?_setLocal (name : String) (value : Value) :
    (store.setLocal id name value).scope? other
      = if id = other then
          (store.scope? other).map fun scope ↦
            { scope with bindings := scope.bindings.insert name value }
        else store.scope? other := by
  rw [scope?, setLocal, Array.getElem?_modify, scope?]
  split
  · cases store.places[other]? <;> rfl
  · rfl

theorem scope?_setParent (parent : ScopeId) :
    (store.setParent id parent).scope? other
      = if id = other then (store.scope? other).map fun scope ↦ { scope with parent := some parent }
        else store.scope? other := by
  rw [scope?, setParent, Array.getElem?_modify, scope?]
  split
  · cases store.places[other]? <;> rfl
  · rfl

theorem scope?_push (scope : Scope) :
    (store.push scope).scope? other
      = if other = store.nextId then some scope else store.scope? other := by
  rw [scope?, push, Array.getElem?_push, nextId, scope?]
  split <;> rfl

/-- A scope is the one that was put there or it was there before. -/
theorem scope?_push_eq_some {store : Store} {id : ScopeId} {new scope : Scope}
    (h : (store.push new).scope? id = some scope) :
    id = store.nextId ∧ scope = new ∨ store.scope? id = some scope := by
  rw [scope?_push] at h
  split at h
  · exact Or.inl ⟨‹_›, (Option.some.inj h).symm⟩
  · exact Or.inr h

theorem nextId_push (scope : Scope) : (store.push scope).nextId = store.nextId + 1 :=
  Array.size_push _

theorem bindings_push (scope : Scope) :
    (store.push scope).bindings other
      = if other = store.nextId then scope.bindings else store.bindings other := by
  rw [bindings, scope?_push]
  split <;> rfl

theorem scope?_pop :
    store.pop.scope? other = if other < store.nextId - 1 then store.scope? other else none := by
  rw [scope?, pop, Array.getElem?_pop, nextId, scope?]
  split <;> rfl

theorem scope?_pop_eq_some {store : Store} {id : ScopeId} {scope : Scope}
    (h : store.pop.scope? id = some scope) :
    id < store.nextId - 1 ∧ store.scope? id = some scope := by
  rw [scope?_pop] at h
  split at h
  · exact ⟨‹_›, h⟩
  · cases h

theorem bindings_setLocal (name : String) (value : Value) :
    (store.setLocal id name value).bindings other
      = if id = other ∧ (store.scope? other).isSome then (store.bindings other).insert name value
        else store.bindings other := by
  rw [bindings, scope?_setLocal, bindings]
  by_cases hid : id = other
  · rw [if_pos hid]
    cases store.scope? other with
    | none => simp
    | some scope => simp [hid]
  · rw [if_neg hid, if_neg fun h ↦ hid h.1]

theorem scope?_drop :
    (store.drop id).scope? other = if other = id then none else store.scope? other := by
  rw [scope?, drop, Array.getElem?_modify, scope?]
  by_cases hid : id = other
  · rw [if_pos hid, if_pos hid.symm]
    cases store.places[other]? <;> rfl
  · rw [if_neg hid, if_neg (Ne.symm hid)]

theorem nextId_drop : (store.drop id).nextId = store.nextId :=
  Array.size_modify

theorem bindings_pop :
    store.pop.bindings other = if other < store.nextId - 1 then store.bindings other else [] := by
  rw [bindings, scope?_pop]
  split <;> rfl

/-! ## Changes in another order -/

/-- Bindings in different scopes or of different names can be made in either order. -/
theorem setLocal_comm {name name' : String} (hne : id ≠ other ∨ name ≠ name')
    (value value' : Value) :
    (store.setLocal id name value).setLocal other name' value'
      = (store.setLocal other name' value').setLocal id name value := by
  refine congrArg mk (Array.ext_getElem? fun i ↦ ?_)
  simp only [setLocal, Array.getElem?_modify]
  by_cases hid : id = i <;> by_cases hother : other = i <;>
    simp only [hid, hother, if_true, if_false]
  -- both are made in one scope, so the names are different
  have hname : name ≠ name' := hne.resolve_left fun h ↦ h (hid.trans hother.symm)
  simp [Function.comp_def, Bindings.insert_comm hname]

/-- A binding made again in the same scope replaces the one before. -/
theorem setLocal_setLocal (name : String) (value held : Value) :
    (store.setLocal id name held).setLocal id name value = store.setLocal id name value := by
  refine congrArg mk (Array.ext_getElem? fun i ↦ ?_)
  simp only [setLocal, Array.getElem?_modify]
  split
  · simp [Function.comp_def, Bindings.insert_insert]
  · rfl

/-- A binding in a scope that is there can be made before or after a new scope is put up. -/
theorem push_setLocal {store : Store} {id : ScopeId} (hlt : id < store.nextId) (name : String)
    (value : Value) (scope : Scope) :
    (store.setLocal id name value).push scope = (store.push scope).setLocal id name value := by
  refine congrArg mk (Array.ext_getElem? fun i ↦ ?_)
  simp only [setLocal, push, Array.getElem?_modify, Array.getElem?_push, Array.size_modify]
  grind [nextId]

theorem pop_setLocal (name : String) (value : Value) :
    (store.setLocal id name value).pop = store.pop.setLocal id name value := by
  refine congrArg mk (Array.ext_getElem? fun i ↦ ?_)
  simp only [setLocal, pop, Array.getElem?_modify, Array.getElem?_pop, Array.size_modify]
  grind

/-! ## Looking names up -/

theorem findSome?_cons_eq_or {α β : Type} (f : α → Option β) (a : α) (as : List α) :
    (a :: as).findSome? f = (f a).or (as.findSome? f) := by
  rw [List.findSome?_cons]
  cases f a <;> rfl

theorem findSome?_congr {α β : Type} {f g : α → Option β} {as : List α}
    (h : ∀ a ∈ as, f a = g a) : as.findSome? f = as.findSome? g := by
  induction as with
  | nil => rfl
  | cons a as ih =>
    obtain ⟨ha, has⟩ := List.forall_mem_cons.mp h
    rw [findSome?_cons_eq_or, findSome?_cons_eq_or, ha, ih has]

/-- A scope's own bindings come before those around it. -/
theorem lookup?_of_find? {store : Store} {id : ScopeId} {name : String} {value : Value}
    (h : (store.bindings id).find? name = some value) : store.lookup? id name = some value := by
  rw [lookup?]
  cases store.places.size with
  | zero => exact h
  | succ links => rw [lookupWithin, h]

/-! ## Properties of everything that is bound -/

/-- Whatever some scope of the store binds has the property. -/
def AllBound (P : String × Value → Prop) (store : Store) : Prop :=
  ∀ id, ∀ entry ∈ store.bindings id, P entry

variable {P : String × Value → Prop} {store}

theorem allBound_iff :
    store.AllBound P ↔ ∀ id scope, store.scope? id = some scope →
      ∀ entry ∈ scope.bindings, P entry := by
  refine forall_congr' fun id ↦ ?_
  rw [bindings]
  cases store.scope? id with
  | none => simp
  | some scope => simp

theorem AllBound.setLocal (h : store.AllBound P) {name : String} {value : Value}
    (hentry : P (name, value)) : (store.setLocal id name value).AllBound P := by
  rw [allBound_iff] at h ⊢
  intro other scope hscope entry hmem
  rw [scope?_setLocal] at hscope
  split at hscope
  · obtain ⟨before, hbefore, rfl⟩ := Option.map_eq_some_iff.mp hscope
    exact Bindings.forall_mem_insert hentry (h _ before hbefore) entry hmem
  · exact h _ scope hscope entry hmem

theorem AllBound.bindAll {entries : List (String × Value)} (h : store.AllBound P)
    (hentries : ∀ entry ∈ entries, P entry) (target : Target) :
    (store.bindAll target id entries).AllBound P := by
  induction entries generalizing store with
  | nil => exact h
  | cons entry entries ih =>
    obtain ⟨hentry, hentries⟩ := List.forall_mem_cons.mp hentries
    rw [Store.bindAll, List.foldl_cons]
    cases target with
    | globally => exact ih (h.setLocal _ hentry) hentries
    | locally => exact ih (h.setLocal _ hentry) hentries

theorem AllBound.push (h : store.AllBound P) {scope : Scope}
    (hscope : ∀ entry ∈ scope.bindings, P entry) : (store.push scope).AllBound P := by
  rw [allBound_iff] at h ⊢
  intro id other hother
  rcases scope?_push_eq_some hother with ⟨-, rfl⟩ | hother
  · exact hscope
  · exact h id other hother

theorem AllBound.pop (h : store.AllBound P) : store.pop.AllBound P := by
  rw [allBound_iff] at h ⊢
  exact fun id scope hscope ↦ h id scope (scope?_pop_eq_some hscope).2

/-- A name that is looked up has a value that some scope binds. -/
theorem AllBound.of_lookup? (h : store.AllBound P) {name : String} {value : Value}
    (hlookup : store.lookup? id name = some value) : P (name, value) := by
  rw [lookup?_eq_findSome?] at hlookup
  obtain ⟨scope, -, hfind⟩ := List.exists_of_findSome?_eq_some hlookup
  exact h scope _ (Bindings.mem_of_find?_eq_some hfind)

end Store

/-- A machine starts with the primitive operations bound to their names and nothing else. -/
theorem allBound_start {P : String × Value → Prop}
    (h : ∀ operation : Primitive, P (operation.name, .primitive operation)) (output : Output) :
    (Machine.start output).store.AllBound P := by
  have hempty : (⟨#[]⟩ : Store).AllBound P := by
    intro id entry hentry
    rw [Store.bindings, Store.scope?, Array.getElem?_empty] at hentry
    cases hentry
  refine hempty.push fun entry hentry ↦ ?_
  obtain ⟨operation, -, rfl⟩ := List.mem_map.mp (Bindings.mem_of_mem_ofList hentry)
  exact h operation

/-- In a fresh machine every primitive operation is found under its name. -/
theorem lookup?_start (operation : Primitive) (output : Output) :
    (Machine.start output).store.lookup? globalScope operation.name
      = some (.primitive operation) := by
  have hfind : Bindings.find? initialBindings operation.name = some (.primitive operation) := by
    refine Bindings.find?_ofList_of_forall (List.mem_map.mpr ⟨operation, operation.mem_all, rfl⟩) ?_
    intro other hother
    obtain ⟨operation', -, heq⟩ := List.mem_map.mp hother
    obtain ⟨hname, rfl⟩ := Prod.mk.inj heq
    have hsame := Primitive.ofName?_name operation'
    rw [hname, Primitive.ofName?_name] at hsame
    rw [Option.some.inj hsame]
  exact Store.lookup?_of_find? hfind

end QuoteLisp
