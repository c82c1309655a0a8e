import QuoteLisp.Proofs.Scope.Chain

/-!
# Changes that stay within some scopes

`ChangesOnly P` relates a store to a later one when nothing but the bindings of scopes with the
property `P` has changed in between, and no name has been taken away from those. The places are the
same and so are all links, so every chain is still there, and a name that could be looked up can be
looked up still (`ChangesOnly.isSome_lookup?`).

A definition changes its target only (`changesOnly_bindAll`). A scope that comes and goes leaves
nothing behind, whatever was bound in it (`ChangesOnly.pop`).
-/

namespace QuoteLisp

theorem Bindings.isSome_find?_insert {bindings : Bindings} {name other : String} {value : Value}
    (h : (bindings.find? other).isSome) : ((bindings.insert name value).find? other).isSome := by
  rw [Bindings.find?_insert]
  split
  · rfl
  · exact h

namespace Store

/-- Nothing has changed but the bindings of scopes with a property, where no name was unbound. -/
structure ChangesOnly (P : ScopeId → Prop) (before after : Store) : Prop where
  nextId_eq : after.nextId = before.nextId
  parent_eq (id : ScopeId) :
    (after.scope? id).map Scope.parent = (before.scope? id).map Scope.parent
  bindings_eq (id : ScopeId) : ¬P id → after.bindings id = before.bindings id
  isSome_find? (id : ScopeId) (name : String) :
    ((before.bindings id).find? name).isSome → ((after.bindings id).find? name).isSome

variable {store before after last : Store} {P Q : ScopeId → Prop} {id : ScopeId}
  {ids : List ScopeId}

namespace ChangesOnly

protected theorem refl (P : ScopeId → Prop) (store : Store) : store.ChangesOnly P store :=
  ⟨rfl, fun _ ↦ rfl, fun _ _ ↦ rfl, fun _ _ h ↦ h⟩

protected theorem trans (h : before.ChangesOnly P after) (h' : after.ChangesOnly P last) :
    before.ChangesOnly P last where
  nextId_eq := h'.nextId_eq.trans h.nextId_eq
  parent_eq id := (h'.parent_eq id).trans (h.parent_eq id)
  bindings_eq id hid := (h'.bindings_eq id hid).trans (h.bindings_eq id hid)
  isSome_find? id name hname := h'.isSome_find? id name (h.isSome_find? id name hname)

theorem mono (h : before.ChangesOnly P after) (hPQ : ∀ id, P id → Q id) :
    before.ChangesOnly Q after :=
  { h with bindings_eq := fun id hid ↦ h.bindings_eq id fun hP ↦ hid (hPQ id hP) }

variable (h : before.ChangesOnly P after)
include h

theorem isSome_scope? (id : ScopeId) : (after.scope? id).isSome = (before.scope? id).isSome := by
  have hsome := congrArg Option.isSome (h.parent_eq id)
  rwa [Option.isSome_map, Option.isSome_map] at hsome

/-- A scope outside is the scope it was. -/
theorem scope?_eq (hid : ¬P id) : after.scope? id = before.scope? id := by
  have hparent := h.parent_eq id
  have hbindings := h.bindings_eq id hid
  rw [bindings, bindings] at hbindings
  cases hafter : after.scope? id with
  | none =>
    rw [hafter] at hparent
    exact (Option.map_eq_none_iff.mp hparent.symm).symm
  | some scope =>
    rw [hafter] at hparent hbindings
    obtain ⟨scope', hbefore, hlink⟩ := Option.map_eq_some_iff.mp hparent.symm
    rw [hbefore] at hbindings ⊢
    obtain ⟨bindings, parent⟩ := scope
    obtain ⟨bindings', parent'⟩ := scope'
    obtain rfl : bindings = bindings' := hbindings
    obtain rfl : parent' = parent := hlink
    rfl

theorem hasChain (hchain : before.HasChain id ids) : after.HasChain id ids :=
  hchain.of_links fun other _ ↦ h.parent_eq other

theorem hasLiveChain (hchain : before.HasLiveChain id ids) : after.HasLiveChain id ids := by
  refine hchain.of_links (fun other _ ↦ h.parent_eq other) fun other hlt hnone ↦ ⟨?_, ?_⟩
  · rwa [h.nextId_eq]
  · rw [← Option.not_isSome_iff_eq_none] at hnone ⊢
    rwa [h.isSome_scope?]

theorem parent?_eq (id : ScopeId) : after.parent? id = before.parent? id := by
  have hlink : ∀ store : Store, store.parent? id
      = ((store.scope? id).map Scope.parent).bind fun link ↦
          link.filter fun parent ↦ (store.scope? parent).isSome := by
    intro store
    rw [parent?, Option.bind_map]
    rfl
  simp only [hlink, h.parent_eq, h.isSome_scope?]

theorem chainWithin_eq (links : Nat) (id : ScopeId) :
    after.chainWithin links id = before.chainWithin links id := by
  induction links generalizing id with
  | zero => rfl
  | succ links ih => simp only [chainWithin, h.parent?_eq, ih]

theorem chain_eq (id : ScopeId) : after.chain id = before.chain id := by
  rw [chain, chain, show after.places.size = before.places.size from h.nextId_eq]
  exact h.chainWithin_eq _ id

theorem root_eq (id : ScopeId) : after.root id = before.root id := by
  have hlast := before.getLast?_chainWithin before.places.size id
  rw [← chain, ← h.chain_eq, chain, getLast?_chainWithin] at hlast
  exact Option.some.inj hlast

/-- A name that can be looked up can still be looked up. -/
theorem isSome_lookup? (id : ScopeId) (name : String) (hname : (before.lookup? id name).isSome) :
    (after.lookup? id name).isSome := by
  rw [lookup?_eq_findSome?, List.findSome?_isSome_iff] at hname ⊢
  obtain ⟨other, hmem, hother⟩ := hname
  exact ⟨other, h.chain_eq id ▸ hmem, h.isSome_find? other name hother⟩

end ChangesOnly

/-! ## Definitions -/

theorem changesOnly_setLocal (store : Store) (id : ScopeId) (name : String) (value : Value) :
    store.ChangesOnly (· = id) (store.setLocal id name value) where
  nextId_eq := Array.size_modify
  parent_eq other := by
    rw [scope?_setLocal]
    split
    · rw [Option.map_map]
      rfl
    · rfl
  bindings_eq other hother := by
    rw [bindings, scope?_setLocal, if_neg (Ne.symm hother), bindings]
  isSome_find? other bound hbound := by
    rw [bindings] at hbound ⊢
    rw [scope?_setLocal]
    split
    · cases hscope : store.scope? other with
      | none =>
        rw [hscope] at hbound
        exact hbound
      | some scope =>
        rw [hscope] at hbound
        exact Bindings.isSome_find?_insert hbound
    · exact hbound

/-- After a binding every other name has the value that it had. -/
theorem lookup?_setLocal_of_ne {name bound : String} (hne : name ≠ bound) (home : ScopeId)
    (value : Value) : (store.setLocal home bound value).lookup? id name = store.lookup? id name := by
  have hchanges := store.changesOnly_setLocal home bound value
  rw [lookup?_eq_findSome?, lookup?_eq_findSome?, hchanges.chain_eq]
  refine findSome?_congr fun i _ ↦ ?_
  rw [bindings_setLocal]
  split
  · rw [Bindings.find?_insert, if_neg hne]
  · rfl

/-- The scope that a definition binds names in. -/
def target (store : Store) (id : ScopeId) : Target → ScopeId
  | .globally => store.root id
  | .locally => id

/-- Where the chain of the caller ends, the target is a scope that is there. -/
theorem HasLiveChain.isSome_scope?_target (h : store.HasLiveChain id ids) (target : Target) :
    (store.scope? (store.target id target)).isSome := by
  cases target with
  | globally =>
    obtain ⟨_, _, _, hroot⟩ := h.exists_of_mem (List.mem_of_getLast? h.getLast?_eq)
    exact hroot.isSome_scope?
  | locally => exact h.isSome_scope?

/-- A change of bindings moves no target. -/
theorem ChangesOnly.target_eq (h : before.ChangesOnly P after) (id : ScopeId) (target : Target) :
    after.target id target = before.target id target := by
  cases target with
  | globally => exact h.root_eq id
  | locally => rfl

/-- Names bound one after another are all bound in one scope, because a binding moves no root. -/
theorem bindAll_eq_bindAll_locally (store : Store) (target : Target) (id : ScopeId)
    (entries : List (String × Value)) :
    store.bindAll target id entries = store.bindAll .locally (store.target id target) entries := by
  cases target with
  | locally => rfl
  | globally =>
    induction entries generalizing store with
    | nil => rfl
    | cons entry entries ih =>
      have hroot := (store.changesOnly_setLocal (store.root id) entry.1 entry.2).root_eq id
      have hrest := ih (store.setLocal (store.root id) entry.1 entry.2)
      rw [Store.target, hroot] at hrest
      exact hrest

theorem changesOnly_bindAll_locally (store : Store) (id : ScopeId)
    (entries : List (String × Value)) :
    store.ChangesOnly (· = id) (store.bindAll .locally id entries) := by
  induction entries generalizing store with
  | nil => exact .refl _ _
  | cons entry entries ih => exact (store.changesOnly_setLocal id _ _).trans (ih _)

theorem changesOnly_bindAll (store : Store) (target : Target) (id : ScopeId)
    (entries : List (String × Value)) :
    store.ChangesOnly (· = store.target id target) (store.bindAll target id entries) := by
  rw [bindAll_eq_bindAll_locally]
  exact store.changesOnly_bindAll_locally _ entries

/-! ## Scopes that come and go -/

/-- Whatever was changed while there was one more scope, the changes to the others are left once
that scope has gone. -/
theorem ChangesOnly.pop {scope : Scope} (h : (store.push scope).ChangesOnly P after) :
    store.ChangesOnly (fun id ↦ P id ∧ id ≠ store.nextId) after.pop := by
  have hsize : after.nextId = store.nextId + 1 := h.nextId_eq.trans (store.nextId_push scope)
  have hlast : after.nextId - 1 = store.nextId := by rw [hsize, Nat.add_sub_cancel]
  -- both stores are what they were with the scope, as far as the places before it go
  have hafter (id : ScopeId) :
      after.pop.scope? id = if id < store.nextId then after.scope? id else none := by
    rw [scope?_pop, hlast]
  have hbefore (id : ScopeId) :
      store.scope? id = if id < store.nextId then (store.push scope).scope? id else none := by
    split
    · rename_i hlt
      rw [scope?_push, if_neg (Nat.ne_of_lt hlt)]
    · rename_i hge
      exact Option.not_isSome_iff_eq_none.mp fun hsome ↦ hge (lt_nextId_of_isSome hsome)
  refine ⟨?_, fun id ↦ ?_, fun id hid ↦ ?_, fun id name ↦ ?_⟩
  · rw [nextId, Store.pop, Array.size_pop]
    exact hlast
  · rw [hafter, hbefore]
    split
    · exact h.parent_eq id
    · rfl
  · rw [bindings, bindings, hafter, hbefore]
    split
    · rename_i hlt
      exact h.bindings_eq id fun hP ↦ hid ⟨hP, Nat.ne_of_lt hlt⟩
    · rfl
  · rw [bindings, bindings, hafter, hbefore]
    split
    · exact h.isSome_find? id name
    · exact fun hname ↦ hname

end Store

end QuoteLisp
