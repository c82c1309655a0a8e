import Mathlib.Algebra.Order.BigOperators.Group.Finset
import QuoteLisp.Proofs.Evaluation.Frame
import QuoteLisp.Proofs.Memory.Eval

/-!
# Stores in memory

A store in memory has the scopes that the evaluator works in and, besides, those that closures are
linked to. It represents a store with plain values when each scope of that has a place, with the
same link and, but for links in its values, the same bindings (`Store.Represents`).

## Links are counted

Every closure must have a scope of its own (`Store.Houses`). That cannot be seen from the store
alone, because there are also closures that someone holds in the meantime. How many of these are
linked to a place is given by `held`, and what is said is said of the sum. When a held value is
bound, its links move from `held` to the store, and the sum stays the same.

## Vacant scopes

A closure that is given up leaves its scope vacant, and nobody can tell what happens to it from
then on. It can get other bindings (`setBindings`), it can go to another closure (`adopt`), or it
becomes the place of a frame (`enter`), until that is left again (`leave`).
-/

namespace QuoteLisp

/-! ## Links from a store -/

namespace Store

/-- How often the values bound in a store have a closure that is linked to the place. -/
def links (place : Option ScopeId) (store : Store) : Nat :=
  ∑ id ∈ Finset.range store.nextId, (store.bindings id).links place

variable {store before after : Store} {id : ScopeId} {place : Option ScopeId}

theorem bindings_eq_nil_of_le (h : store.nextId ≤ id) : store.bindings id = [] := by
  rw [bindings, scope?, Array.getElem?_eq_none h]
  rfl

theorem links_bindings_le (store : Store) (id : ScopeId) (place : Option ScopeId) :
    (store.bindings id).links place ≤ store.links place := by
  by_cases hid : id < store.nextId
  · exact Finset.single_le_sum (f := fun id ↦ (store.bindings id).links place)
      (fun _ _ ↦ Nat.zero_le _) (Finset.mem_range.mpr hid)
  · rw [bindings_eq_nil_of_le (Nat.le_of_not_lt hid)]
    exact Nat.zero_le _

theorem links_eq_zero_of_allBound (h : store.AllBound fun entry ↦ entry.2.links place = 0) :
    store.links place = 0 := by
  refine Finset.sum_eq_zero fun id _ ↦ ?_
  have hbindings := h id
  generalize store.bindings id = bindings at hbindings
  induction bindings with
  | nil => exact Value.linksAll_nil
  | cons entry bindings ih =>
    obtain ⟨hentry, hbindings⟩ := List.forall_mem_cons.mp hbindings
    rw [Bindings.links, List.map_cons, Value.linksAll_cons, hentry, Nat.zero_add]
    exact ih hbindings

/-- A change of one scope's bindings changes the links by what it changes those of the scope. -/
theorem links_add_of_bindings_eq (hnextId : after.nextId = before.nextId)
    (hothers : ∀ other, other ≠ id → after.bindings other = before.bindings other)
    (place : Option ScopeId) :
    after.links place + (before.bindings id).links place
      = before.links place + (after.bindings id).links place := by
  by_cases hid : id < before.nextId
  · have hmem := Finset.mem_range.mpr hid
    have hrest : ∑ other ∈ (Finset.range before.nextId).erase id, (after.bindings other).links place
        = ∑ other ∈ (Finset.range before.nextId).erase id, (before.bindings other).links place :=
      Finset.sum_congr rfl fun other hother ↦ by rw [hothers other (Finset.ne_of_mem_erase hother)]
    rw [links, links, hnextId, ← Finset.add_sum_erase _ _ hmem, ← Finset.add_sum_erase _ _ hmem,
      hrest]
    omega
  · have hle := Nat.le_of_not_lt hid
    have hboth : ∀ other, after.bindings other = before.bindings other := fun other ↦ by
      by_cases heq : other = id
      · rw [heq, bindings_eq_nil_of_le hle, bindings_eq_nil_of_le (hnextId ▸ hle)]
      · exact hothers other heq
    rw [links, links, hnextId]
    simp only [hboth]

theorem links_push (store : Store) (scope : Scope) (place : Option ScopeId) :
    (store.push scope).links place = store.links place + scope.bindings.links place := by
  rw [links, nextId_push, Finset.sum_range_succ, bindings_push, if_pos rfl, links]
  congr 1
  refine Finset.sum_congr rfl fun id hid ↦ ?_
  rw [bindings_push, if_neg (Nat.ne_of_lt (Finset.mem_range.mp hid))]

/-- Every closure that is bound in the store, and every one that is counted by `held` besides, has a
scope of its own: a scope without a parent, to which no other of these closures is linked. -/
structure Houses (store : Store) (held : Option ScopeId → Nat) : Prop where
  linked : store.links none + held none = 0
  unshared (id : ScopeId) : store.links (some id) + held (some id) ≤ 1
  parentless (id : ScopeId) : 0 < store.links (some id) + held (some id) →
    ∃ bindings, store.scope? id = some ⟨bindings, none⟩

/-- Every such closure has a scope of its own, and none of these scopes is among the given ones. -/
structure HousesApart (store : Store) (held : Option ScopeId → Nat) (ids : List ScopeId) : Prop
    extends store.Houses held where
  not_mem (id : ScopeId) : 0 < store.links (some id) + held (some id) → id ∉ ids

/-- A store of linked values represents one of plain values. Each scope of the second has its place
in the first, with the same names, and it is none of the scopes that closures are linked to. What
those hold is given by `contents`. -/
structure Represents (place : ScopeId → ScopeId) (contents : ScopeId → Bindings)
    (held : Option ScopeId → Nat) (plain memory : Store) : Prop where
  houses : memory.Houses held
  contents_eq (id : ScopeId) : 0 < memory.links (some id) + held (some id) →
    contents id = (memory.bindings id).unlink contents
  exists_scope? (id : ScopeId) (scope : Scope) : plain.scope? id = some scope →
    ∃ bindings, memory.scope? (place id) = some ⟨bindings, scope.parent.map place⟩ ∧
      scope.bindings = bindings.unlink contents
  parent_lt (id : ScopeId) (scope : Scope) : plain.scope? id = some scope →
    ∀ parent ∈ scope.parent, parent < plain.nextId
  place_injective (id other : ScopeId) : (plain.scope? id).isSome → (plain.scope? other).isSome →
    place id = place other → id = other
  place_ne (id other : ScopeId) : 0 < memory.links (some id) + held (some id) →
    (plain.scope? other).isSome → place other ≠ id

variable {place : ScopeId → ScopeId} {contents : ScopeId → Bindings}
  {held held' : Option ScopeId → Nat} {plain plain' memory memory' : Store} {own scope : ScopeId}
  {ids : List ScopeId}

theorem Houses.lt_nextId (h : store.Houses held)
    (hid : 0 < store.links (some id) + held (some id)) : id < store.nextId := by
  obtain ⟨bindings, hscope⟩ := h.parentless id hid
  exact lt_nextId_of_isSome (Option.isSome_of_eq_some hscope)

/-- Where links only become fewer, closures keep the scopes of their own. -/
theorem Houses.of_le (h : store.Houses held)
    (hlinks : ∀ place, after.links place + held' place ≤ store.links place + held place)
    (hown : ∀ id, 0 < after.links (some id) + held' (some id) →
      after.scope? id = store.scope? id) : after.Houses held' where
  linked := Nat.le_zero.mp ((hlinks none).trans h.linked.le)
  unshared id := (hlinks _).trans (h.unshared id)
  parentless id hid := by
    rw [hown id hid]
    exact h.parentless id (hid.trans_le (hlinks _))

theorem bindings_eq_of_scope? (h : store.scope? id = after.scope? id) :
    store.bindings id = after.bindings id := by
  rw [bindings, h, bindings]

namespace Represents

/-- A change that adds no links and leaves alone the scopes of the closures that are left. -/
theorem of_le (h : Represents place contents held plain memory)
    (hlinks : ∀ place, memory'.links place + held' place ≤ memory.links place + held place)
    (hown : ∀ id, 0 < memory'.links (some id) + held' (some id) →
      memory'.scope? id = memory.scope? id)
    (hlive : ∀ id, (plain'.scope? id).isSome → (plain.scope? id).isSome)
    (hscopes : ∀ id scope, plain'.scope? id = some scope →
      ∃ bindings, memory'.scope? (place id) = some ⟨bindings, scope.parent.map place⟩ ∧
        scope.bindings = bindings.unlink contents)
    (hparents : ∀ id scope, plain'.scope? id = some scope →
      ∀ parent ∈ scope.parent, parent < plain'.nextId) :
    Represents place contents held' plain' memory' where
  houses := h.houses.of_le hlinks hown
  contents_eq id hid := by
    rw [bindings_eq_of_scope? (hown id hid)]
    exact h.contents_eq id (hid.trans_le (hlinks _))
  exists_scope? := hscopes
  parent_lt := hparents
  place_injective id other hid hother :=
    h.place_injective id other (hlive id hid) (hlive other hother)
  place_ne id other hid hother :=
    h.place_ne id other (hid.trans_le (hlinks _)) (hlive other hother)

/-- Values that are no longer held. -/
theorem mono (h : Represents place contents held plain memory)
    (hheld : ∀ place, held' place ≤ held place) :
    Represents place contents held' plain memory :=
  h.of_le (fun _ ↦ Nat.add_le_add_left (hheld _) _) (fun _ _ ↦ rfl) (fun _ hid ↦ hid)
    h.exists_scope? h.parent_lt

section

variable (h : Represents place contents held plain memory)
include h

theorem bindings_eq (hid : (plain.scope? id).isSome) :
    plain.bindings id = (memory.bindings (place id)).unlink contents := by
  obtain ⟨scope, hscope⟩ := Option.isSome_iff_exists.mp hid
  obtain ⟨bindings, hmemory, hbindings⟩ := h.exists_scope? id scope hscope
  rw [bindings_eq_of_scope?_eq_some hscope, bindings_eq_of_scope?_eq_some hmemory, hbindings]

/-- A chain is there in memory, too. -/
theorem hasChain (hchain : plain.HasChain scope ids) :
    memory.HasChain (place scope) (ids.map place) := by
  induction hchain with
  | root hscope =>
    obtain ⟨bindings, hmemory, -⟩ := h.exists_scope? _ _ hscope
    exact .root hmemory
  | link hscope _ ih =>
    obtain ⟨bindings, hmemory, -⟩ := h.exists_scope? _ _ hscope
    exact .link hmemory ih

/-- The scopes of closures are not on the chain. -/
theorem housesApart (hchain : plain.HasChain scope ids) :
    memory.HousesApart held (ids.map place) where
  toHouses := h.houses
  not_mem id hid hmem := by
    obtain ⟨other, hother, rfl⟩ := List.mem_map.mp hmem
    obtain ⟨_, _, _, hchain'⟩ := hchain.live.exists_of_mem hother
    exact h.place_ne _ other hid hchain'.isSome_scope? rfl

theorem root_eq (hchain : plain.HasChain scope ids) :
    memory.root (place scope) = place (plain.root scope) := by
  have hlast := (h.hasChain hchain).getLast?_eq
  rw [List.getLast?_map, hchain.getLast?_eq] at hlast
  exact (Option.some.inj hlast).symm

theorem target_eq (hchain : plain.HasChain scope ids) (target : Target) :
    memory.target (place scope) target = place (plain.target scope target) := by
  cases target with
  | globally => exact h.root_eq hchain
  | locally => rfl

/-- A name has the same value, seen from memory, but for links. -/
theorem lookup?_eq (hchain : plain.HasChain scope ids) (name : String) :
    plain.lookup? scope name
      = (memory.lookup? (place scope) name).map (Value.unlink contents) := by
  rw [hchain.live.lookup?_eq, (h.hasChain hchain).live.lookup?_eq, List.findSome?_map,
    List.map_findSome?]
  refine findSome?_congr fun id hid ↦ ?_
  obtain ⟨_, _, _, hother⟩ := hchain.live.exists_of_mem hid
  rw [h.bindings_eq hother.isSome_scope?, Bindings.find?_unlink]
  rfl

end

end Represents

/-- A name that is looked up has a value that is bound in the store. -/
theorem links_le_of_lookup? {name : String} {v : Value} (h : store.lookup? scope name = some v)
    (place : Option ScopeId) : v.links place ≤ store.links place := by
  rw [lookup?_eq_findSome?] at h
  obtain ⟨id, -, hfind⟩ := List.exists_of_findSome?_eq_some h
  have hmem := List.mem_map_of_mem (f := Prod.snd) (Bindings.mem_of_find?_eq_some hfind)
  exact (Value.links_le_linksAll hmem).trans (store.links_bindings_le id place)

/-- A closure that can be looked up has a scope in memory. -/
theorem Represents.exists_links_of_lookup? (h : Represents place contents held plain memory)
    (hchain : plain.HasChain scope ids) {name : String} {formals : List String}
    {body : List Value} {bound : Bindings}
    (hlookup : plain.lookup? scope name = some (.closure formals body bound)) :
    ∃ own, 0 < memory.links (some own) := by
  rw [h.lookup?_eq hchain] at hlookup
  obtain ⟨w, hw, hclosure⟩ := Option.map_eq_some_iff.mp hlookup
  have hfunction : w.unlink contents = (Function.closure ⟨formals, body, bound⟩).toValue := hclosure
  obtain ⟨⟨⟩ | ⟨formals, body, link⟩, rfl, -⟩ := Value.exists_function_of_unlink_eq hfunction
  · cases hclosure
  · have hlinks := links_le_of_lookup? hw (linked? link)
    rw [Function.toValue, Value.links_closure, if_pos rfl] at hlinks
    cases hlink : linked? link with
    | none =>
      have := h.houses.linked
      rw [hlink] at hlinks
      omega
    | some own =>
      rw [hlink] at hlinks
      exact ⟨own, by omega⟩

/-! ## Definitions -/

theorem links_setLocal_le (store : Store) (id : ScopeId) (name : String) (v : Value)
    (place : Option ScopeId) :
    (store.setLocal id name v).links place ≤ store.links place + v.links place := by
  have hchanges := store.changesOnly_setLocal id name v
  have hlinks := links_add_of_bindings_eq hchanges.nextId_eq hchanges.bindings_eq place
  have hbindings : ((store.setLocal id name v).bindings id).links place
      ≤ v.links place + (store.bindings id).links place := by
    rw [bindings_setLocal]
    split
    · exact Bindings.links_insert_le name v
    · exact Nat.le_add_left _ _
  omega

namespace Represents

/-- A value that was held is bound. -/
theorem setLocal {v : Value}
    (h : Represents place contents (fun p ↦ v.links p + held p) plain memory)
    (hid : (plain.scope? id).isSome) (name : String) :
    Represents place contents held (plain.setLocal id name (v.unlink contents))
      (memory.setLocal (place id) name v) := by
  have hlinks (p : Option ScopeId) : (memory.setLocal (place id) name v).links p + held p
      ≤ memory.links p + (v.links p + held p) := by
    have := memory.links_setLocal_le (place id) name v p
    omega
  have hchanges := plain.changesOnly_setLocal id name (v.unlink contents)
  refine h.of_le hlinks (fun other hother ↦ ?_) (fun other hother ↦ ?_)
    (fun other scope hscope ↦ ?_) fun other scope hscope ↦ ?_
  · rw [scope?_setLocal, if_neg (h.place_ne other id (hother.trans_le (hlinks _)) hid)]
  · rwa [hchanges.isSome_scope?] at hother
  · have hsome : (plain.scope? other).isSome := by
      rw [← hchanges.isSome_scope?, hscope]
      rfl
    rw [scope?_setLocal] at hscope ⊢
    by_cases heq : id = other
    · subst heq
      rw [if_pos rfl] at hscope ⊢
      obtain ⟨before, hbefore, rfl⟩ := Option.map_eq_some_iff.mp hscope
      obtain ⟨bindings, hmemory, hbindings⟩ := h.exists_scope? id before hbefore
      rw [hmemory]
      exact ⟨_, rfl, by rw [hbindings, Bindings.insert_unlink]⟩
    · rw [if_neg heq] at hscope
      rw [if_neg fun hplace ↦ heq (h.place_injective id other hid hsome hplace)]
      exact h.exists_scope? other scope hscope
  · have hlink := hchanges.parent_eq other
    rw [hscope] at hlink
    obtain ⟨before, hbefore, hparent⟩ := Option.map_eq_some_iff.mp hlink.symm
    rw [hchanges.nextId_eq, ← hparent]
    exact h.parent_lt other before hbefore

/-- Values that were held are bound, one after another. -/
theorem bindAll {entries : Bindings}
    (h : Represents place contents (fun p ↦ Bindings.links p entries + held p) plain memory)
    (hchain : plain.HasChain scope ids) (target : Target) :
    Represents place contents held
      (plain.bindAll target scope (Bindings.unlink contents entries))
      (memory.bindAll target (place scope) entries) := by
  rw [bindAll_eq_bindAll_locally, memory.bindAll_eq_bindAll_locally, h.target_eq hchain]
  have hid := hchain.live.isSome_scope?_target target
  generalize plain.target scope target = id at hid
  clear hchain
  induction entries generalizing plain memory with
  | nil => exact h.mono fun _ ↦ Nat.le_add_left _ _
  | cons entry entries ih =>
    have hfirst : Represents place contents
        (fun p ↦ entry.2.links p + (Bindings.links p entries + held p)) plain memory :=
      h.mono fun p ↦ by simp [Bindings.links, Nat.add_assoc]
    refine ih (hfirst.setLocal hid entry.1) ?_
    rwa [(plain.changesOnly_setLocal id entry.1 _).isSome_scope?]

end Represents

/-! ## Scopes of closures -/

theorem scope?_setBindings (store : Store) (id other : ScopeId) (bindings : Bindings) :
    (store.setBindings id bindings).scope? other
      = if id = other then (store.scope? other).map fun scope ↦ { scope with bindings }
        else store.scope? other := by
  rw [scope?, setBindings, Array.getElem?_modify, scope?]
  split
  · cases store.places[other]? <;> rfl
  · rfl

theorem nextId_setBindings (store : Store) (id : ScopeId) (bindings : Bindings) :
    (store.setBindings id bindings).nextId = store.nextId :=
  Array.size_modify

theorem nextId_setParent (store : Store) (id parent : ScopeId) :
    (store.setParent id parent).nextId = store.nextId :=
  Array.size_modify

theorem bindings_setParent (store : Store) (id parent other : ScopeId) :
    (store.setParent id parent).bindings other = store.bindings other := by
  rw [bindings, scope?_setParent, bindings]
  split
  · cases store.scope? other <;> rfl
  · rfl

theorem links_setParent (store : Store) (id parent : ScopeId) (place : Option ScopeId) :
    (store.setParent id parent).links place = store.links place := by
  rw [links, nextId_setParent, links]
  exact Finset.sum_congr rfl fun other _ ↦ by rw [bindings_setParent]

theorem links_drop_le (store : Store) (id : ScopeId) (place : Option ScopeId) :
    (store.drop id).links place ≤ store.links place := by
  rw [links, nextId_drop, links]
  refine Finset.sum_le_sum fun other _ ↦ ?_
  rw [bindings, scope?_drop]
  split
  · exact Nat.zero_le _
  · exact le_rfl

/-- Places that are there keep theirs when a new one gets one. -/
theorem map_update_of_forall_lt {parent : Option ScopeId} {next : ScopeId}
    (h : ∀ id ∈ parent, id < next) (place : ScopeId → ScopeId) (own : ScopeId) :
    parent.map (Function.update place next own) = parent.map place :=
  Option.map_congr fun id hid ↦ Function.update_of_ne (Nat.ne_of_lt (h id hid)) _ _

/-- A scope without a parent that no closure is linked to and that is not the place of another one.
It binds the given names. -/
structure Vacant (place : ScopeId → ScopeId) (held : Option ScopeId → Nat) (plain memory : Store)
    (own : ScopeId) (bindings : Bindings) : Prop where
  scope?_eq : memory.scope? own = some ⟨bindings, none⟩
  unlinked : memory.links (some own) + held (some own) = 0
  place_ne (other : ScopeId) : (plain.scope? other).isSome → place other ≠ own

/-- Closures have other scopes than a vacant one. -/
theorem Vacant.ne {bindings : Bindings} (h : Vacant place held plain memory own bindings)
    (hid : 0 < memory.links (some id) + held (some id)) : id ≠ own := by
  rintro rfl
  exact Nat.ne_of_gt hid h.unlinked

namespace Represents

/-- It does not matter what a place is said to hold that no closure is linked to. -/
theorem congr_contents {contents' : ScopeId → Bindings}
    (h : Represents place contents held plain memory)
    (hcontents : ∀ id, 0 < memory.links (some id) + held (some id) →
      contents id = contents' id) : Represents place contents' held plain memory := by
  have hbindings (id : ScopeId) :
      (memory.bindings id).unlink contents = (memory.bindings id).unlink contents' :=
    Bindings.unlink_congr fun other hother ↦ hcontents other <|
      Nat.add_pos_left (hother.trans_le (memory.links_bindings_le id _)) _
  refine { h with contents_eq := fun id hid ↦ ?_, exists_scope? := fun id scope hscope ↦ ?_ }
  · rw [← hcontents id hid, h.contents_eq id hid, hbindings]
  · obtain ⟨bindings, hmemory, heq⟩ := h.exists_scope? id scope hscope
    have hsame := hbindings (place id)
    rw [bindings_eq_of_scope?_eq_some hmemory] at hsame
    exact ⟨bindings, hmemory, heq.trans hsame⟩

/-- A closure may be linked to a vacant scope, and then it holds what the scope binds. -/
theorem adopt {bindings : Bindings} (h : Represents place contents held plain memory)
    (hown : Vacant place held plain memory own bindings) :
    Represents place (Function.update contents own (bindings.unlink contents))
      (fun p ↦ (if some own = p then 1 else 0) + held p) plain memory := by
  have h' : Represents place (Function.update contents own (bindings.unlink contents)) held plain
      memory := h.congr_contents fun id hid ↦ (Function.update_of_ne (hown.ne hid) _ _).symm
  -- a closure is linked to the scope now, and to the others as before
  have hold {id : ScopeId} (hid : id ≠ own)
      (hlinks : 0 < memory.links (some id) + ((if some own = some id then 1 else 0) +
        held (some id))) : 0 < memory.links (some id) + held (some id) := by
    rwa [if_neg fun heq ↦ hid (Option.some.inj heq).symm, Nat.zero_add] at hlinks
  refine ⟨⟨?_, fun id ↦ ?_, fun id hid ↦ ?_⟩, fun id hid ↦ ?_, h'.exists_scope?, h.parent_lt,
    h.place_injective, fun id other hid hother ↦ ?_⟩
  · rw [if_neg (Option.some_ne_none _), Nat.zero_add]
    exact h.houses.linked
  · by_cases heq : own = id
    · rw [if_pos (congrArg some heq), Nat.add_left_comm, ← heq, hown.unlinked]
    · rw [if_neg fun hsome ↦ heq (Option.some.inj hsome), Nat.zero_add]
      exact h.houses.unshared id
  · by_cases heq : id = own
    · exact ⟨bindings, heq ▸ hown.scope?_eq⟩
    · exact h.houses.parentless id (hold heq hid)
  · by_cases heq : id = own
    · have hbindings : memory.bindings own = bindings :=
        bindings_eq_of_scope?_eq_some hown.scope?_eq
      have hlinks := memory.links_bindings_le own
      rw [hbindings] at hlinks
      rw [heq, Function.update_self, hbindings]
      exact Bindings.unlink_congr fun other hother ↦
        (Function.update_of_ne (hown.ne (Nat.add_pos_left (hother.trans_le (hlinks _)) _)) _ _).symm
    · exact h'.contents_eq id (hold heq hid)
  · by_cases heq : id = own
    · exact heq ▸ hown.place_ne other hother
    · exact h.place_ne id other (hold heq hid) hother

theorem place_lt_nextId (h : Represents place contents held plain memory) {id : ScopeId}
    (hid : (plain.scope? id).isSome) : place id < memory.nextId := by
  obtain ⟨scope, hscope⟩ := Option.isSome_iff_exists.mp hid
  obtain ⟨_, hmemory, -⟩ := h.exists_scope? id scope hscope
  exact lt_nextId_of_isSome (Option.isSome_of_eq_some hmemory)

/-- Values that were held are bound in a new scope, which is vacant. -/
theorem push {bindings : Bindings}
    (h : Represents place contents (fun p ↦ bindings.links p + held p) plain memory) :
    Represents place contents held plain (memory.push ⟨bindings, none⟩) ∧
      Vacant place held plain (memory.push ⟨bindings, none⟩) memory.nextId bindings := by
  have hlinks (p : Option ScopeId) : (memory.push ⟨bindings, none⟩).links p + held p
      = memory.links p + (bindings.links p + held p) := by
    rw [links_push, Nat.add_assoc]
  have hscope (id : ScopeId) (hid : id < memory.nextId) :
      (memory.push ⟨bindings, none⟩).scope? id = memory.scope? id := by
    rw [scope?_push, if_neg (Nat.ne_of_lt hid)]
  refine ⟨h.of_le (fun p ↦ (hlinks p).le) (fun id hid ↦ ?_) (fun _ hid ↦ hid)
    (fun id scope hid ↦ ?_) h.parent_lt, ?_, ?_,
    fun other hother ↦ Nat.ne_of_lt (h.place_lt_nextId hother)⟩
  · exact hscope id (h.houses.lt_nextId (hlinks _ ▸ hid))
  · rw [hscope _ (h.place_lt_nextId (Option.isSome_of_eq_some hid))]
    exact h.exists_scope? id scope hid
  · rw [scope?_push, if_pos rfl]
  · rw [hlinks]
    exact Nat.eq_zero_of_not_pos fun hid ↦ Nat.lt_irrefl _ (h.houses.lt_nextId hid)

/-- When the closure that is linked to a scope is given up, other names can be bound there, for
which values were held or bound there before. The scope is vacant then. -/
theorem setBindings {bindings : Bindings} (h : Represents place contents held plain memory)
    (hle : ∀ p, bindings.links p + (if some own = p then 1 else 0) + held' p
      ≤ (memory.bindings own).links p + held p) :
    Represents place contents held' plain (memory.setBindings own bindings) ∧
      Vacant place held' plain (memory.setBindings own bindings) own bindings := by
  have hheld : 0 < memory.links (some own) + held (some own) := by
    have hself := hle (some own)
    have hlinks := memory.links_bindings_le own (some own)
    rw [if_pos rfl] at hself
    omega
  obtain ⟨before, hbefore⟩ := h.houses.parentless own hheld
  have hscope (id : ScopeId) (hid : id ≠ own) :
      (memory.setBindings own bindings).scope? id = memory.scope? id := by
    rw [scope?_setBindings, if_neg hid.symm]
  have hown : (memory.setBindings own bindings).scope? own = some ⟨bindings, none⟩ := by
    rw [scope?_setBindings, if_pos rfl, hbefore]
    rfl
  have hlinks (p : Option ScopeId) : (memory.setBindings own bindings).links p +
      (if some own = p then 1 else 0) + held' p ≤ memory.links p + held p := by
    have hadd := links_add_of_bindings_eq (memory.nextId_setBindings own bindings)
      (fun other hother ↦ bindings_eq_of_scope? (hscope other hother)) p
    have hbindings : (memory.setBindings own bindings).bindings own = bindings :=
      bindings_eq_of_scope?_eq_some hown
    rw [hbindings] at hadd
    have := hle p
    omega
  have hfree : (memory.setBindings own bindings).links (some own) + held' (some own) = 0 := by
    have hself := hlinks (some own)
    have hunshared := h.houses.unshared own
    rw [if_pos rfl] at hself
    omega
  refine ⟨h.of_le (fun p ↦ ?_) (fun id hid ↦ hscope id ?_) (fun _ hid ↦ hid)
    (fun id scope hid ↦ ?_) h.parent_lt, hown, hfree, fun other ↦ h.place_ne own other hheld⟩
  · exact (Nat.add_le_add_right (Nat.le_add_right _ _) _).trans (hlinks p)
  · rintro rfl
    exact Nat.ne_of_gt hid hfree
  · rw [hscope _ (h.place_ne own id hheld (Option.isSome_of_eq_some hid))]
    exact h.exists_scope? id scope hid

/-- A vacant scope becomes the place of a new scope around which is the caller's. -/
theorem enter {bound : Bindings} {caller : ScopeId}
    (h : Represents place contents held plain memory)
    (hown : Vacant place held plain memory own bound) (hcaller : (plain.scope? caller).isSome) :
    Represents (Function.update place plain.nextId own) contents held
      (plain.push ⟨bound.unlink contents, some caller⟩) (memory.setParent own (place caller)) := by
  have hlt {id : ScopeId} (hid : (plain.scope? id).isSome) : id < plain.nextId :=
    lt_nextId_of_isSome hid
  have hplace {id : ScopeId} (hid : (plain.scope? id).isSome) :
      Function.update place plain.nextId own id = place id :=
    Function.update_of_ne (Nat.ne_of_lt (hlt hid)) _ _
  have hscope {id : ScopeId} (hid : id ≠ own) :
      (memory.setParent own (place caller)).scope? id = memory.scope? id := by
    rw [scope?_setParent, if_neg hid.symm]
  have hlive {id : ScopeId}
      (hid : ((plain.push ⟨bound.unlink contents, some caller⟩).scope? id).isSome) :
      id = plain.nextId ∨ (plain.scope? id).isSome := by
    obtain ⟨scope, hscope⟩ := Option.isSome_iff_exists.mp hid
    exact (scope?_push_eq_some hscope).imp And.left Option.isSome_of_eq_some
  refine ⟨h.houses.of_le (fun p ↦ by rw [links_setParent]) fun id hid ↦ ?_, fun id hid ↦ ?_,
    fun id scope hid ↦ ?_, fun id scope hid ↦ ?_, fun id other hid hother heq ↦ ?_,
    fun id other hid hother ↦ ?_⟩
  · rw [links_setParent] at hid
    exact hscope (hown.ne hid)
  · rw [links_setParent] at hid
    rw [bindings_setParent]
    exact h.contents_eq id hid
  · rcases scope?_push_eq_some hid with ⟨rfl, rfl⟩ | hid
    · refine ⟨bound, ?_, rfl⟩
      rw [Function.update_self, scope?_setParent, if_pos rfl, hown.scope?_eq, Option.map_some,
        Option.map_some, hplace hcaller]
    · obtain ⟨bindings, hmemory, hbindings⟩ := h.exists_scope? id scope hid
      have hsome := Option.isSome_of_eq_some hid
      refine ⟨bindings, ?_, hbindings⟩
      rw [hplace hsome, hscope (hown.place_ne id hsome), hmemory,
        map_update_of_forall_lt (h.parent_lt id scope hid)]
  · rw [nextId_push]
    rcases scope?_push_eq_some hid with ⟨rfl, rfl⟩ | hid
    · rintro _ ⟨⟩
      exact Nat.lt_succ_of_lt (hlt hcaller)
    · exact fun parent hparent ↦ Nat.lt_succ_of_lt (h.parent_lt id scope hid parent hparent)
  · rcases hlive hid with rfl | hid
    · rcases hlive hother with rfl | hother
      · rfl
      · rw [Function.update_self, hplace hother] at heq
        exact absurd heq.symm (hown.place_ne other hother)
    · rcases hlive hother with rfl | hother
      · rw [Function.update_self, hplace hid] at heq
        exact absurd heq (hown.place_ne id hid)
      · rw [hplace hid, hplace hother] at heq
        exact h.place_injective id other hid hother heq
  · rw [links_setParent] at hid
    rcases hlive hother with rfl | hother
    · rw [Function.update_self]
      exact (hown.ne hid).symm
    · rw [hplace hother]
      exact h.place_ne id other hid hother

/-- When the new scope has gone, so has its place. -/
theorem leave {newest : Scope} {P : ScopeId → Prop} {before memory₀ : Store}
    {contents₀ : ScopeId → Bindings} {held₀ : Option ScopeId → Nat}
    (h₀ : Represents place contents₀ held₀ before memory₀)
    (hchanges : (before.push newest).ChangesOnly P plain)
    (h : Represents (Function.update place before.nextId own) contents held plain memory) :
    Represents place contents held plain.pop (memory.drop own) := by
  have hnextId : plain.nextId - 1 = before.nextId := by
    rw [hchanges.nextId_eq, nextId_push]
    exact Nat.add_one_sub_one _
  have hlast : (plain.scope? before.nextId).isSome := by
    rw [hchanges.isSome_scope?, scope?_push, if_pos rfl]
    rfl
  have hpop {id : ScopeId} {scope : Scope} (hid : plain.pop.scope? id = some scope) :
      id < before.nextId ∧ plain.scope? id = some scope :=
    hnextId ▸ scope?_pop_eq_some hid
  have hlive {id : ScopeId} (hid : (plain.pop.scope? id).isSome) :
      Function.update place before.nextId own id = place id ∧ (plain.scope? id).isSome := by
    obtain ⟨scope, hscope⟩ := Option.isSome_iff_exists.mp hid
    obtain ⟨hlt, hscope⟩ := hpop hscope
    exact ⟨Function.update_of_ne (Nat.ne_of_lt hlt) _ _, Option.isSome_of_eq_some hscope⟩
  -- links lead to scopes that were there before the new one
  have hparents {id : ScopeId} {scope : Scope} (hid : plain.pop.scope? id = some scope) :
      ∀ parent ∈ scope.parent, parent < before.nextId := by
    obtain ⟨hlt, hscope⟩ := hpop hid
    have hlink := hchanges.parent_eq id
    rw [hscope, scope?_push, if_neg (Nat.ne_of_lt hlt)] at hlink
    obtain ⟨scope', hscope', hparent⟩ := Option.map_eq_some_iff.mp hlink.symm
    rw [← hparent]
    exact h₀.parent_lt id scope' hscope'
  have hless (p : Option ScopeId) :
      (memory.drop own).links p + held p ≤ memory.links p + held p :=
    Nat.add_le_add_right (memory.links_drop_le own p) _
  have hscope {id : ScopeId} (hid : id ≠ own) :
      (memory.drop own).scope? id = memory.scope? id := by
    rw [scope?_drop, if_neg hid]
  have hown {id : ScopeId} (hid : 0 < memory.links (some id) + held (some id)) : id ≠ own := by
    have hplace := h.place_ne id before.nextId hid hlast
    rw [Function.update_self] at hplace
    exact hplace.symm
  refine ⟨h.houses.of_le hless fun id hid ↦ hscope (hown (hid.trans_le (hless _))),
    fun id hid ↦ ?_, fun id scope hid ↦ ?_, fun id scope hid ↦ ?_,
    fun id other hid hother heq ↦ ?_, fun id other hid hother ↦ ?_⟩
  · have hid := hid.trans_le (hless _)
    rw [bindings_eq_of_scope? (hscope (hown hid))]
    exact h.contents_eq id hid
  · obtain ⟨hlt, hplain⟩ := hpop hid
    obtain ⟨hplace, hsome⟩ := hlive (Option.isSome_of_eq_some hid)
    obtain ⟨bindings, hmemory, hbindings⟩ := h.exists_scope? id scope hplain
    rw [hplace, map_update_of_forall_lt (hparents hid)] at hmemory
    have hne : place id ≠ own := by
      rintro heq
      refine Nat.ne_of_lt hlt (h.place_injective id _ hsome hlast ?_)
      rw [hplace, heq, Function.update_self]
    exact ⟨bindings, by rw [hscope hne, hmemory], hbindings⟩
  · rw [nextId, Store.pop, Array.size_pop]
    exact fun parent hparent ↦ (hparents hid parent hparent).trans_eq hnextId.symm
  · obtain ⟨hplace, hid⟩ := hlive hid
    obtain ⟨hplace', hother⟩ := hlive hother
    exact h.place_injective id other hid hother (by rw [hplace, hplace', heq])
  · obtain ⟨hplace, hother⟩ := hlive hother
    rw [← hplace]
    exact h.place_ne id other (hid.trans_le (hless _)) hother

end Represents

/-! ## The plain form of a store -/

/-- The store without the scopes of closures and with what these hold in place of the links to
them. -/
def unlinked (contents : ScopeId → Bindings) (held : Option ScopeId → Nat) (memory : Store) :
    Store :=
  ⟨memory.places.mapIdx fun id scope? ↦
    if 0 < memory.links (some id) + held (some id) then none
    else scope?.map fun scope ↦ { scope with bindings := scope.bindings.unlink contents }⟩

theorem scope?_unlinked (contents : ScopeId → Bindings) (held : Option ScopeId → Nat)
    (memory : Store) (id : ScopeId) :
    (memory.unlinked contents held).scope? id =
      if 0 < memory.links (some id) + held (some id) then none
      else (memory.scope? id).map fun scope ↦
        { scope with bindings := scope.bindings.unlink contents } := by
  rw [scope?, unlinked, Array.getElem?_mapIdx, scope?]
  cases memory.places[id]? with
  | none => simp
  | some scope? => rfl

/-- A store in which closures have scopes of their own represents its plain form, if all links lead
to places of the store. -/
theorem represents_unlinked (hhouses : memory.Houses held)
    (hcontents : ∀ id, 0 < memory.links (some id) + held (some id) →
      contents id = (memory.bindings id).unlink contents)
    (hparents : ∀ id scope, memory.scope? id = some scope →
      ∀ parent ∈ scope.parent, parent < memory.nextId) :
    Represents (fun id ↦ id) contents held (memory.unlinked contents held) memory := by
  have hscope {id : ScopeId} {scope : Scope}
      (h : (memory.unlinked contents held).scope? id = some scope) :
      ¬0 < memory.links (some id) + held (some id) ∧ ∃ bindings,
        memory.scope? id = some ⟨bindings, scope.parent⟩ ∧
          scope.bindings = bindings.unlink contents := by
    rw [scope?_unlinked] at h
    split at h
    · cases h
    · obtain ⟨⟨bindings, parent⟩, hmemory, rfl⟩ := Option.map_eq_some_iff.mp h
      exact ⟨‹_›, bindings, hmemory, rfl⟩
  refine ⟨hhouses, hcontents, fun id scope h ↦ ?_, fun id scope h ↦ ?_, fun _ _ _ _ h ↦ h,
    fun id other hid hother ↦ ?_⟩
  · rw [Option.map_id']
    exact (hscope h).2
  · obtain ⟨-, bindings, hmemory, -⟩ := hscope h
    rw [nextId, unlinked, Array.size_mapIdx]
    exact fun parent ↦ hparents id _ hmemory parent
  · rintro rfl
    obtain ⟨scope, h⟩ := Option.isSome_iff_exists.mp hother
    exact (hscope h).1 hid

/-- The plain form has the chains that no scopes of closures are on. -/
theorem HousesApart.hasChain_unlinked (h : memory.HousesApart held ids)
    (hchain : memory.HasChain scope ids) (contents : ScopeId → Bindings) :
    (memory.unlinked contents held).HasChain scope ids := by
  refine hchain.of_links fun id hid ↦ ?_
  rw [scope?_unlinked, if_neg fun hlinks ↦ h.not_mem id hlinks hid, Option.map_map]
  rfl

/-- A store without closures is its own plain form. -/
theorem unlinked_eq_self (h : ∀ p, memory.links p + held p = 0) :
    memory.unlinked contents held = memory := by
  refine congrArg Store.mk (Array.ext Array.size_mapIdx fun id _ hid ↦ ?_)
  rw [Array.getElem_mapIdx, if_neg (Nat.not_lt_of_le (h (some id)).le)]
  cases hplace : memory.places[id] with
  | none => rfl
  | some scope =>
    have hbindings : memory.bindings id = scope.bindings := by
      rw [bindings, scope?, Array.getElem?_eq_getElem hid, hplace]
      rfl
    have hlinks (p : Option ScopeId) : scope.bindings.links p = 0 := by
      have hle := memory.links_bindings_le id p
      have := h p
      rw [hbindings] at hle
      omega
    rw [Option.map_some, Bindings.unlink_eq_self hlinks]

end Store

end QuoteLisp
