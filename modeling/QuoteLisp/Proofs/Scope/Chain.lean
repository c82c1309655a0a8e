import QuoteLisp.Proofs.Scope.Store

/-!
# Chains that end

Following links is bounded by the number of places, so that it ends on every store. `HasChain` says
when the bound does not matter: from a scope the links lead, each to a scope that is there, to one
that has no link. Such a chain does not meet a scope twice, so it is no longer than the store, and
the bounded walks of the store see all of it: the chain, the root and every lookup are what they
would be without a bound (`HasChain.chain_eq`, `HasChain.rootWithin_eq`,
`HasChain.lookupWithin_eq`).

A chain is made of links alone. So it is still there in any store in which its scopes have kept
their links, whatever has happened to bindings and to other scopes (`HasChain.of_links`).

A root may have a link all the same, to a place that was given up. `HasLiveChain` allows for that,
and the facts about walks are shown for it.
-/

namespace QuoteLisp

namespace Store

/-- The links from the first of some scopes lead through all of them in order. Each is in the store,
and the last has no link. -/
inductive HasChain (store : Store) : ScopeId → List ScopeId → Prop
  | root {id : ScopeId} {bindings : Bindings} :
      store.scope? id = some ⟨bindings, none⟩ → HasChain store id [id]
  | link {id parent : ScopeId} {bindings : Bindings} {ids : List ScopeId} :
      store.scope? id = some ⟨bindings, some parent⟩ → HasChain store parent ids →
      HasChain store id (id :: ids)

/-- The scope has no link, or its link leads to a place that was given up. -/
def IsRoot (store : Store) (id : ScopeId) : Prop :=
  ∃ scope, store.scope? id = some scope ∧
    ∀ parent ∈ scope.parent, parent < store.nextId ∧ store.scope? parent = none

/-- The links from the first of some scopes lead through all of them in order. Each is in the store,
and the last has no parent. -/
inductive HasLiveChain (store : Store) : ScopeId → List ScopeId → Prop
  | root {id : ScopeId} : store.IsRoot id → HasLiveChain store id [id]
  | link {id parent : ScopeId} {bindings : Bindings} {ids : List ScopeId} :
      store.scope? id = some ⟨bindings, some parent⟩ → HasLiveChain store parent ids →
      HasLiveChain store id (id :: ids)

variable {store store' : Store} {id other parent : ScopeId} {ids ids' : List ScopeId}

/-- A place with a scope is one of the places of the store. -/
theorem lt_nextId_of_isSome (h : (store.scope? id).isSome) : id < store.nextId := by
  refine Nat.lt_of_not_le fun hle ↦ ?_
  rw [scope?, Array.getElem?_eq_none hle] at h
  cases h

theorem IsRoot.parent?_eq_none (h : store.IsRoot id) : store.parent? id = none := by
  obtain ⟨⟨bindings, link⟩, hscope, hlink⟩ := h
  rw [parent?, hscope, Option.bind_some]
  cases link with
  | none => rfl
  | some parent =>
    rw [Option.filter_some, (hlink parent rfl).2]
    rfl

namespace HasLiveChain

theorem isSome_scope? (h : store.HasLiveChain id ids) : (store.scope? id).isSome := by
  cases h with
  | root hroot =>
    obtain ⟨scope, hscope, -⟩ := hroot
    rw [hscope]
    rfl
  | link hscope => rw [hscope]; rfl

theorem eq_cons (h : store.HasLiveChain id ids) : ∃ rest, ids = id :: rest := by
  cases h with
  | root | link => exact ⟨_, rfl⟩

theorem parent?_eq_some {bindings : Bindings}
    (hscope : store.scope? id = some ⟨bindings, some parent⟩)
    (hparent : store.HasLiveChain parent ids) : store.parent? id = some parent := by
  rw [parent?, hscope, Option.bind_some, Option.filter_some, if_pos hparent.isSome_scope?]

/-- A scope has one chain at most. -/
theorem unique (h : store.HasLiveChain id ids) (h' : store.HasLiveChain id ids') : ids = ids' := by
  induction h generalizing ids' with
  | root hroot =>
    cases h' with
    | root => rfl
    | link hscope' h' => cases hroot.parent?_eq_none.symm.trans (parent?_eq_some hscope' h')
  | link hscope hparent ih =>
    cases h' with
    | root hroot' => cases hroot'.parent?_eq_none.symm.trans (parent?_eq_some hscope hparent)
    | link hscope' h' =>
      rw [hscope] at hscope'
      cases hscope'
      rw [ih h']

/-- From every scope on a chain the rest of the chain goes on. -/
theorem exists_of_mem (h : store.HasLiveChain id ids) (hmem : other ∈ ids) :
    ∃ before rest, ids = before ++ rest ∧ store.HasLiveChain other rest := by
  induction h with
  | root hroot =>
    obtain rfl := List.mem_singleton.mp hmem
    exact ⟨[], _, rfl, .root hroot⟩
  | @link id parent bindings ids hscope hparent ih =>
    rcases List.mem_cons.mp hmem with rfl | hmem
    · exact ⟨[], _, rfl, .link hscope hparent⟩
    · obtain ⟨before, rest, rfl, hrest⟩ := ih hmem
      exact ⟨id :: before, rest, rfl, hrest⟩

theorem lt_nextId_of_mem (h : store.HasLiveChain id ids) (hmem : other ∈ ids) :
    other < store.nextId := by
  obtain ⟨_, _, _, hother⟩ := h.exists_of_mem hmem
  exact lt_nextId_of_isSome hother.isSome_scope?

/-- No scope occurs twice on a chain: the chain from its second place on would be as long as the
chain from its first. -/
theorem nodup (h : store.HasLiveChain id ids) : ids.Nodup := by
  induction h with
  | root => exact List.nodup_cons.mpr ⟨List.not_mem_nil, List.nodup_nil⟩
  | @link id parent bindings ids hscope hparent ih =>
    refine List.nodup_cons.mpr ⟨fun hmem ↦ ?_, ih⟩
    obtain ⟨before, rest, hids, hrest⟩ := hparent.exists_of_mem hmem
    have hlength := congrArg List.length (hrest.unique (.link hscope hparent))
    rw [hids, List.length_cons, List.length_append] at hlength
    omega

theorem length_le (h : store.HasLiveChain id ids) : ids.length ≤ store.nextId := by
  have hsubset : ids ⊆ List.range store.nextId := fun _ hmem ↦
    List.mem_range.mpr (h.lt_nextId_of_mem hmem)
  have hle := h.nodup.length_le_of_subset hsubset
  rwa [List.length_range] at hle

/-! ## The store's walks see all of a chain -/

theorem chainWithin_eq (h : store.HasLiveChain id ids) {links : Nat}
    (hlinks : ids.length ≤ links + 1) : store.chainWithin links id = ids := by
  induction h generalizing links with
  | root hroot =>
    cases links with
    | zero => rfl
    | succ links => rw [chainWithin, hroot.parent?_eq_none]
  | link hscope hparent ih =>
    obtain ⟨rest, rfl⟩ := hparent.eq_cons
    cases links with
    | zero => simp at hlinks
    | succ links =>
      rw [chainWithin, parent?_eq_some hscope hparent]
      exact congrArg _ (ih (Nat.le_of_succ_le_succ hlinks))

theorem chain_eq (h : store.HasLiveChain id ids) : store.chain id = ids :=
  h.chainWithin_eq (Nat.le_succ_of_le h.length_le)

/-- The root is the last scope of the chain. -/
theorem getLast?_eq (h : store.HasLiveChain id ids) : ids.getLast? = some (store.root id) := by
  rw [← h.chain_eq]
  exact store.getLast?_chainWithin _ id

/-- A lookup goes through the scopes of the chain. -/
theorem lookup?_eq (h : store.HasLiveChain id ids) (name : String) :
    store.lookup? id name = ids.findSome? fun i ↦ (store.bindings i).find? name := by
  rw [lookup?_eq_findSome?, h.chain_eq]

/-! ## Chains are made of links -/

/-- A chain is there in every store that has its scopes with the same links, if the places that were
given up are not taken again. -/
theorem of_links (h : store.HasLiveChain id ids)
    (hlinks : ∀ other ∈ ids,
      (store'.scope? other).map Scope.parent = (store.scope? other).map Scope.parent)
    (hempty : ∀ other, other < store.nextId → store.scope? other = none →
      other < store'.nextId ∧ store'.scope? other = none) : store'.HasLiveChain id ids := by
  induction h with
  | root hroot =>
    obtain ⟨scope, hscope, hdead⟩ := hroot
    have hlink := hlinks _ List.mem_cons_self
    rw [hscope] at hlink
    obtain ⟨scope', hscope', hparent⟩ := Option.map_eq_some_iff.mp hlink
    refine .root ⟨scope', hscope', fun parent hmem ↦ ?_⟩
    obtain ⟨hlt, hnone⟩ := hdead parent (hparent ▸ hmem)
    exact hempty parent hlt hnone
  | link hscope _ ih =>
    have hlink := hlinks _ List.mem_cons_self
    rw [hscope] at hlink
    obtain ⟨⟨bindings, _⟩, hscope', rfl⟩ := Option.map_eq_some_iff.mp hlink
    exact .link hscope' (ih fun other hmem ↦ hlinks other (List.mem_cons_of_mem _ hmem))

/-- A new scope does not touch the chains that are there. -/
theorem push (h : store.HasLiveChain id ids) (scope : Scope) :
    (store.push scope).HasLiveChain id ids := by
  refine h.of_links (fun other hmem ↦ ?_) fun other hlt hnone ↦ ⟨?_, ?_⟩
  · rw [scope?_push, if_neg (Nat.ne_of_lt (h.lt_nextId_of_mem hmem))]
  · rw [nextId_push]
    exact Nat.lt_succ_of_lt hlt
  · rwa [scope?_push, if_neg (Nat.ne_of_lt hlt)]

/-- The chain of a new scope is that of the scope around it, with the new scope in front. -/
theorem push_nextId (h : store.HasLiveChain id ids) (bindings : Bindings) :
    (store.push ⟨bindings, some id⟩).HasLiveChain store.nextId (store.nextId :: ids) := by
  have hscope : (store.push ⟨bindings, some id⟩).scope? store.nextId
      = some ⟨bindings, some id⟩ := by
    rw [scope?_push, if_pos rfl]
  exact .link hscope (h.push _)

/-- A name that a new scope does not bind is looked up from the scope around it. -/
theorem lookup?_push_nextId (h : store.HasLiveChain id ids) (bindings : Bindings) (name : String) :
    (store.push ⟨bindings, some id⟩).lookup? store.nextId name
      = (bindings.find? name).or (store.lookup? id name) := by
  -- the new scope is on none of the chains that were there
  have hothers := findSome?_congr fun other hmem ↦ congrArg (fun bindings ↦ bindings.find? name)
    ((store.bindings_push other ⟨bindings, some id⟩).trans
      (if_neg (Nat.ne_of_lt (h.lt_nextId_of_mem hmem))))
  rw [(h.push_nextId bindings).lookup?_eq, findSome?_cons_eq_or, hothers, bindings_push,
    if_pos rfl, h.lookup?_eq]

/-- The root of a new scope is that of the scope around it. -/
theorem root_push_nextId (h : store.HasLiveChain id ids) (bindings : Bindings) :
    (store.push ⟨bindings, some id⟩).root store.nextId = store.root id := by
  have hlast := (h.push_nextId bindings).getLast?_eq
  rw [List.getLast?_cons, h.getLast?_eq] at hlast
  exact (Option.some.inj hlast).symm

end HasLiveChain

/-! ## Chains whose last scope has no link -/

namespace HasChain

/-- A scope without a link is a root. -/
theorem live (h : store.HasChain id ids) : store.HasLiveChain id ids := by
  induction h with
  | root hscope => exact .root ⟨_, hscope, fun _ ↦ nofun⟩
  | link hscope _ ih => exact .link hscope ih

theorem isSome_scope? (h : store.HasChain id ids) : (store.scope? id).isSome :=
  h.live.isSome_scope?

theorem eq_cons (h : store.HasChain id ids) : ∃ rest, ids = id :: rest :=
  h.live.eq_cons

theorem lt_nextId_of_mem (h : store.HasChain id ids) (hmem : other ∈ ids) :
    other < store.nextId :=
  h.live.lt_nextId_of_mem hmem

theorem nodup (h : store.HasChain id ids) : ids.Nodup :=
  h.live.nodup

theorem chain_eq (h : store.HasChain id ids) : store.chain id = ids :=
  h.live.chain_eq

/-- The root is the last scope of the chain. -/
theorem getLast?_eq (h : store.HasChain id ids) : ids.getLast? = some (store.root id) :=
  h.live.getLast?_eq

theorem rootWithin_eq (h : store.HasChain id ids) {links : Nat} (hlinks : ids.length ≤ links + 1) :
    store.rootWithin links id = store.root id := by
  have hlast := store.getLast?_chainWithin links id
  rw [h.live.chainWithin_eq hlinks, h.getLast?_eq] at hlast
  exact (Option.some.inj hlast).symm

theorem lookupWithin_eq (h : store.HasChain id ids) {links : Nat} (hlinks : ids.length ≤ links + 1)
    (name : String) : store.lookupWithin name links id = store.lookup? id name := by
  rw [lookupWithin_eq_findSome?, h.live.chainWithin_eq hlinks, h.live.lookup?_eq]

/-- A chain is there in every store in which its scopes have the same links. -/
theorem of_links (h : store.HasChain id ids)
    (hlinks : ∀ other ∈ ids,
      (store'.scope? other).map Scope.parent = (store.scope? other).map Scope.parent) :
    store'.HasChain id ids := by
  induction h with
  | root hscope =>
    have hlink := hlinks _ List.mem_cons_self
    rw [hscope] at hlink
    obtain ⟨⟨bindings, _⟩, hscope', rfl⟩ := Option.map_eq_some_iff.mp hlink
    exact .root hscope'
  | link hscope _ ih =>
    have hlink := hlinks _ List.mem_cons_self
    rw [hscope] at hlink
    obtain ⟨⟨bindings, _⟩, hscope', rfl⟩ := Option.map_eq_some_iff.mp hlink
    exact .link hscope' (ih fun other hmem ↦ hlinks other (List.mem_cons_of_mem _ hmem))

/-- The chain of a new scope is that of the scope around it, with the new scope in front. -/
theorem push_nextId (h : store.HasChain id ids) (bindings : Bindings) :
    (store.push ⟨bindings, some id⟩).HasChain store.nextId (store.nextId :: ids) := by
  have hscope : (store.push ⟨bindings, some id⟩).scope? store.nextId
      = some ⟨bindings, some id⟩ := by
    rw [scope?_push, if_pos rfl]
  refine .link hscope (h.of_links fun other hmem ↦ ?_)
  rw [scope?_push, if_neg (Nat.ne_of_lt (h.lt_nextId_of_mem hmem))]

/-- A name that a new scope does not bind is looked up from the scope around it. -/
theorem lookup?_push_nextId (h : store.HasChain id ids) (bindings : Bindings) (name : String) :
    (store.push ⟨bindings, some id⟩).lookup? store.nextId name
      = (bindings.find? name).or (store.lookup? id name) :=
  h.live.lookup?_push_nextId bindings name

/-- The root of a new scope is that of the scope around it. -/
theorem root_push_nextId (h : store.HasChain id ids) (bindings : Bindings) :
    (store.push ⟨bindings, some id⟩).root store.nextId = store.root id :=
  h.live.root_push_nextId bindings

end HasChain

end Store

/-- A fresh machine has one scope, which is all of its chain. -/
theorem hasChain_start (output : Output) :
    (Machine.start output).store.HasChain globalScope [globalScope] := .root rfl

end QuoteLisp
