import QuoteLisp.Proofs.Evaluation.Simulation

/-!
# An empty scope in front

A scope without bindings, around which is another scope, shows the names of that one and nothing
else. So it makes no difference which of the two a program is run in, except for where `=` puts its
bindings. In the empty scope they come to stand in front of those of the scope around it, which in
turn stays as it is; in the scope around it they replace those.

The two stores are compared by `Overlay`. From the scopes that the two runs are in, the links lead
through the same frames, then in one run through the scope in front, and then through the same
scopes to the same root. The root has to be another scope than the two. If the scope around is the
root itself, `def` binds in it in both runs, and in one of them a name bound in front hides that.
-/

namespace QuoteLisp

open Store

/-- In the first store the scope `c` is in front of `p`, which binds what it did before. In the
second store `p` binds what both bind in the first, the names of `c` going first. From both the
links go on through `ids`. -/
structure Overlay (c p : ScopeId) (ids : List ScopeId) (before : Bindings)
    (frames : List ScopeId) (store store' : Store) : Prop where
  nextId_eq : store'.nextId = store.nextId
  isSome_eq (id : ScopeId) : (store'.scope? id).isSome = (store.scope? id).isSome
  chain : store.HasLiveChain (frames.headD c) (frames ++ c :: p :: ids)
  chain' : store'.HasLiveChain (frames.headD p) (frames ++ p :: ids)
  ids_ne_nil : ids ≠ []
  bindings_p : store.bindings p = before
  find?_p (name : String) :
    (store'.bindings p).find? name = ((store.bindings c).find? name).or (before.find? name)
  bindings_eq (id : ScopeId) : id ≠ c → id ≠ p → store'.bindings id = store.bindings id

namespace Overlay

variable {c p id : ScopeId} {ids frames : List ScopeId} {before bound : Bindings}
  {store store' : Store} {name : String}

section

variable (h : Overlay c p ids before frames store store')
include h

/-- The scopes behind the two and the frames in front of them are others than the two. -/
theorem ne_of_mem (hid : id ∈ frames ∨ id ∈ ids) : id ≠ c ∧ id ≠ p := by
  have hnodup := h.chain.nodup
  rw [List.nodup_append, List.nodup_cons, List.nodup_cons] at hnodup
  obtain ⟨-, ⟨hc, hp, -⟩, hframes⟩ := hnodup
  rcases hid with hid | hid
  · exact ⟨hframes id hid c List.mem_cons_self,
      hframes id hid p (List.mem_cons_of_mem _ List.mem_cons_self)⟩
  · exact ⟨fun heq ↦ hc (List.mem_cons_of_mem _ (heq ▸ hid)), fun heq ↦ hp (heq ▸ hid)⟩

theorem lt_nextId (hid : id = c ∨ id = p) : id < store.nextId := by
  refine h.chain.lt_nextId_of_mem (List.mem_append_right _ ?_)
  rcases hid with rfl | rfl
  · exact List.mem_cons_self
  · exact List.mem_cons_of_mem _ List.mem_cons_self

theorem find?_eq (hid : id ∈ frames ∨ id ∈ ids) (name : String) :
    (store'.bindings id).find? name = (store.bindings id).find? name := by
  rw [h.bindings_eq id (h.ne_of_mem hid).1 (h.ne_of_mem hid).2]

/-- Every name has the same value, seen from the two scopes. -/
theorem lookup?_eq (name : String) :
    store'.lookup? (frames.headD p) name = store.lookup? (frames.headD c) name := by
  have hframes := findSome?_congr fun id hid ↦ h.find?_eq (Or.inl hid) name
  have hids := findSome?_congr fun id hid ↦ h.find?_eq (Or.inr hid) name
  rw [h.chain.lookup?_eq, h.chain'.lookup?_eq, List.findSome?_append, List.findSome?_append,
    findSome?_cons_eq_or, findSome?_cons_eq_or, findSome?_cons_eq_or, hframes, hids, h.find?_p,
    h.bindings_p, Option.or_assoc]

/-- Both chains have the same root, which is behind the two scopes. -/
theorem exists_root : ∃ root ∈ ids, store.root (frames.headD c) = root ∧
    store'.root (frames.headD p) = root := by
  have hlast := h.chain.getLast?_eq
  have hlast' := h.chain'.getLast?_eq
  rw [List.append_cons, List.append_cons, List.getLast?_append,
    List.getLast?_eq_some_getLast h.ids_ne_nil, Option.some_or] at hlast
  rw [List.append_cons, List.getLast?_append, List.getLast?_eq_some_getLast h.ids_ne_nil,
    Option.some_or] at hlast'
  exact ⟨_, List.getLast_mem h.ids_ne_nil, (Option.some.inj hlast).symm,
    (Option.some.inj hlast').symm⟩

/-- As long as nothing but bindings changes, it is the bindings that have to be looked at. -/
theorem of_changesOnly {P P' : ScopeId → Prop} {after after' : Store}
    (hchanges : store.ChangesOnly P after) (hchanges' : store'.ChangesOnly P' after')
    (hp : after.bindings p = before)
    (hfind : ∀ name, (after'.bindings p).find? name
      = ((after.bindings c).find? name).or (before.find? name))
    (hothers : ∀ id, id ≠ c → id ≠ p → after'.bindings id = after.bindings id) :
    Overlay c p ids before frames after after' where
  nextId_eq := by rw [hchanges.nextId_eq, hchanges'.nextId_eq, h.nextId_eq]
  isSome_eq id := by rw [hchanges.isSome_scope?, hchanges'.isSome_scope?, h.isSome_eq]
  chain := hchanges.hasLiveChain h.chain
  chain' := hchanges'.hasLiveChain h.chain'
  ids_ne_nil := h.ids_ne_nil
  bindings_p := hp
  find?_p := hfind
  bindings_eq := hothers

/-- Binding a name in another scope than the two. -/
theorem setLocal_other (hc : id ≠ c) (hp : id ≠ p) (name : String) (v : Value) :
    Overlay c p ids before frames (store.setLocal id name v) (store'.setLocal id name v) := by
  have hchanges := store.changesOnly_setLocal id name v
  have hchanges' := store'.changesOnly_setLocal id name v
  refine h.of_changesOnly hchanges hchanges' ?_ (fun other ↦ ?_) fun other hotherc hotherp ↦ ?_
  · rw [hchanges.bindings_eq p hp.symm, h.bindings_p]
  · rw [hchanges.bindings_eq c hc.symm, hchanges'.bindings_eq p hp.symm, h.find?_p]
  · rw [bindings_setLocal, bindings_setLocal, h.isSome_eq, h.bindings_eq other hotherc hotherp]

end

/-- Binding a name in the two scopes, each run in its own. -/
theorem setLocal_own (h : Overlay c p ids before [] store store') (name : String) (v : Value) :
    Overlay c p ids before [] (store.setLocal c name v) (store'.setLocal p name v) := by
  have hchanges := store.changesOnly_setLocal c name v
  have hchanges' := store'.changesOnly_setLocal p name v
  have hne : p ≠ c := fun heq ↦
    (List.nodup_cons.mp h.chain.nodup).1 (heq ▸ List.mem_cons_self)
  refine h.of_changesOnly hchanges hchanges' ?_ (fun other ↦ ?_) fun other hotherc hotherp ↦ ?_
  · rw [hchanges.bindings_eq p hne, h.bindings_p]
  · rw [bindings_setLocal, bindings_setLocal, if_pos ⟨rfl, h.chain'.isSome_scope?⟩,
      if_pos ⟨rfl, h.chain.isSome_scope?⟩, Bindings.find?_insert, Bindings.find?_insert, h.find?_p]
    split <;> rfl
  · rw [hchanges.bindings_eq other hotherc, hchanges'.bindings_eq other hotherp,
      h.bindings_eq other hotherc hotherp]

/-- A definition binds in the root in both runs, or in the scopes that they are in. -/
theorem setLocal_target (h : Overlay c p ids before frames store store') (target : Target)
    (name : String) (v : Value) :
    Overlay c p ids before frames (store.setLocal (store.target (frames.headD c) target) name v)
      (store'.setLocal (store'.target (frames.headD p) target) name v) := by
  cases target with
  | globally =>
    obtain ⟨root, hroot, heq, heq'⟩ := h.exists_root
    rw [Store.target, Store.target, heq, heq']
    exact h.setLocal_other (h.ne_of_mem (Or.inr hroot)).1 (h.ne_of_mem (Or.inr hroot)).2 name v
  | locally =>
    cases frames with
    | nil => exact h.setLocal_own name v
    | cons frame frames =>
      have hne := h.ne_of_mem (Or.inl List.mem_cons_self)
      exact h.setLocal_other hne.1 hne.2 name v

/-- A closure's scope comes to stand in front of both chains. -/
theorem push (h : Overlay c p ids before frames store store') (bound : Bindings) :
    Overlay c p ids before (store.nextId :: frames)
      (store.push ⟨bound, some (frames.headD c)⟩) (store'.push ⟨bound, some (frames.headD p)⟩) where
  nextId_eq := by rw [nextId_push, nextId_push, h.nextId_eq]
  isSome_eq id := by
    rw [scope?_push, scope?_push, h.nextId_eq]
    split
    · rfl
    · exact h.isSome_eq id
  chain := h.chain.push_nextId bound
  chain' := by
    have hchain := h.chain'.push_nextId bound
    rwa [h.nextId_eq] at hchain
  ids_ne_nil := h.ids_ne_nil
  bindings_p := by
    rw [bindings_push, if_neg (Nat.ne_of_lt (h.lt_nextId (Or.inr rfl))), h.bindings_p]
  find?_p name := by
    rw [bindings_push, bindings_push, h.nextId_eq, if_neg (Nat.ne_of_lt (h.lt_nextId (Or.inr rfl))),
      if_neg (Nat.ne_of_lt (h.lt_nextId (Or.inl rfl))), h.find?_p]
  bindings_eq id hc hp := by
    rw [bindings_push, bindings_push, h.nextId_eq]
    split
    · rfl
    · exact h.bindings_eq id hc hp

/-- When a closure's scope has gone, what was done in front of it and behind it is left. -/
theorem pop (h : Overlay c p ids before frames store store') {after after' : Store}
    {scope scope' : Scope} (hchanges : (store.push scope).ChangesOnly (fun _ ↦ True) after)
    (hchanges' : (store'.push scope').ChangesOnly (fun _ ↦ True) after')
    (hafter : Overlay c p ids before (store.nextId :: frames) after after') :
    Overlay c p ids before frames after.pop after'.pop := by
  have hsize : after.nextId - 1 = store.nextId := by
    rw [hchanges.nextId_eq, nextId_push, Nat.add_sub_cancel]
  have hsize' : after'.nextId - 1 = store.nextId := by
    rw [hchanges'.nextId_eq, nextId_push, Nat.add_sub_cancel, h.nextId_eq]
  have hc := h.lt_nextId (Or.inl rfl)
  have hp := h.lt_nextId (Or.inr rfl)
  refine h.of_changesOnly hchanges.pop hchanges'.pop ?_ (fun name ↦ ?_) fun id hidc hidp ↦ ?_
  · rw [bindings_pop, hsize, if_pos hp, hafter.bindings_p]
  · rw [bindings_pop, bindings_pop, hsize, hsize', if_pos hc, if_pos hp, hafter.find?_p]
  · rw [bindings_pop, bindings_pop, hsize, hsize', hafter.bindings_eq id hidc hidp]

end Overlay

/-- A program cannot tell the two stores apart. The index is the frames. -/
def overlaySimulation (c p : ScopeId) (ids : List ScopeId) (before : Bindings) :
    Simulation (fun _ ↦ True) (List ScopeId) where
  scope frames := frames.headD c
  scope' frames := frames.headD p
  Rel := Overlay c p ids before
  hereditary := .trivial
  error _ := trivial
  lookup?_eq h _ := h.lookup?_eq _
  of_lookup? _ _ _ := trivial
  setLocal target h _ _ := h.setLocal_target target _ _
  exists_push {frames store _ bound} h _ :=
    ⟨store.nextId :: frames, rfl, h.nextId_eq.symm, h.push bound, fun _ _ ↦ h.pop⟩

/-! ## Transparency -/

section

variable {library : Library} {m m₁ m₂ : Machine} {c p q : ScopeId} {ids : List ScopeId}

/-- How a run in the scope `c` compares with one in the scope `p` around it when both have ended. As
far as can be seen from the two scopes they are the same, and the first one has left `p` alone. -/
structure EndAlike (m : Machine) (c p : ScopeId) (m₁ m₂ : Machine) : Prop where
  output_eq : m₁.output = m₂.output
  bindings_root_eq : m₁.store.bindings (m.store.root p) = m₂.store.bindings (m.store.root p)
  lookup?_eq (name : String) : m₁.store.lookup? c name = m₂.store.lookup? p name
  scope?_eq : m₁.store.scope? p = m.store.scope? p

/-- Before anything is done, the empty scope is in front of one store and nothing is in front of the
other. -/
theorem Overlay.start {store : Store} (hc : store.scope? c = some ⟨[], some p⟩)
    (hp : store.HasLiveChain p (p :: q :: ids)) :
    Overlay c p (q :: ids) (store.bindings p) [] store store where
  nextId_eq := rfl
  isSome_eq _ := rfl
  chain := .link hc hp
  chain' := hp
  ids_ne_nil := List.cons_ne_nil _ _
  bindings_p := rfl
  find?_p name := by
    rw [bindings_eq_of_scope?_eq_some hc]
    rfl
  bindings_eq _ _ _ := rfl

theorem Overlay.endAlike {store' : Store} {as : List Value} {task : Task}
    (hp : m.store.HasLiveChain p (p :: q :: ids))
    (hrun : Derives library c task m as m₁)
    (h : Overlay c p (q :: ids) (m.store.bindings p) [] m₁.store store') :
    EndAlike m c p m₁ { m₁ with store := store' } where
  output_eq := rfl
  bindings_root_eq := by
    have hroot : m.store.root p ∈ q :: ids := by
      have hlast := hp.getLast?_eq
      rw [List.getLast?_cons_cons] at hlast
      exact List.mem_of_getLast? hlast
    have hne := h.ne_of_mem (Or.inr hroot)
    exact (h.bindings_eq _ hne.1 hne.2).symm
  lookup?_eq name := (h.lookup?_eq name).symm
  scope?_eq := by
    have hp : m.store.ChangesOnly (· ≠ p) m₁.store :=
      { hrun.changesOnly with
        bindings_eq := fun id hid ↦ by rw [Decidable.of_not_not hid, h.bindings_p] }
    exact hp.scope?_eq fun hne ↦ hne rfl

/-- **An empty scope is transparent.** Let the links lead from a scope `p` to a parent and on to a
root, which has no parent or none any more, and let `c` be a scope without bindings around which is
`p`. A value whose evaluation in `c` ends without `print_env` being applied has the same result and
writes the same in `p`, and the other way round. Afterwards the root binds the same in both cases,
every name has the same value seen from `c` in the one case and from `p` in the other, and the
evaluation in `c` has not changed `p`. -/
theorem Store.HasLiveChain.empty_scope_transparent (hp : m.store.HasLiveChain p (p :: q :: ids))
    (hc : m.store.scope? c = some ⟨[], some p⟩) (library : Library) (e : Value) :
    (∀ a m₁, Evaluates library c e m a m₁ →
        ¬Activation.Applies library ⟨c, .eval e, m, []⟩ .printScope →
        ∃ m₂, Evaluates library p e m a m₂ ∧ EndAlike m c p m₁ m₂) ∧
      ∀ a m₂, Evaluates library p e m a m₂ →
        ¬Activation.Applies library ⟨p, .eval e, m, []⟩ .printScope →
        ∃ m₁, Evaluates library c e m a m₁ ∧ EndAlike m c p m₁ m₂ := by
  have hstart := Overlay.start hc hp
  let sim := overlaySimulation c p (q :: ids) (m.store.bindings p)
  refine ⟨fun a m₁ h hprint ↦ ?_, fun a m₂ h hprint ↦ ?_⟩
  · obtain ⟨after, h', hafter, -⟩ := sim.exists_evaluates (i := []) hprint
      (fun _ _ _ _ _ _ _ ↦ trivial) h trivial hstart
    exact ⟨_, h', Overlay.endAlike hp (evaluates_iff_derives.mp h) hafter⟩
  · obtain ⟨after, h', hafter, -⟩ := sim.symm.exists_evaluates (i := []) hprint
      (fun _ _ _ _ _ _ _ ↦ trivial) h trivial hstart
    exact ⟨_, h', Overlay.endAlike hp (evaluates_iff_derives.mp h') hafter⟩

/-- Three scopes, the global one, one inside of it and an empty one inside of that. In the last two
the same name is bound with `=`, and it is found from both. -/
theorem empty_scope_transparent_assignment :
    ∃ (m m₁ m₂ : Machine), m.store.HasLiveChain 1 [1, globalScope] ∧
      m.store.scope? 2 = some ⟨[], some 1⟩ ∧
      Evaluates ⟨fun _ ↦ none⟩ 2 (.sexpr [.symbol "=", .qexpr [.symbol "x"], .exit]) m .unit m₁ ∧
      ¬Activation.Applies ⟨fun _ ↦ none⟩
        ⟨2, .eval (.sexpr [.symbol "=", .qexpr [.symbol "x"], .exit]), m, []⟩ .printScope ∧
      Evaluates ⟨fun _ ↦ none⟩ 1 (.sexpr [.symbol "=", .qexpr [.symbol "x"], .exit]) m .unit m₂ ∧
      m₁.store.lookup? 2 "x" = some .exit ∧ m₂.store.lookup? 1 "x" = some .exit ∧
      m₁.store.scope? 1 = m.store.scope? 1 := by
  obtain ⟨m, hm⟩ : ∃ m, m = ((Machine.start .empty).enter [] globalScope).enter [] 1 := ⟨_, rfl⟩
  have hglobal := (hasChain_start .empty).live
  have hp : m.store.HasLiveChain 1 [1, globalScope] := hm ▸ (hglobal.push_nextId []).push _
  have hc : m.store.scope? 2 = some ⟨[], some 1⟩ := hm ▸ rfl
  have hassign : m.store.lookup? 2 "=" = some (.primitive (.define .locally)) := by
    rw [hm]
    exact ((hglobal.push_nextId []).lookup?_push_nextId [] "=").trans
      ((hglobal.lookup?_push_nextId [] "=").trans (lookup?_start (.define .locally) .empty))
  have hcells : Derives ⟨fun _ ↦ none⟩ 2 (.cells [.symbol "=", .qexpr [.symbol "x"], .exit]) m
      [.primitive (.define .locally), .qexpr [.symbol "x"], .exit] m :=
    .cell (.bound hassign) (.cell (.inert trivial) (.cell (.inert trivial) .noCells))
  have hrun : Evaluates ⟨fun _ ↦ none⟩ 2 (.sexpr [.symbol "=", .qexpr [.symbol "x"], .exit]) m
      .unit (m.bindAll .locally 2 [("x", .exit)]) := evaluates_iff_derives.mpr (.bind hcells rfl)
  have hprint : ¬Activation.Applies ⟨fun _ ↦ none⟩
      ⟨2, .eval (.sexpr [.symbol "=", .qexpr [.symbol "x"], .exit]), m, []⟩ .printScope :=
    Activation.not_applies_of_flat hcells (by simp) (by rintro _ ⟨⟩; simp) nofun
  have hx : (m.bindAll .locally 2 [("x", .exit)]).store.lookup? 2 "x" = some .exit :=
    lookup?_of_find? (by rw [hm]; rfl)
  obtain ⟨m₂, h, halike⟩ := (hp.empty_scope_transparent hc _ _).1 _ _ hrun hprint
  exact ⟨m, _, m₂, hp, hc, hrun, hprint, h, hx, (halike.lookup?_eq "x").symm.trans hx,
    halike.scope?_eq⟩

end

end QuoteLisp
