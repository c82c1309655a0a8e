import QuoteLisp.Proofs.Evaluation.Rules
import QuoteLisp.Proofs.Scope.Changes

/-!
# Writes and what is looked up after them

Scopes form a forest: several may have the same parent, and each tree has one root. A lookup and a
write into the root both follow the links from the scope they are made through, and here they are
shown to agree on what these lead to.

A binding of a name is `Visible` from a scope when its home is on the chain of that scope and no
scope before it binds the name. A lookup answers with the visible binding, and with a failure when
there is none (`HasLiveChain.lookup?_eq_some_iff`, `HasLiveChain.lookup?_eq_none_iff`). A write is
seen from exactly those scopes from which its home is visible
(`HasLiveChain.lookup?_setLocal_of_visible`, `HasLiveChain.lookup?_setLocal_eq_lookup?`).

## Roots

The home of a write into the root is the last scope on the chain, so it is visible when no other
scope on the chain binds the name (`HasLiveChain.visible_root_iff`). Scopes with the same root write
into the same home. A write changes no link, so all of this holds again after it.

When a scope is given up, the chains that lead through it end before it (`HasLiveChain.drop`). What
is said here is then said of these chains.
-/

namespace QuoteLisp

/-- A symbol evaluates to what is looked up, and to a failure when nothing is found. -/
theorem evaluates_symbol_iff {library : Library} {scope : ScopeId} {name : String}
    {m m' : Machine} {a : Value} :
    Evaluates library scope (.symbol name) m a m' ↔
      m' = m ∧ a = (m.store.lookup? scope name).getD (EvalError.unboundSymbol name).toValue := by
  rw [evaluates_iff_derives]
  constructor
  · rintro (hlookup | hlookup | hinert)
    · rw [hlookup]
      exact ⟨rfl, rfl⟩
    · rw [hlookup]
      exact ⟨rfl, rfl⟩
    · exact hinert.elim
  · rintro ⟨rfl, rfl⟩
    cases hlookup : m'.store.lookup? scope name with
    | none => exact .unbound hlookup
    | some value => exact .bound hlookup

namespace Store

variable {store : Store} {id id' home other : ScopeId} {ids ids' before after : List ScopeId}
  {name name' : String} {value value' : Value} {target target' : Target}

/-! ## Visible bindings -/

/-- Along some scopes a binding of the name in the scope `home` is met before any other. -/
def Visible (store : Store) (name : String) (ids : List ScopeId) (home : ScopeId) : Prop :=
  ∃ before after, ids = before ++ home :: after ∧
    ∀ other ∈ before, (store.bindings other).find? name = none

/-- Two chains end in the same root, and no scope below it on the first one binds the name. -/
def RootVisible (store : Store) (name : String) (ids ids' : List ScopeId) : Prop :=
  ids.getLast? = ids'.getLast? ∧
    ∀ below ∈ ids.dropLast, (store.bindings below).find? name = none

namespace HasLiveChain

/-- A lookup answers with the binding in the first scope on the chain that has one. -/
theorem lookup?_eq_some_iff (h : store.HasLiveChain id ids) :
    store.lookup? id name = some value ↔
      ∃ home, store.Visible name ids home ∧ (store.bindings home).find? name = some value := by
  rw [h.lookup?_eq, List.findSome?_eq_some_iff]
  constructor
  · rintro ⟨before, home, after, hids, hfind, hbefore⟩
    exact ⟨home, ⟨before, after, hids, hbefore⟩, hfind⟩
  · rintro ⟨home, ⟨before, after, hids, hbefore⟩, hfind⟩
    exact ⟨before, home, after, hids, hfind, hbefore⟩

theorem lookup?_eq_none_iff (h : store.HasLiveChain id ids) :
    store.lookup? id name = none ↔ ∀ home ∈ ids, (store.bindings home).find? name = none := by
  rw [h.lookup?_eq, List.findSome?_eq_none_iff]

/-- The chain of a scope on a chain is the part of it from there on. -/
theorem of_append (h : store.HasLiveChain id (before ++ home :: after)) :
    store.HasLiveChain home (home :: after) := by
  induction before generalizing id with
  | nil =>
    obtain ⟨rest, hrest⟩ := h.eq_cons
    obtain ⟨rfl, -⟩ := List.cons.inj hrest
    exact h
  | cons first before ih =>
    -- a chain of one scope is not longer than what stands before `home`
    generalize hids : first :: before ++ home :: after = ids at h
    cases h with
    | root => simp at hids
    | link _ hparent =>
      obtain ⟨-, rfl⟩ := List.cons.inj hids
      exact ih hparent

/-- The scopes before another one on a chain are other scopes. -/
theorem ne_of_mem_before (h : store.HasLiveChain id (before ++ home :: after))
    (hmem : other ∈ before) : other ≠ home :=
  (List.nodup_append.mp h.nodup).2.2 other hmem home List.mem_cons_self

theorem isRoot_of_getLast? (h : store.HasLiveChain id ids) (hlast : ids.getLast? = some home) :
    store.IsRoot home := by
  induction h with
  | root hroot => rwa [← Option.some.inj hlast]
  | link _ hparent ih =>
    obtain ⟨rest, rfl⟩ := hparent.eq_cons
    rw [List.getLast?_cons_cons] at hlast
    exact ih hlast

/-- From the root a name is looked up in the root only. -/
theorem lookup?_root (h : store.HasLiveChain id ids) (name : String) :
    store.lookup? (store.root id) name = (store.bindings (store.root id)).find? name := by
  have hroot : store.HasLiveChain (store.root id) [store.root id] :=
    .root (h.isRoot_of_getLast? h.getLast?_eq)
  rw [hroot.lookup?_eq, List.findSome?_singleton]

/-- A binding in the root of another scope is visible when this root ends the chain and no scope
below it binds the name. -/
theorem visible_root_iff (h : store.HasLiveChain id ids) (h' : store.HasLiveChain id' ids') :
    store.Visible name ids (store.root id') ↔ store.RootVisible name ids ids' := by
  rw [RootVisible, h'.getLast?_eq]
  constructor
  · rintro ⟨before, after, rfl, hbefore⟩
    -- the chain of a root is the root alone, so nothing comes after it
    have hroot := h'.isRoot_of_getLast? h'.getLast?_eq
    obtain ⟨-, rfl⟩ := List.cons.inj (h.of_append.unique (.root hroot))
    rw [List.getLast?_concat, List.dropLast_concat]
    exact ⟨rfl, hbefore⟩
  · rintro ⟨hlast, hbelow⟩
    obtain ⟨before, rfl⟩ := List.getLast?_eq_some_iff.mp hlast
    rw [List.dropLast_concat] at hbelow
    exact ⟨before, [], rfl, hbelow⟩

/-! ## What is seen of a write -/

/-- A new binding is looked up from where its home is visible. -/
theorem lookup?_setLocal_of_visible (h : store.HasLiveChain id ids)
    (hvisible : store.Visible name ids home) (value : Value) :
    (store.setLocal home name value).lookup? id name = some value := by
  have hchanges := store.changesOnly_setLocal home name value
  obtain ⟨before, after, rfl, hbefore⟩ := hvisible
  refine (hchanges.hasLiveChain h).lookup?_eq_some_iff.mpr ⟨home, ⟨before, after, rfl, ?_⟩, ?_⟩
  · intro other hmem
    rw [hchanges.bindings_eq other (h.ne_of_mem_before hmem)]
    exact hbefore other hmem
  · rw [bindings_setLocal, if_pos ⟨rfl, h.of_append.isSome_scope?⟩, Bindings.find?_insert,
      if_pos rfl]

/-- A new binding changes nothing of what is looked up from where its home is not visible. -/
theorem lookup?_setLocal_of_not_visible (h : store.HasLiveChain id ids)
    (hvisible : ¬store.Visible name ids home) (value : Value) :
    (store.setLocal home name value).lookup? id name = store.lookup? id name := by
  have hchanges := store.changesOnly_setLocal home name value
  have hsame {others : List ScopeId} (hne : ∀ other ∈ others, other ≠ home) :
      others.findSome? (fun i ↦ ((store.setLocal home name value).bindings i).find? name)
        = others.findSome? fun i ↦ (store.bindings i).find? name :=
    findSome?_congr fun other hmem ↦ by rw [hchanges.bindings_eq other (hne other hmem)]
  rw [(hchanges.hasLiveChain h).lookup?_eq, h.lookup?_eq]
  by_cases hmem : home ∈ ids
  · obtain ⟨before, after, rfl⟩ := List.append_of_mem hmem
    rw [List.findSome?_append, List.findSome?_append, hsame fun _ ↦ h.ne_of_mem_before]
    -- a scope before the home of the binding decides
    cases hfind : before.findSome? fun i ↦ (store.bindings i).find? name with
    | none => exact absurd ⟨before, after, rfl, List.findSome?_eq_none_iff.mp hfind⟩ hvisible
    | some found => rfl
  · exact hsame fun other hother heq ↦ hmem (heq ▸ hother)

/-- What is looked up changes where the home of the new binding is visible, for its name only. -/
theorem lookup?_setLocal_eq_lookup? (h : store.HasLiveChain id ids) {sought : String}
    (hnot : ¬(sought = name ∧ store.Visible name ids home)) (value : Value) :
    (store.setLocal home name value).lookup? id sought = store.lookup? id sought := by
  by_cases hname : sought = name
  · subst hname
    exact h.lookup?_setLocal_of_not_visible (fun hvisible ↦ hnot ⟨rfl, hvisible⟩) value
  · exact lookup?_setLocal_of_ne hname home value

/-! ## Scopes that are given up -/

/-- A chain that leads to a scope ends before it once that scope is given up. -/
theorem drop (h : store.HasLiveChain id (before ++ home :: after)) (hne : before ≠ []) :
    (store.drop home).HasLiveChain id before := by
  have hhome : home < store.nextId := h.lt_nextId_of_mem (List.mem_append_right _ List.mem_cons_self)
  induction before generalizing id with
  | nil => exact absurd rfl hne
  | cons first before ih =>
    have hfirst : first ≠ home := h.ne_of_mem_before List.mem_cons_self
    generalize hids : first :: before ++ home :: after = ids at h
    cases h with
    | root => simp at hids
    | @link _ parent bindings _ hscope hparent =>
      obtain ⟨rfl, rfl⟩ := List.cons.inj hids
      have hscope' : (store.drop home).scope? first = some ⟨bindings, some parent⟩ := by
        rw [scope?_drop, if_neg hfirst, hscope]
      cases before with
      | nil =>
        obtain ⟨rest, hrest⟩ := hparent.eq_cons
        obtain ⟨rfl, -⟩ := List.cons.inj hrest
        refine .root ⟨_, hscope', fun link hlink ↦ ?_⟩
        obtain rfl := Option.some.inj hlink
        rw [nextId_drop, scope?_drop, if_pos rfl]
        exact ⟨hhome, rfl⟩
      | cons second before => exact .link hscope' (ih hparent (List.cons_ne_nil _ _))

end HasLiveChain

/-! ## Writes in another order -/

/-- Binds a name in a scope or in its root. -/
def write (store : Store) : Target → ScopeId → String → Value → Store
  | .globally => store.setGlobal
  | .locally => store.setLocal

/-- A write binds the name in its target. -/
theorem write_eq_setLocal (store : Store) (target : Target) (id : ScopeId) (name : String)
    (value : Value) :
    store.write target id name value = store.setLocal (store.target id target) name value := by
  cases target with
  | globally | locally => rfl

/-- A write moves no target. -/
theorem target_write (store : Store) (target target' : Target) (id id' : ScopeId) (name : String)
    (value : Value) :
    (store.write target id name value).target id' target' = store.target id' target' := by
  rw [write_eq_setLocal]
  exact (store.changesOnly_setLocal _ name value).target_eq id' target'

theorem HasLiveChain.write (h : store.HasLiveChain id ids) (target : Target) (id' : ScopeId)
    (name : String) (value : Value) : (store.write target id' name value).HasLiveChain id ids := by
  rw [write_eq_setLocal]
  exact (store.changesOnly_setLocal _ name value).hasLiveChain h

/-- Writes to different names or into different scopes can be made in either order. -/
theorem write_comm (hne : store.target id target ≠ store.target id' target' ∨ name ≠ name')
    (value value' : Value) :
    (store.write target id name value).write target' id' name' value'
      = (store.write target' id' name' value').write target id name value := by
  rw [write_eq_setLocal _ target', target_write, write_eq_setLocal store, setLocal_comm _ _ _ hne,
    write_eq_setLocal _ target, target_write, write_eq_setLocal store]

/-- A second write to a name in the same scope replaces the first. -/
theorem write_write (htarget : store.target id target = store.target id' target') (name : String)
    (value value' : Value) :
    (store.write target id name value).write target' id' name value'
      = store.write target' id' name value' := by
  rw [write_eq_setLocal _ target', target_write, write_eq_setLocal store, htarget,
    setLocal_setLocal, write_eq_setLocal]

/-- Writes into the root are the same through all scopes that have this root. -/
theorem HasLiveChain.setGlobal_eq (h : store.HasLiveChain id ids)
    (h' : store.HasLiveChain id' ids') (hlast : ids.getLast? = ids'.getLast?) (name : String)
    (value : Value) : store.setGlobal id name value = store.setGlobal id' name value := by
  rw [h.getLast?_eq, h'.getLast?_eq] at hlast
  rw [setGlobal, setGlobal, Option.some.inj hlast]

/-- **Lookups and writes agree on chains and roots.** Let two scopes have chains that end. A name
that is looked up through the first has the value in the first scope on the chain that binds it, and
there is a failure when none does. A write into a scope is looked up where it is on the chain with
no scope before it that binds the name. A write into the root of the second scope is looked up where
this is the root of the first one, too, with no scope below it that binds the name. Nothing else
that is looked up changes, and all chains are kept. Writes to different names or into different
scopes commute, one to the same name in the same scope replaces another, and writes into the root
are the same through both scopes when they have the same root. -/
theorem HasLiveChain.lookup_and_writes (h : store.HasLiveChain id ids)
    (h' : store.HasLiveChain id' ids') :
    (∀ name,
      (∀ value, store.lookup? id name = some value ↔
        ∃ home, store.Visible name ids home ∧ (store.bindings home).find? name = some value) ∧
      (store.lookup? id name = none ↔ ∀ home ∈ ids, (store.bindings home).find? name = none) ∧
      ∀ library output a m', Evaluates library id (.symbol name) ⟨store, output⟩ a m' ↔
        m' = ⟨store, output⟩ ∧
          a = (store.lookup? id name).getD (EvalError.unboundSymbol name).toValue) ∧
    (∀ home name value,
      (store.Visible name ids home →
        (store.setLocal home name value).lookup? id name = some value) ∧
      ∀ sought, ¬(sought = name ∧ store.Visible name ids home) →
        (store.setLocal home name value).lookup? id sought = store.lookup? id sought) ∧
    (∀ name value,
      (store.RootVisible name ids ids' →
        (store.setGlobal id' name value).lookup? id name = some value) ∧
      ∀ sought, ¬(sought = name ∧ store.RootVisible name ids ids') →
        (store.setGlobal id' name value).lookup? id sought = store.lookup? id sought) ∧
    (∀ target writer name value, (store.write target writer name value).HasLiveChain id ids) ∧
    (∀ target target' name name' value value',
      store.target id target ≠ store.target id' target' ∨ name ≠ name' →
      (store.write target id name value).write target' id' name' value'
        = (store.write target' id' name' value').write target id name value) ∧
    (∀ target target' name value value', store.target id target = store.target id' target' →
      (store.write target id name value).write target' id' name value'
        = store.write target' id' name value') ∧
    (ids.getLast? = ids'.getLast? → ∀ name value,
      store.setGlobal id name value = store.setGlobal id' name value) := by
  refine ⟨fun name ↦ ⟨fun value ↦ h.lookup?_eq_some_iff, h.lookup?_eq_none_iff,
      fun library output a m' ↦ evaluates_symbol_iff⟩,
    fun home name value ↦ ⟨fun hvisible ↦ h.lookup?_setLocal_of_visible hvisible value,
      fun sought hnot ↦ h.lookup?_setLocal_eq_lookup? hnot value⟩,
    fun name value ↦ ⟨fun hvisible ↦ ?_, fun sought hnot ↦ ?_⟩,
    fun target writer name value ↦ h.write target writer name value,
    fun _ _ _ _ value value' hne ↦ write_comm hne value value',
    fun _ _ name value value' heq ↦ write_write heq name value value',
    h.setGlobal_eq h'⟩
  · exact h.lookup?_setLocal_of_visible ((h.visible_root_iff h').mpr hvisible) value
  · rw [← h.visible_root_iff h'] at hnot
    exact h.lookup?_setLocal_eq_lookup? hnot value

/-- Of four scopes the first one, the root of all, is given up. Then the second is the root of the
third and of the fourth: what is written into it through the fourth is looked up through the third,
but not through the fourth, which binds the name itself. -/
theorem HasLiveChain.lookup_and_writes_of_siblings :
    ∃ store : Store, store.HasLiveChain 2 [2, 1] ∧ store.HasLiveChain 3 [3, 1] ∧
      store.lookup? 2 "x" = none ∧
      (store.setGlobal 3 "x" (.number 5)).lookup? 2 "x" = some (.number 5) ∧
      (store.setGlobal 3 "x" (.number 5)).lookup? 3 "x" = store.lookup? 3 "x" ∧
      (store.setLocal 3 "x" (.number 5)).lookup? 3 "x" = some (.number 5) ∧
      (store.write .globally 2 "x" (.number 5)).write .locally 3 "x" (.number 6)
        = (store.write .locally 3 "x" (.number 6)).write .globally 2 "x" (.number 5) ∧
      (store.write .globally 2 "x" (.number 5)).write .globally 3 "x" (.number 6)
        = store.write .globally 3 "x" (.number 6) := by
  let whole : Store := ⟨#[some ⟨[("x", .number 1)], none⟩, some ⟨[], some 0⟩, some ⟨[], some 1⟩,
    some ⟨[("x", .number 2)], some 1⟩]⟩
  have hsecond : whole.HasLiveChain 1 [1, 0] := .link rfl (.root ⟨_, rfl, fun _ ↦ nofun⟩)
  have hthird : (whole.drop 0).HasLiveChain 2 [2, 1] :=
    @HasLiveChain.drop _ _ _ [2, 1] [] (.link rfl hsecond) (List.cons_ne_nil _ _)
  have hfourth : (whole.drop 0).HasLiveChain 3 [3, 1] :=
    @HasLiveChain.drop _ _ _ [3, 1] [] (.link rfl hsecond) (List.cons_ne_nil _ _)
  have hroots : (whole.drop 0).root 2 = 1 ∧ (whole.drop 0).root 3 = 1 := ⟨rfl, rfl⟩
  have hunbound : ∀ home ∈ [2, 1], ((whole.drop 0).bindings home).find? "x" = none := by
    simp only [List.forall_mem_cons]
    exact ⟨rfl, rfl, fun _ ↦ nofun⟩
  have hvisible : (whole.drop 0).RootVisible "x" [2, 1] [3, 1] :=
    ⟨rfl, fun below hmem ↦ hunbound below (List.dropLast_subset _ hmem)⟩
  have hshadowed : ¬(whole.drop 0).RootVisible "x" [3, 1] [3, 1] := fun hvisible ↦
    Option.some_ne_none _ (hvisible.2 3 List.mem_cons_self)
  obtain ⟨hlookup, -, hglobal, -, hcomm, hreplace, -⟩ := lookup_and_writes hthird hfourth
  obtain ⟨-, hlocal, hroot, -⟩ := lookup_and_writes hfourth hfourth
  refine ⟨whole.drop 0, hthird, hfourth, (hlookup "x").2.1.mpr hunbound,
    (hglobal "x" (.number 5)).1 hvisible,
    (hroot "x" (.number 5)).2 "x" fun h ↦ hshadowed h.2,
    (hlocal 3 "x" (.number 5)).1 ⟨[], [1], rfl, fun _ ↦ nofun⟩,
    hcomm .globally .locally "x" "x" _ _ (Or.inl ?_),
    hreplace .globally .globally "x" _ _ ?_⟩
  · change (whole.drop 0).root 2 ≠ 3
    rw [hroots.1]
    decide
  · change (whole.drop 0).root 2 = (whole.drop 0).root 3
    rw [hroots.1, hroots.2]

end Store

end QuoteLisp
