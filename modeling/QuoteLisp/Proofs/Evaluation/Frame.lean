import QuoteLisp.Proofs.Evaluation.Activation
import QuoteLisp.Proofs.Scope.Changes

/-!
# What evaluation can change

A program run in a scope can bind names in that scope, with `=`, and in its root, with `def`. It
reaches no other scope that was there before: closures have their bodies evaluated in frames of
their own, which come and go, and what `=` does there is gone with the frame. So when the program
has ended, nothing but the bindings of these two scopes has changed, and no name was unbound
(`Derives.changesFrom`, `Activity.Ends.changesFrom`).

All that is asked of the store is that the chain of the scope ends. Then the chain of a frame is
that of the caller with the frame in front, and both have the same root.

Both this and the fact that no link changes at all (`Derives.changesOnly`) are shown by looking at
definitions and frames only, because that is how evaluation changes the store
(`Derives.store_induction`).
-/

namespace QuoteLisp

variable {library : Library} {scope : ScopeId} {m m' : Machine} {ids : List ScopeId} {a : Value}

namespace Store

/-- The scopes that a program run in a scope can bind names in. -/
def Writable (store : Store) (scope id : ScopeId) : Prop :=
  id = scope ∨ id = store.root scope

/-- If the chain of a scope ends, then nothing has changed but what can be written from there. -/
def ChangesFrom (scope : ScopeId) (before after : Store) : Prop :=
  ∀ ids, before.HasChain scope ids → before.ChangesOnly (before.Writable scope) after

variable {before between after : Store}

theorem ChangesFrom.refl (scope : ScopeId) (store : Store) : store.ChangesFrom scope store :=
  fun _ _ ↦ .refl _ _

theorem ChangesFrom.trans (h : before.ChangesFrom scope between)
    (h' : between.ChangesFrom scope after) : before.ChangesFrom scope after := by
  intro ids hchain
  -- the chain is still there after the first part, with the same root
  have hfirst := h ids hchain
  refine hfirst.trans ((h' ids (hfirst.hasChain hchain)).mono fun id hid ↦ ?_)
  rwa [Writable, hfirst.root_eq] at hid

/-- What is done in a frame changes the root alone, once the frame has gone. -/
theorem ChangesFrom.pop {store : Store} {bound : Bindings} (hchain : store.HasChain scope ids)
    (h : (store.push ⟨bound, some scope⟩).ChangesFrom store.nextId after) :
    store.ChangesOnly (· = store.root scope) after.pop := by
  refine (h _ (hchain.push_nextId bound)).pop.mono fun id ⟨hid, hne⟩ ↦ ?_
  exact (hid.resolve_left hne).trans (hchain.root_push_nextId bound)

end Store

open Store

/-! ## Along the rules -/

section

-- what holds between a store and a later one, each time seen from a scope
variable {R : ScopeId → Store → Store → Prop} (refl : ∀ scope store, R scope store store)
  (trans : ∀ {scope before between after}, R scope before between → R scope between after →
    R scope before after)
  (bind : ∀ target scope entries store, R scope store (store.bindAll target scope entries))
  (pop : ∀ {scope store bound after}, R store.nextId (store.push ⟨bound, some scope⟩) after →
    R scope store after.pop)

include refl bind pop in
/-- What an action does to the store, it does by definitions and frames. -/
theorem Action.ComesTo.store_induction {action : Action}
    (h : action.ComesTo library (fun scope _ m _ m' ↦ R scope m.store m'.store) scope m a m') :
    R scope m.store m'.store := by
  cases h with
  | give | loadFails | print => exact refl _ _
  | printScope =>
    rw [Machine.emitAll_store]
    exact refl _ _
  | evaluate hselected => exact hselected
  | load _ _ hforms => exact hforms
  | bind => exact bind _ _ _ _
  | enter hbody => exact pop hbody

include refl trans bind pop in
/-- Evaluation changes the store by definitions and by frames that come and go. -/
theorem Derives.store_induction {task : Task} {as : List Value}
    (h : Derives library scope task m as m') : R scope m.store m'.store := by
  refine h.action_induction (motive := fun scope _ m _ m' ↦ R scope m.store m'.store)
    ?bound ?unbound ?inert ?sexpr ?noCells ?cell ?noForms ?form
  case bound | unbound | inert => exact fun _ ↦ refl _ _
  case noCells | noForms => exact refl _ _
  case sexpr => exact fun hcells haction ↦ trans hcells (haction.store_induction refl bind pop)
  case cell => exact fun hv hvs ↦ trans hv hvs
  case form =>
    intro scope v a vs m m₁ m₂ hv hvs
    rw [Machine.report_store] at hvs
    exact trans hv hvs

end

/-- Whatever is evaluated, all places and links are afterwards what they were before. -/
theorem Derives.changesOnly {task : Task} {as : List Value}
    (h : Derives library scope task m as m') : m.store.ChangesOnly (fun _ ↦ True) m'.store :=
  h.store_induction (R := fun _ before after ↦ before.ChangesOnly (fun _ ↦ True) after)
    (fun _ store ↦ .refl _ store) .trans
    (fun target scope entries store ↦
      (store.changesOnly_bindAll target scope entries).mono fun _ _ ↦ trivial)
    fun hbody ↦ hbody.pop.mono fun _ _ ↦ trivial

theorem Store.changesFrom_bindAll (target : Target) (scope : ScopeId)
    (entries : List (String × Value)) (store : Store) :
    store.ChangesFrom scope (store.bindAll target scope entries) := by
  refine fun ids _ ↦ (store.changesOnly_bindAll target scope entries).mono fun id hid ↦ ?_
  cases target with
  | globally => exact Or.inr hid
  | locally => exact Or.inl hid

theorem Store.ChangesFrom.leave {store after : Store} {bound : Bindings}
    (h : (store.push ⟨bound, some scope⟩).ChangesFrom store.nextId after) :
    store.ChangesFrom scope after.pop :=
  fun _ hchain ↦ (h.pop hchain).mono fun _ hid ↦ Or.inr hid

/-- What an action does to the store, if its tasks change nothing but what they can write. -/
theorem Action.ComesTo.changesFrom {action : Action}
    (h : action.ComesTo library (fun scope _ m _ m' ↦ m.store.ChangesFrom scope m'.store) scope m a
      m') :
    m.store.ChangesFrom scope m'.store :=
  h.store_induction ChangesFrom.refl changesFrom_bindAll ChangesFrom.leave

theorem Derives.changesFrom {task : Task} {as : List Value}
    (h : Derives library scope task m as m') : m.store.ChangesFrom scope m'.store :=
  h.store_induction ChangesFrom.refl ChangesFrom.trans changesFrom_bindAll ChangesFrom.leave

/-- An activity changes nothing but what can be written from its scope. -/
theorem Activity.Ends.changesFrom {activity : Activity}
    (h : activity.Ends library scope m a m') : m.store.ChangesFrom scope m'.store := by
  cases activity with
  | eval v => exact (ends_eval_iff.mp h).changesFrom
  | apply function args => exact ((ends_apply_iff.mp h).mono fun h ↦ h.changesFrom).changesFrom
  | call operation args => exact ((ends_call_iff.mp h).mono fun h ↦ h.changesFrom).changesFrom
  | load path => exact ((ends_load_iff.mp h).mono fun h ↦ h.changesFrom).changesFrom

/-- Applying a closure changes nothing but the root: not even the scope it is applied in. -/
theorem Activity.Ends.changesOnly_root {closure : Closure} {args : List Value}
    (hchain : m.store.HasChain scope ids)
    (h : (Activity.apply (.closure closure) args).Ends library scope m a m') :
    m.store.ChangesOnly (· = m.store.root scope) m'.store := by
  have hcomes := ends_apply_iff.mp h
  rw [Function.action, Closure.action] at hcomes
  split at hcomes
  · cases hcomes
    exact .refl _ _
  · cases hcomes with
    | enter hbody => exact hbody.changesFrom.pop hchain
  · cases hcomes
    exact .refl _ _

end QuoteLisp
