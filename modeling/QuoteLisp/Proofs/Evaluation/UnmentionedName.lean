import QuoteLisp.Proofs.Evaluation.Simulation
import QuoteLisp.Proofs.Value.Omits

/-!
# Names that nothing mentions

Scopes are searched for names at any depth, and lists turn into code, so it may seem that a name
could come up that a program did not mention. It cannot: no operation makes a name. As long as
neither the program nor anything bound mentions a name, evaluation never looks it up and never binds
it, and one more binding of that name makes no difference, whatever its value and wherever it is.

The value may mention the name itself. It is never looked at.

Two things are left out. A loaded file brings in names of its own, and `print_env` shows every
binding of a scope.
-/

namespace QuoteLisp

open Value Store

namespace Store

variable {store : Store} {name : String} {v : Value} {id t : ScopeId}

/-- Nothing that is bound mentions the name, and the name is not bound itself. -/
def Omits (store : Store) (name : String) : Prop :=
  store.AllBound fun entry ↦ entry.1 ≠ name ∧ entry.2.Omits name

/-- The second store binds one name more than the first, in a scope `t`. -/
structure BindsBesides (t : ScopeId) (name : String) (v : Value) (store store' : Store) :
    Prop where
  omits : store.Omits name
  isSome : (store.scope? t).isSome
  eq_setLocal : store' = store.setLocal t name v

namespace BindsBesides

variable {store' : Store}

theorem setLocal (h : BindsBesides t name v store store') {other : String} {w : Value}
    (target : Target) (hne : other ≠ name) (hw : w.Omits name) :
    BindsBesides t name v (store.setLocal (store.target id target) other w)
      (store'.setLocal (store'.target id target) other w) where
  omits := h.omits.setLocal _ ⟨hne, hw⟩
  isSome := by
    rw [(store.changesOnly_setLocal _ other w).isSome_scope?]
    exact h.isSome
  eq_setLocal := by
    rw [h.eq_setLocal, (store.changesOnly_setLocal t name v).target_eq,
      setLocal_comm _ _ _ (Or.inr hne.symm)]

theorem push (h : BindsBesides t name v store store') {scope : Scope}
    (hscope : ∀ entry ∈ scope.bindings, entry.1 ≠ name ∧ entry.2.Omits name) :
    BindsBesides t name v (store.push scope) (store'.push scope) where
  omits := h.omits.push hscope
  isSome := by
    rw [scope?_push, if_neg (Nat.ne_of_lt (lt_nextId_of_isSome h.isSome))]
    exact h.isSome
  eq_setLocal := by rw [h.eq_setLocal, push_setLocal (lt_nextId_of_isSome h.isSome)]

/-- When a scope has gone, the one with the additional binding is still there. -/
theorem pop (h : BindsBesides t name v store store') {scope : Scope} {after after' : Store}
    (hchanges : (store.push scope).ChangesOnly (fun _ ↦ True) after)
    (hafter : BindsBesides t name v after after') :
    BindsBesides t name v after.pop after'.pop where
  omits := hafter.omits.pop
  isSome := by
    rw [hchanges.pop.isSome_scope?]
    exact h.isSome
  eq_setLocal := by rw [hafter.eq_setLocal, pop_setLocal]

end BindsBesides

end Store

/-- A program that does not mention the name cannot tell the two stores apart. The index is the
scope that it is run in. -/
def besidesSimulation (t : ScopeId) (name : String) (v : Value) :
    Simulation (Omits name) ScopeId where
  scope i := i
  scope' i := i
  Rel _ := BindsBesides t name v
  hereditary := hereditaryWith_omits name
  error := omits_error
  lookup?_eq h hname := by
    rw [h.eq_setLocal]
    exact lookup?_setLocal_of_ne (omits_symbol_iff.mp hname) t v
  of_lookup? h _ hlookup := (h.omits.of_lookup? _ hlookup).2
  setLocal target h hname hw := h.setLocal target (omits_symbol_iff.mp hname) hw
  exists_push {i store store' bound} h hbound := by
    have hentries : ∀ entry ∈ bound, entry.1 ≠ name ∧ entry.2.Omits name := fun entry hentry ↦
      (hbound entry hentry).imp_left omits_symbol_iff.mp
    have hnextId : store'.nextId = store.nextId := by
      rw [h.eq_setLocal]
      exact (store.changesOnly_setLocal t name v).nextId_eq
    exact ⟨store.nextId, rfl, hnextId.symm, h.push hentries, fun _ _ hchanges _ ↦ h.pop hchanges⟩

section

variable {library : Library} {scope t : ScopeId} {m m' : Machine} {e a v : Value} {name : String}

/-- **Names that nothing mentions do not interfere.** Let a name occur nowhere in a value and in
nothing that any scope binds, and let no scope bind it. If the evaluation of the value ends without
`load` or `print_env` being applied, then it ends too if the name is bound besides in any one scope,
whatever to. The result is the same and so is the output, and the scopes that are left differ by
that binding only. The result and these scopes do not mention the name either. -/
theorem Evaluates.setLocal_of_omits (h : Evaluates library scope e m a m')
    (hstore : m.store.Omits name) (he : e.Omits name) (ht : (m.store.scope? t).isSome)
    (hload : ¬Activation.Applies library ⟨scope, .eval e, m, []⟩ .load)
    (hprint : ¬Activation.Applies library ⟨scope, .eval e, m, []⟩ .printScope) (v : Value) :
    Evaluates library scope e { m with store := m.store.setLocal t name v } a
        { m' with store := m'.store.setLocal t name v } ∧
      m'.store.Omits name ∧ a.Omits name := by
  obtain ⟨after', h', hafter, ha⟩ := (besidesSimulation t name v).exists_evaluates hprint
    (fun _ _ _ hread ↦ absurd (Library.restrict_eq_some_iff.mp hread).1.applies hload) h he
    ⟨hstore, ht, rfl⟩
  rw [hafter.eq_setLocal] at h'
  exact ⟨h', hafter.omits, ha⟩

/-- In a fresh machine a name is bound with `=`, while another name is bound already or is not. -/
theorem setLocal_of_omits_assignment :
    ∃ m' : Machine, (Machine.start .empty).store.Omits "y" ∧
      (sexpr [.symbol "=", .qexpr [.symbol "x"], .exit]).Omits "y" ∧
      ((Machine.start .empty).store.scope? globalScope).isSome ∧
      Evaluates ⟨fun _ ↦ none⟩ globalScope (sexpr [.symbol "=", .qexpr [.symbol "x"], .exit])
        (.start .empty) .unit m' ∧
      Evaluates ⟨fun _ ↦ none⟩ globalScope (sexpr [.symbol "=", .qexpr [.symbol "x"], .exit])
        ⟨(Machine.start .empty).store.setLocal globalScope "y" (.number 7), .empty⟩ .unit
        ⟨m'.store.setLocal globalScope "y" (.number 7), .empty⟩ ∧
      m'.store.lookup? globalScope "x" = some .exit := by
  have hstore : (Machine.start .empty).store.Omits "y" := allBound_start (fun operation ↦
    ⟨(by decide : ∀ operation ∈ Primitive.all, operation.name ≠ "y") _ operation.mem_all,
      omits_primitive operation⟩) _
  have hform : (sexpr [.symbol "=", .qexpr [.symbol "x"], .exit]).Omits "y" := by
    simp [omits_sexpr_iff, omits_qexpr_iff, omits_symbol_iff, (hereditaryWith_omits "y").exit]
  have hcells : Derives ⟨fun _ ↦ none⟩ globalScope
      (.cells [.symbol "=", .qexpr [.symbol "x"], .exit]) (.start .empty)
      [.primitive (.define .locally), .qexpr [.symbol "x"], .exit] (.start .empty) :=
    .cell (.bound (lookup?_start (.define .locally) .empty))
      (.cell (.inert trivial) (.cell (.inert trivial) .noCells))
  have hrun : Evaluates ⟨fun _ ↦ none⟩ globalScope
      (sexpr [.symbol "=", .qexpr [.symbol "x"], .exit]) (.start .empty) .unit
      ((Machine.start .empty).bindAll .locally globalScope [("x", .exit)]) :=
    evaluates_iff_derives.mpr (.bind hcells rfl)
  have hnot (other : Primitive) (hne : other ≠ .define .locally) :
      ¬Activation.Applies ⟨fun _ ↦ none⟩ ⟨globalScope,
        .eval (sexpr [.symbol "=", .qexpr [.symbol "x"], .exit]), .start .empty, []⟩ other :=
    Activation.not_applies_of_flat hcells (by simp) (by rintro _ ⟨⟩; simp) hne
  have hglobal : ((Machine.start .empty).store.scope? globalScope).isSome := rfl
  obtain ⟨hboth, -⟩ := hrun.setLocal_of_omits hstore hform hglobal (hnot .load nofun)
    (hnot .printScope nofun) (.number 7)
  exact ⟨_, hstore, hform, hglobal, hrun, hboth, lookup?_of_find? rfl⟩

end

end QuoteLisp
