import QuoteLisp.Proofs.Evaluation.Normal

/-!
# Quoting and evaluating cancel

A form in braces is data, and `eval` has its cells evaluated as a form in parentheses. So `eval`
undoes braces, in any machine (`derives_eval_qexpr_iff`).

`list` evaluates its arguments and puts the results into braces, and when `eval` undoes these, the
results are evaluated once more. That is why a second law needs more of the machine: results have
to be final, as they are when everything bound is normal. Then `eval` undoes `list` as well, even
if an argument fails, since the leftmost failure wins at both forms, and even if the arguments
change what `eval` and `list` stand for, since operators are looked up first
(`derives_eval_list_iff`).
-/

namespace QuoteLisp

open Value

variable {library : Library} {scope : ScopeId} {m m' m₁ : Machine} {a : Value}

/-! ## Forms and their cells -/

theorem actionOf_singleton (v : Value) : actionOf [v] = .give v := by
  cases v <;> rfl

theorem comesTo_give_iff {P : ScopeId → Task → Machine → List Value → Machine → Prop} {v : Value} :
    (Action.give v).ComesTo library P scope m a m' ↔ a = v ∧ m' = m := by
  constructor
  · intro h
    cases h with
    | give => exact ⟨rfl, rfl⟩
  · rintro ⟨rfl, rfl⟩
    exact .give

theorem derives_cells_singleton_iff {v : Value} {as : List Value} :
    Derives library scope (.cells [v]) m as m' ↔
      ∃ b, as = [b] ∧ Derives library scope (.value v) m [b] m' := by
  constructor
  · intro h
    cases h with
    | cell hv hnil =>
      cases hnil
      exact ⟨_, rfl, hv⟩
  · rintro ⟨b, rfl, hv⟩
    exact .cell hv .noCells

/-- A bound operator is looked up, and the arguments are evaluated in the same machine. -/
theorem derives_cells_symbol_iff {name : String} {v : Value} {vs as : List Value}
    (hname : m.store.lookup? scope name = some v) :
    Derives library scope (.cells (symbol name :: vs)) m as m' ↔
      ∃ bs, as = v :: bs ∧ Derives library scope (.cells vs) m bs m' := by
  have hv : Derives library scope (.value (symbol name)) m [v] m := .bound hname
  constructor
  · intro h
    cases h with
    | cell hv' hvs =>
      obtain ⟨heq, rfl⟩ := hv.unique hv'
      obtain rfl := List.singleton_inj.mp heq
      exact ⟨_, rfl, hvs⟩
  · rintro ⟨bs, rfl, hvs⟩
    exact .cell hv hvs

/-- Final values are evaluated to themselves, all at once. -/
theorem derives_cells_of_isFinal {vs : List Value} (h : ∀ v ∈ vs, v.IsFinal) :
    Derives library scope (.cells vs) m vs m := by
  induction vs with
  | nil => exact .noCells
  | cons v vs ih =>
    obtain ⟨hv, hvs⟩ := List.forall_mem_cons.mp h
    have hsame : Evaluates library scope v m v m := (hv library scope m v m).mpr ⟨rfl, rfl⟩
    exact .cell (evaluates_iff_derives.mp hsame) (ih hvs)

/-! ## The laws -/

/-- Parentheses around a single expression make no difference. -/
theorem derives_sexpr_singleton_iff {v : Value} :
    Derives library scope (.value (sexpr [v])) m [a] m' ↔
      Derives library scope (.value v) m [a] m' := by
  rw [derives_sexpr_iff]
  constructor
  · rintro ⟨values, m₁, hcells, h⟩
    obtain ⟨b, rfl, hv⟩ := derives_cells_singleton_iff.mp hcells
    rw [actionOf_singleton, comesTo_give_iff] at h
    obtain ⟨rfl, rfl⟩ := h
    exact hv
  · intro hv
    refine ⟨[a], m', derives_cells_singleton_iff.mpr ⟨a, rfl, hv⟩, ?_⟩
    rw [actionOf_singleton, comesTo_give_iff]
    exact ⟨rfl, rfl⟩

/-- What `eval` asks for comes to what its cells come to as a form. -/
theorem comesTo_eval_qexpr_iff {es : List Value} :
    (actionOf [primitive .eval, qexpr es]).ComesTo library (Derives library) scope m a m' ↔
      Derives library scope (.value (sexpr es)) m [a] m' := by
  change Action.ComesTo library (Derives library) scope (.request (.evaluate es)) m a m' ↔ _
  constructor
  · intro h
    cases h with
    | evaluate hselected => exact hselected
  · exact .evaluate

/-- `eval` undoes braces. -/
theorem derives_eval_qexpr_iff {es : List Value}
    (heval : m.store.lookup? scope "eval" = some (primitive .eval)) :
    Derives library scope (.value (sexpr [symbol "eval", qexpr es])) m [a] m' ↔
      Derives library scope (.value (sexpr es)) m [a] m' := by
  have hcells : Derives library scope (.cells [symbol "eval", qexpr es]) m
      [primitive .eval, qexpr es] m := .cell (.bound heval) (.cell (.inert trivial) .noCells)
  rw [derives_sexpr_iff_of_cells hcells, comesTo_eval_qexpr_iff]

/-- Final values that are put into a list and taken out by `eval` are applied as they would have
been at once. -/
theorem comesTo_list_eval_iff {vs : List Value} (hne : vs ≠ []) (hfinal : ∀ v ∈ vs, v.IsFinal) :
    (∃ b m₁, (actionOf (primitive .list :: vs)).ComesTo library (Derives library) scope m b m₁ ∧
        (actionOf [primitive .eval, b]).ComesTo library (Derives library) scope m₁ a m') ↔
      (actionOf vs).ComesTo library (Derives library) scope m a m' := by
  cases hfind : vs.find? Value.isError with
  | some failure =>
    have herror : failure.isError = true := List.find?_some hfind
    have hinner : actionOf (primitive .list :: vs) = .give failure :=
      actionOf_of_find?_isError hfind
    have houter : actionOf [primitive .eval, failure] = .give failure := by
      refine actionOf_of_find?_isError ?_
      change [failure].find? Value.isError = some failure
      rw [List.find?_cons_of_pos herror]
    rw [hinner, actionOf_of_find?_isError hfind, comesTo_give_iff]
    constructor
    · rintro ⟨b, m₁, hb, h⟩
      obtain ⟨rfl, rfl⟩ := comesTo_give_iff.mp hb
      rw [houter] at h
      exact comesTo_give_iff.mp h
    · rintro ⟨rfl, rfl⟩
      exact ⟨a, m', comesTo_give_iff.mpr ⟨rfl, rfl⟩, houter ▸ comesTo_give_iff.mpr ⟨rfl, rfl⟩⟩
  | none =>
    obtain ⟨v, vs, rfl⟩ := List.exists_cons_of_ne_nil hne
    have hnone : ∀ w ∈ v :: vs, w.isError = false := fun w hw ↦
      eq_false_of_ne_true (List.find?_eq_none.mp hfind w hw)
    have hinner : actionOf (primitive .list :: v :: vs) = .give (qexpr (v :: vs)) :=
      @actionOf_application (.primitive .list) v vs hnone
    have hagain : Derives library scope (.cells (v :: vs)) m (v :: vs) m :=
      derives_cells_of_isFinal hfinal
    rw [hinner, ← derives_sexpr_iff_of_cells hagain]
    constructor
    · rintro ⟨b, m₁, hb, h⟩
      obtain ⟨rfl, rfl⟩ := comesTo_give_iff.mp hb
      exact comesTo_eval_qexpr_iff.mp h
    · intro h
      exact ⟨_, m, comesTo_give_iff.mpr ⟨rfl, rfl⟩, comesTo_eval_qexpr_iff.mpr h⟩

/-- `eval` undoes `list`, if the arguments have final results. -/
theorem derives_eval_list_iff {es : List Value} (hne : es ≠ [])
    (heval : m.store.lookup? scope "eval" = some (primitive .eval))
    (hlist : m.store.lookup? scope "list" = some (primitive .list))
    (hfinal : ∀ vs m₁, Derives library scope (.cells es) m vs m₁ → ∀ v ∈ vs, v.IsFinal) :
    Derives library scope (.value (sexpr [symbol "eval", sexpr (symbol "list" :: es)])) m [a] m' ↔
      Derives library scope (.value (sexpr es)) m [a] m' := by
  have hnonempty {vs : List Value} {m₁ : Machine} (h : Derives library scope (.cells es) m vs m₁) :
      vs ≠ [] := by
    rintro rfl
    cases h
    exact hne rfl
  constructor
  · intro h
    obtain ⟨values, m₂, houter, h⟩ := derives_sexpr_iff.mp h
    obtain ⟨bs, rfl, hbs⟩ := (derives_cells_symbol_iff heval).mp houter
    obtain ⟨b, rfl, hb⟩ := derives_cells_singleton_iff.mp hbs
    obtain ⟨values, m₁, hinner, hb⟩ := derives_sexpr_iff.mp hb
    obtain ⟨vs, rfl, hes⟩ := (derives_cells_symbol_iff hlist).mp hinner
    rw [derives_sexpr_iff_of_cells hes]
    exact (comesTo_list_eval_iff (hnonempty hes) (hfinal vs m₁ hes)).mp ⟨b, m₂, hb, h⟩
  · intro h
    obtain ⟨vs, m₁, hes, h⟩ := derives_sexpr_iff.mp h
    obtain ⟨b, m₂, hb, h⟩ := (comesTo_list_eval_iff (hnonempty hes) (hfinal vs m₁ hes)).mpr h
    have hinner := (derives_cells_symbol_iff hlist).mpr ⟨vs, rfl, hes⟩
    have hlistform := derives_sexpr_iff.mpr ⟨_, m₁, hinner, hb⟩
    have houter := (derives_cells_symbol_iff heval).mpr
      ⟨[b], rfl, derives_cells_singleton_iff.mpr ⟨b, rfl, hlistform⟩⟩
    exact derives_sexpr_iff.mpr ⟨_, m₂, houter, h⟩

/-! ## Machines that runs lead to -/

/-- The value is a form of some source. -/
def Value.IsRead (v : Value) : Prop :=
  ∃ text forms, readForms text standardInput = .ok forms ∧ v ∈ forms

theorem Value.IsRead.bindsSettled {v : Value} (h : v.IsRead) : v.BindsSettled := by
  obtain ⟨text, forms, hforms, hmem⟩ := h
  exact bindsSettled_of_readForms hforms v hmem

/-- The machines that come about when sources are run on a fresh one: those that a step leaves
behind, and those in which something is done in the course of a step. In between, a new scope may be
put inside any other one, and any name may be bound to what an evaluation has resulted in. -/
inductive Machine.Arises (output : Output) : Machine → Prop
  | start : Arises output (Machine.start output)
  | step {step : Step} {m m' : Machine} {answer : Except HostError Value} :
      Arises output m → step.IsRead → step.Ends m answer m' → Arises output m'
  | during {step : Step} {m : Machine} {call : Call} :
      Arises output m → step.IsRead → step.Makes m call → Arises output call.machine
  | frame {m : Machine} (around : ScopeId) : Arises output m → Arises output (m.enter [] around)
  | assign {m m₁ m₂ : Machine} {library : Library} {scope : ScopeId} {v a : Value}
      (target : ScopeId) (name : String) : Arises output m → Arises output m₁ → v.IsRead →
      Evaluates library scope v m₁ a m₂ → a.isError = false →
      Arises output { m with store := m.store.setLocal target name a }

/-- Everything bound in such a machine is normal. -/
theorem Machine.Arises.allBound {output : Output} (h : m.Arises output) :
    m.store.AllBound (Binds BindsSettled) := by
  induction h with
  | start => exact Store.isNormal_iff.mp (isNormal_start output)
  | step _ hread hends ih => exact (hends.isResult_and_allBound hread ih).2
  | @during step _ _ _ hread hmakes ih =>
    obtain ⟨first, hstarts, hreaches⟩ := hmakes
    exact ((hstarts.has hread ih).of_reaches hereditary_bindsSettled
      step.library.admits_bindsSettled hreaches).allBound
  | frame around _ ih => exact ih.push (List.forall_mem_nil _)
  | @assign _ _ _ library _ _ _ target name _ _ hread heval herror ih ih₁ =>
    obtain ⟨ha, -⟩ := (evaluates_iff_derives.mp heval).isResult_and_allBound
      hereditary_bindsSettled library.admits_bindsSettled
      (List.forall_mem_singleton.mpr hread.bindsSettled) ih₁
    obtain ⟨hsettled, hbinds⟩ := (List.forall_mem_singleton.mp ha).of_isError_eq_false herror
    exact ih.setLocal target ⟨bindsSettled_symbol name, hsettled, hbinds⟩

/-- **Quoting and evaluating cancel.** Take a machine that runs lead to and a scope in which `eval`
and `list` stand for the operations of these names. Then a call of `eval` on expressions in braces,
and on the list of them if there are any, does what the expressions do as a form, with the same
result and the same effects. A form of a single expression does what the expression does. -/
theorem Machine.Arises.evaluates_quoted_iff {output : Output} (h : m.Arises output)
    (library : Library) {scope : ScopeId}
    (heval : m.store.lookup? scope "eval" = some (primitive .eval))
    (hlist : m.store.lookup? scope "list" = some (primitive .list)) {es : List Value}
    (hes : ∀ e ∈ es, e.IsRead) :
    (∀ a m', Evaluates library scope (sexpr [symbol "eval", qexpr es]) m a m' ↔
        Evaluates library scope (sexpr es) m a m') ∧
      (es ≠ [] → ∀ a m',
        Evaluates library scope (sexpr [symbol "eval", sexpr (symbol "list" :: es)]) m a m' ↔
          Evaluates library scope (sexpr es) m a m') ∧
      ∀ e a m',
        Evaluates library scope (sexpr [e]) m a m' ↔ Evaluates library scope e m a m' := by
  simp only [evaluates_iff_derives]
  refine ⟨fun a m' ↦ derives_eval_qexpr_iff heval, fun hne a m' ↦ ?_,
    fun e a m' ↦ derives_sexpr_singleton_iff⟩
  refine derives_eval_list_iff hne heval hlist fun vs m₁ hcells v hv ↦ ?_
  have hsettled : ∀ e ∈ es, e.BindsSettled := fun e he ↦ (hes e he).bindsSettled
  obtain ⟨hresults, -⟩ := hcells.isResult_and_allBound hereditary_bindsSettled
    library.admits_bindsSettled hsettled h.allBound
  exact (hresults v hv).isFinal

/-- An argument of `list` that binds `eval` to a number, before `eval` is applied. -/
theorem evaluates_quoted_rebinding_eval :
    Evaluates ⟨fun _ ↦ none⟩ globalScope (sexpr [symbol "eval", sexpr [symbol "list",
        sexpr [symbol "def", qexpr [symbol "eval"], number 1]]]) (Machine.start .empty) .unit
      ((Machine.start .empty).bindAll .globally globalScope [("eval", number 1)]) := by
  have hdef : Evaluates ⟨fun _ ↦ none⟩ globalScope
      (sexpr [symbol "def", qexpr [symbol "eval"], number 1]) (Machine.start .empty) .unit
      ((Machine.start .empty).bindAll .globally globalScope [("eval", number 1)]) :=
    evaluates_iff_derives.mpr (.bind (.cell (.bound (lookup?_start (.define .globally) .empty))
      (.cell (.inert trivial) (.cell (.inert trivial) .noCells))) rfl)
  have hread : (sexpr [symbol "def", qexpr [symbol "eval"], number 1]).IsRead :=
    Step.isRead_form (by simp +decide) ⟨fun _ ↦ none⟩ globalScope
  obtain ⟨-, hlist, hsingle⟩ := Machine.Arises.evaluates_quoted_iff (@Machine.Arises.start .empty)
    ⟨fun _ ↦ none⟩ (lookup?_start .eval .empty) (lookup?_start .list .empty)
    (List.forall_mem_singleton.mpr hread)
  exact (hlist (List.cons_ne_nil _ _) _ _).mpr ((hsingle _ _ _).mpr hdef)

end QuoteLisp
