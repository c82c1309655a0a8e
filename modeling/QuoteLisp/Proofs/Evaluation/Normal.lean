import QuoteLisp.Proofs.Evaluation.Session
import QuoteLisp.Proofs.Value.Normal

/-!
# Evaluation results in normal values

Whatever a fresh machine is asked to do, every name is bound to a normal value at every moment, and
every evaluation that ends results in a normal value or in an error. Such a result is final:
evaluating it once more, in any scope of any machine, gives it back and does nothing else.

The property that is carried through a session is that every closure, wherever it occurs, has bound
settled values only (`Value.BindsSettled`). It is one that values share with their parts, so
evaluation keeps it, and sources and files have it from the start because no closure is read.
-/

namespace QuoteLisp

open Value

/-! ## Normal stores -/

/-- Every name that some scope binds has a normal value. -/
def Store.IsNormal (store : Store) : Prop :=
  store.AllBound fun entry ↦ entry.2.Normal

theorem Store.isNormal_iff {store : Store} :
    store.IsNormal ↔ store.AllBound (Binds BindsSettled) := by
  refine forall_congr' fun id ↦ forall_congr' fun entry ↦ forall_congr' fun _ ↦ ?_
  exact binds_bindsSettled_iff.symm

theorem isNormal_start (output : Output) : (Machine.start output).store.IsNormal :=
  allBound_start (fun _ ↦ ⟨trivial, bindsSettled_of_isLeaf trivial⟩) output

theorem Library.admits_bindsSettled (library : Library) : library.Admits BindsSettled :=
  fun _ _ _ _ hforms ↦ bindsSettled_of_fileForms hforms

/-! ## Results are final -/

/-- Evaluating the value gives it back and does nothing else, whatever the files, the scope and the
machine. -/
def Value.IsFinal (a : Value) : Prop :=
  ∀ library scope m b m', Evaluates library scope a m b m' ↔ b = a ∧ m' = m

theorem Value.IsResult.isFinal {Q : Value → Prop} {a : Value} (h : a.IsResult Q) : a.IsFinal := by
  intro library scope m b m'
  have hsame : Evaluates library scope a m a m := by
    rw [evaluates_iff_derives]
    match a with
    | .symbol name => exact (h.elim (fun h ↦ nomatch h) fun h ↦ h.1.elim)
    | .sexpr cells =>
      obtain rfl : cells = [] := h.elim (fun h ↦ nomatch h) fun h ↦ h.1
      exact .give .noCells rfl
    | .error _ | .number _ | .string _ | .qexpr _ | .primitive _ | .closure _ _ _ | .exit =>
      exact .inert trivial
  constructor
  · exact fun h ↦ h.unique hsame
  · rintro ⟨rfl, rfl⟩
    exact hsame

/-! ## Sessions keep stores normal -/

theorem Step.Starts.has {step : Step} {m : Machine} {call : Call} (h : step.Starts m call)
    (hread : step.IsRead) (hstore : m.store.AllBound (Binds BindsSettled)) :
    call.Has BindsSettled := by
  cases h with
  | source => exact ⟨List.forall_mem_singleton.mpr (bindsSettled_ofNode _), hstore⟩
  | form =>
    obtain ⟨text, forms, hforms, hmem⟩ := hread
    exact ⟨List.forall_mem_singleton.mpr (bindsSettled_of_readForms hforms _ hmem), hstore⟩
  | load hread hforms => exact ⟨bindsSettled_of_fileForms hforms, hstore⟩

/-- A step keeps a store normal, and its answer is normal unless it is an error. -/
theorem Step.Ends.isResult_and_allBound {step : Step} {m m' : Machine}
    {answer : Except HostError Value} (h : step.Ends m answer m') (hread : step.IsRead)
    (hstore : m.store.AllBound (Binds BindsSettled)) :
    (∀ a, answer = .ok a → a.IsResult BindsSettled) ∧
      m'.store.AllBound (Binds BindsSettled) := by
  rcases h.refused_or_derives with ⟨rfl, herror⟩ | ⟨call, as, hstarts, hderives, hanswer⟩
  · exact ⟨fun a ha ↦ Or.inl (herror a ha), hstore⟩
  · obtain ⟨hvalues, hbound⟩ := hstarts.has hread hstore
    obtain ⟨has, hstore⟩ := hderives.isResult_and_allBound hereditary_bindsSettled
      step.library.admits_bindsSettled hvalues hbound
    refine ⟨fun a ha ↦ ?_, hstore⟩
    rcases hanswer a ha with ha | rfl
    · exact has a ha
    · exact hereditary_bindsSettled.isResult_unit

theorem Session.allBound {output : Output} {steps : List Step} {m : Machine}
    (h : Session (Machine.start output) steps m) : m.store.AllBound (Binds BindsSettled) := by
  induction h with
  | nil => exact Store.isNormal_iff.mp (isNormal_start output)
  | snoc _ hread hends ih => exact (hends.isResult_and_allBound hread ih).2

/-- What a result is, without the property that proofs carry along. -/
theorem Value.isResult_bindsSettled_iff {a : Value} :
    a.IsResult BindsSettled ↔ a.isError = true ∨ a.Normal :=
  or_congr_right ⟨fun h ↦ ⟨h.1, h.2⟩, fun h ↦ ⟨h.settled, h.bindsSettled⟩⟩

/-- **Evaluation results in normal values.** After any session on a fresh machine all names have
normal values, and so they have throughout the next step: when anything is evaluated on the way,
before it and after it. What it results in is an error or normal, and in either case final. -/
theorem Session.isNormal_and_results {output : Output} {steps : List Step} {m : Machine}
    (h : Session (Machine.start output) steps m) :
    m.store.IsNormal ∧ ∀ step : Step, step.IsRead → ∀ call, step.Makes m call →
      call.machine.store.IsNormal ∧ ∀ v, call.task = .value v → ∀ a m',
        Evaluates step.library call.scope v call.machine a m' →
          m'.store.IsNormal ∧ (a.isError = true ∨ a.Normal) ∧ a.IsFinal := by
  have hstore := h.allBound
  refine ⟨Store.isNormal_iff.mpr hstore, fun step hread call ⟨first, hstarts, hreaches⟩ ↦ ?_⟩
  have hadmits := step.library.admits_bindsSettled
  obtain ⟨hvalues, hbound⟩ :=
    (hstarts.has hread hstore).of_reaches hereditary_bindsSettled hadmits hreaches
  refine ⟨Store.isNormal_iff.mpr hbound, fun v hv a m' heval ↦ ?_⟩
  rw [hv] at hvalues
  obtain ⟨has, hafter⟩ := (evaluates_iff_derives.mp heval).isResult_and_allBound
    hereditary_bindsSettled hadmits hvalues hbound
  have ha := List.forall_mem_singleton.mp has
  exact ⟨Store.isNormal_iff.mpr hafter, isResult_bindsSettled_iff.mp ha, ha.isFinal⟩

/-- A session that defines a closure with one of its two arguments, and what comes of naming it. -/
theorem isFinal_partial_application :
    ∃ m c, Session (Machine.start .empty)
        [.form ⟨fun _ ↦ none⟩ globalScope (sexpr [symbol "def", qexpr [symbol "f"],
          sexpr [sexpr [symbol "\\", qexpr [symbol "x", symbol "y"], qexpr [symbol "x"]],
            number 1]])] m ∧
      m.store.IsNormal ∧ Evaluates ⟨fun _ ↦ none⟩ globalScope (symbol "f") m c m ∧
      (c.isError = true ∨ c.Normal) ∧ c.IsFinal := by
  have hlambda : Derives ⟨fun _ ↦ none⟩ globalScope
      (.value (sexpr [symbol "\\", qexpr [symbol "x", symbol "y"], qexpr [symbol "x"]]))
      (Machine.start .empty) [closure ["x", "y"] [symbol "x"] []] (Machine.start .empty) :=
    .give (.cell (.bound (lookup?_start .lambda .empty))
      (.cell (.inert trivial) (.cell (.inert trivial) .noCells))) rfl
  have hclosure : Derives ⟨fun _ ↦ none⟩ globalScope
      (.value (sexpr [sexpr [symbol "\\", qexpr [symbol "x", symbol "y"], qexpr [symbol "x"]],
        number 1]))
      (Machine.start .empty) [closure ["y"] [symbol "x"] [("x", number 1)]]
      (Machine.start .empty) :=
    .give (.cell hlambda (.cell (.inert trivial) .noCells)) rfl
  have hdef : Evaluates ⟨fun _ ↦ none⟩ globalScope (sexpr [symbol "def", qexpr [symbol "f"],
        sexpr [sexpr [symbol "\\", qexpr [symbol "x", symbol "y"], qexpr [symbol "x"]], number 1]])
      (Machine.start .empty) .unit ((Machine.start .empty).bindAll .globally globalScope
        [("f", closure ["y"] [symbol "x"] [("x", number 1)])]) :=
    evaluates_iff_derives.mpr (.bind (.cell (.bound (lookup?_start (.define .globally) .empty))
      (.cell (.inert trivial) (.cell hclosure .noCells))) rfl)
  have hf : Evaluates ⟨fun _ ↦ none⟩ globalScope (symbol "f")
      ((Machine.start .empty).bindAll .globally globalScope
        [("f", closure ["y"] [symbol "x"] [("x", number 1)])])
      (closure ["y"] [symbol "x"] [("x", number 1)])
      ((Machine.start .empty).bindAll .globally globalScope
        [("f", closure ["y"] [symbol "x"] [("x", number 1)])]) := by
    rw [evaluates_iff_derives]
    exact .bound (Store.lookup?_of_find? ((Bindings.find?_insert _ _ _ _).trans (if_pos rfl)))
  have hsession := Session.nil.snoc_form (by simp +decide) hdef
  obtain ⟨hnormal, hresults⟩ := Session.isNormal_and_results hsession
  have hread : (Step.form ⟨fun _ ↦ none⟩ globalScope (symbol "f")).IsRead :=
    Step.isRead_form (by simp +decide) _ _
  obtain ⟨-, hcall⟩ := hresults _ hread _ ⟨_, .form, .refl⟩
  obtain ⟨-, hc, hfinal⟩ := hcall (symbol "f") rfl _ _ hf
  exact ⟨_, _, hsession, hnormal, hf, hc, hfinal⟩

end QuoteLisp
