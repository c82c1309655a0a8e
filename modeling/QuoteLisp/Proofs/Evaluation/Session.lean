import QuoteLisp.Proofs.Evaluation.Calls
import QuoteLisp.Proofs.Value.ReadBack

/-!
# Sessions

Whoever holds an interpreter has it evaluate a source as one form, or a form of a source by itself,
or load a file. A session is any sequence of such steps that end, each with the files as they are at
its time, on a machine that no one else touches in between.
-/

namespace QuoteLisp

open Run Value

/-- One thing that an interpreter is asked to do. -/
inductive Step where
  /-- Evaluate a whole source as one form, in the global scope. -/
  | source (library : Library) (text : String)
  /-- Evaluate one form. -/
  | form (library : Library) (scope : ScopeId) (v : Value)
  /-- Load a file. -/
  | load (library : Library) (scope : ScopeId) (path : String)

namespace Step

/-- The files as they are during a step. -/
def library : Step → Library
  | source library _ | form library _ _ | load library _ _ => library

/-- A form that is evaluated by itself was read from some source. -/
def IsRead : Step → Prop
  | form _ _ v => ∃ text forms, readForms text standardInput = .ok forms ∧ v ∈ forms
  | source _ _ | load _ _ _ => True

/-- Does a step. A source that does not parse is refused. -/
def run (fuel : Nat) : Step → Run (Except HostError Value)
  | source library text => evalSource library fuel text
  | form library scope v => do return .ok (← eval library fuel scope v)
  | load library scope path => do return .ok (← QuoteLisp.load library fuel scope path)

/-- The step ends with an answer and a machine. -/
def Ends (step : Step) (m : Machine) (answer : Except HostError Value) (m' : Machine) : Prop :=
  ∃ fuel, Yields (step.run fuel) m answer m'

/-- The calls that a step makes by itself: none if there is nothing to evaluate. -/
inductive Starts : Step → Machine → Call → Prop
  | source {library : Library} {text : String} {root : Node} {m : Machine} :
      Node.parse text standardInput = .ok root →
      Starts (.source library text) m ⟨globalScope, .value (ofNode root), m⟩
  | form {library : Library} {scope : ScopeId} {v : Value} {m : Machine} :
      Starts (.form library scope v) m ⟨scope, .value v, m⟩
  | load {library : Library} {scope : ScopeId} {path : String}
      {outcome : Except ReadError String} {forms : List Value} {m : Machine} :
      library.read? path = some outcome → fileForms path outcome = .ok forms →
      Starts (.load library scope path) m ⟨scope, .forms forms, m⟩

/-- The calls made during a step, at whatever depth. -/
def Makes (step : Step) (m : Machine) (call : Call) : Prop :=
  ∃ first, step.Starts m first ∧ Call.Reaches step.library first call

variable {step : Step} {m m' : Machine} {answer : Except HostError Value}

/-- A step that ends is refused and changes nothing, or its call has a derivation, whose result is
the answer. The answer to loading a file is the empty form. -/
theorem Ends.refused_or_derives (h : step.Ends m answer m') :
    (m' = m ∧ ∀ a, answer = .ok a → a.isError = true) ∨
      ∃ call as, step.Starts m call ∧
        Derives step.library call.scope call.task call.machine as m' ∧
        ∀ a, answer = .ok a → a ∈ as ∨ a = .unit := by
  obtain ⟨fuel, h⟩ := h
  cases step with
  | source library text =>
    rw [run] at h
    unfold evalSource at h
    split at h
    · obtain ⟨rfl, rfl⟩ := yields_pure_iff.mp h
      exact Or.inl ⟨rfl, fun _ heq ↦ nomatch heq⟩
    · rename_i root hparse
      obtain ⟨a, m₁, heval, h⟩ := yields_bind_iff.mp h
      obtain ⟨rfl, rfl⟩ := yields_pure_iff.mp h
      refine Or.inr ⟨_, [a], .source hparse, evaluates_iff_derives.mp ⟨fuel, heval⟩, ?_⟩
      exact fun b heq ↦ Or.inl (List.mem_singleton.mpr (Except.ok.inj heq).symm)
  | form library scope v =>
    rw [run] at h
    obtain ⟨a, m₁, heval, h⟩ := yields_bind_iff.mp h
    obtain ⟨rfl, rfl⟩ := yields_pure_iff.mp h
    refine Or.inr ⟨_, [a], .form, evaluates_iff_derives.mp ⟨fuel, heval⟩, ?_⟩
    exact fun b heq ↦ Or.inl (List.mem_singleton.mpr (Except.ok.inj heq).symm)
  | load library scope path =>
    rw [run] at h
    obtain ⟨a, m₁, hload, h⟩ := yields_bind_iff.mp h
    obtain ⟨rfl, rfl⟩ := yields_pure_iff.mp h
    obtain ⟨outcome, hread, ⟨failure, hforms, rfl, rfl⟩ | ⟨forms, hforms, hrun, rfl⟩⟩ :=
      yields_loadFile_iff.mp hload
    · exact Or.inl ⟨rfl, fun b heq ↦ by rw [← Except.ok.inj heq]; rfl⟩
    · refine Or.inr ⟨_, [], .load hread hforms, (eval_follows library fuel).forms hrun, ?_⟩
      exact fun b heq ↦ Or.inr (Except.ok.inj heq).symm

/-- A source that parses is evaluated as one form. -/
theorem ends_source {library : Library} {text : String} {root : Node} {a : Value}
    (hparse : Node.parse text standardInput = .ok root)
    (h : Evaluates library globalScope (ofNode root) m a m') :
    (source library text).Ends m (.ok a) m' := by
  obtain ⟨fuel, h⟩ := h
  refine ⟨fuel, ?_⟩
  rw [run, evalSource, hparse]
  exact yields_bind_iff.mpr ⟨a, m', h, yields_pure_iff.mpr ⟨rfl, rfl⟩⟩

/-- A form that can be written is read from its own text. -/
theorem isRead_form {v : Value} (h : v.Readable) (library : Library) (scope : ScopeId) :
    (Step.form library scope v).IsRead := by
  have hreads : ReadsAs v.display.toList [v] := by
    rw [display, String.toList_ofList]
    exact readsAs_chars h
  obtain ⟨root, hparse, hroot⟩ := hreads.exists_parse standardInput
  refine ⟨v.display, [v], ?_, List.mem_singleton_self v⟩
  rw [readForms, hparse]
  exact congrArg (Except.ok ·.forms) hroot

end Step

/-- The steps, done one after another from the machine `start` on, all end, and the last one leaves
the machine behind. -/
inductive Session (start : Machine) : List Step → Machine → Prop
  | nil : Session start [] start
  | snoc {steps : List Step} {step : Step} {m m' : Machine}
      {answer : Except HostError Value} :
      Session start steps m → step.IsRead → step.Ends m answer m' →
      Session start (steps ++ [step]) m'

/-- A session goes on with any form that can be written, if its evaluation ends. -/
theorem Session.snoc_form {start m m' : Machine} {steps : List Step} {library : Library}
    {scope : ScopeId} {v a : Value} (h : Session start steps m) (hv : v.Readable)
    (heval : Evaluates library scope v m a m') :
    Session start (steps ++ [.form library scope v]) m' := by
  obtain ⟨fuel, heval⟩ := heval
  have hends : (Step.form library scope v).Ends m (.ok a) m' :=
    ⟨fuel, yields_bind_iff.mpr ⟨a, m', heval, yields_pure_iff.mpr ⟨rfl, rfl⟩⟩⟩
  exact h.snoc (Step.isRead_form hv library scope) hends

end QuoteLisp
