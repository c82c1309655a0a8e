import QuoteLisp.Proofs.Evaluation.Loads
import QuoteLisp.Proofs.Evaluation.Session
import QuoteLisp.Proofs.Value.ErrorFree

/-!
# Errors are never stored

A machine starts without errors. If all numerals that it is given fit in 64 bits, no error is ever
bound to a name, handed to a function, or put into a list or a closure. An error is a result, and
that is as far as it gets: before a form applies a function, it looks for failures among its cells.

The numerals that count are those of the sources that are evaluated and of the files that are
loaded. Other files may hold anything, so the library is cut down to the loaded files, and what is
left of it is faultless.
-/

namespace QuoteLisp

open Value

/-! ## Steps as activations -/

namespace Step

/-- What a step begins with. A source that does not parse is refused, and nothing begins. -/
inductive Begins : Step → Machine → Activation → Prop
  | source {library : Library} {text : String} {root : Node} {m : Machine} :
      Node.parse text standardInput = .ok root →
      Begins (.source library text) m ⟨globalScope, .eval (ofNode root), m, []⟩
  | form {library : Library} {scope : ScopeId} {v : Value} {m : Machine} :
      Begins (.form library scope v) m ⟨scope, .eval v, m, []⟩
  | load {library : Library} {scope : ScopeId} {path : String} {m : Machine} :
      Begins (.load library scope path) m ⟨scope, .load path, m, []⟩

/-- The activations during a step, at whatever depth. -/
def Performs (step : Step) (m : Machine) (act : Activation) : Prop :=
  ∃ first, step.Begins m first ∧ Activation.Reaches step.library first act

variable {step : Step} {m m' : Machine} {answer : Except HostError Value} {first act : Activation}

/-- The call that a step makes by itself belongs to the activation that it begins with. -/
theorem Starts.exists_begins {call : Call} (h : step.Starts m call) :
    ∃ first, step.Begins m first ∧ first.Holds step.library call := by
  cases h with
  | source hparse => exact ⟨_, .source hparse, [], .refl⟩
  | form => exact ⟨_, .form, [], .refl⟩
  | load hread hforms =>
    refine ⟨_, .load, _, _, [], [], _, [], .refl, hread, ?_, .noForms⟩
    rwa [List.nil_append, List.append_nil]

/-! ## Numerals that are read -/

/-- The numerals fit in the source that a step is given, or that its form was read from. -/
def OwnLiteralsFit : Step → Prop
  | source _ text => QuoteLisp.LiteralsFit text
  | form _ _ v => ∃ text forms, readForms text standardInput = .ok forms ∧ v ∈ forms ∧
      QuoteLisp.LiteralsFit text
  | load _ _ _ => True

/-- All numerals fit that are read during a step: those of its own source, and those of the files
that are loaded. -/
structure LiteralsFit (step : Step) (m : Machine) : Prop where
  own : step.OwnLiteralsFit
  loaded : ∀ scope path m₁ frames text, step.Performs m ⟨scope, .load path, m₁, frames⟩ →
    step.library.read? path = some (.ok text) → QuoteLisp.LiteralsFit text

theorem LiteralsFit.has (hfits : step.LiteralsFit m) (hstore : m.store.AllBound (Binds Faultless))
    (hfirst : step.Begins m first) : first.Has Faultless := by
  have hown := hfits.own
  cases hfirst with
  | source hparse => exact ⟨faultless_of_parse hparse hown, hstore⟩
  | form =>
    obtain ⟨text, forms, hforms, hmem, hown⟩ := hown
    exact ⟨faultless_of_readForms hforms hown _ hmem, hstore⟩
  | load => exact ⟨trivial, hstore⟩

/-- The files that are loaded are faultless. -/
theorem LiteralsFit.admits (hfits : step.LiteralsFit m) (hfirst : step.Begins m first) :
    (step.library.restrict (first.Loads step.library)).Admits Faultless := by
  intro path outcome forms hread hforms
  obtain ⟨⟨scope, m₁, frames, hload⟩, hread⟩ := Library.restrict_eq_some_iff.mp hread
  cases outcome with
  | error cause => cases hforms
  | ok text =>
    have htext := hfits.loaded scope path m₁ frames text ⟨first, hfirst, hload⟩ hread
    exact faultless_of_readForms hforms htext

/-- Whatever is derived during a step keeps everything faultless. -/
theorem LiteralsFit.keeps (hfits : step.LiteralsFit m) (hfirst : step.Begins m first)
    {scope : ScopeId} {task : Task} {m₁ : Machine} {as : List Value}
    (hholds : first.Holds step.library ⟨scope, task, m₁⟩)
    (h : Derives step.library scope task m₁ as m') : task.Keeps Faultless m₁ as m' := by
  have hrestricted := h.of_agree (Activation.agree_restrict step.library first) hholds
  exact hrestricted.isResult_and_allBound hereditary_faultless (hfits.admits hfirst)

theorem LiteralsFit.has_of_performs (hfits : step.LiteralsFit m)
    (hstore : m.store.AllBound (Binds Faultless)) (h : step.Performs m act) :
    act.Has Faultless := by
  obtain ⟨first, hfirst, hreaches⟩ := h
  have hrestricted := hreaches.of_agree (Activation.agree_restrict step.library first)
  exact (hfits.has hstore hfirst).of_reaches hereditary_faultless (hfits.admits hfirst) hrestricted

theorem LiteralsFit.isResult_and_allBound (hfits : step.LiteralsFit m)
    (hstore : m.store.AllBound (Binds Faultless)) (h : step.Performs m act) {v a : Value}
    (hv : act.activity = .eval v) (hends : act.Ends step.library a m') :
    a.IsResult Faultless ∧ m'.store.AllBound (Binds Faultless) := by
  obtain ⟨hactivity, hbound⟩ := hfits.has_of_performs hstore h
  obtain ⟨first, hfirst, hreaches⟩ := h
  obtain ⟨scope, activity, m₁, frames⟩ := act
  obtain rfl : activity = .eval v := hv
  have hholds : first.Holds step.library ⟨scope, .value v, m₁⟩ := ⟨frames, hreaches⟩
  obtain ⟨ha, hafter⟩ := hfits.keeps hfirst hholds (Activity.ends_eval_iff.mp hends)
    (List.forall_mem_singleton.mpr hactivity) hbound
  exact ⟨List.forall_mem_singleton.mp ha, hafter⟩

/-- The values in the call that a step makes by itself are faultless. -/
theorem LiteralsFit.call_has (hfits : step.LiteralsFit m)
    (hstore : m.store.AllBound (Binds Faultless)) {call : Call} (h : step.Starts m call) :
    call.Has Faultless := by
  cases h with
  | source hparse =>
    obtain ⟨hvalue, -⟩ := hfits.has hstore (.source hparse)
    exact ⟨List.forall_mem_singleton.mpr hvalue, hstore⟩
  | form =>
    obtain ⟨hvalue, -⟩ := hfits.has hstore .form
    exact ⟨List.forall_mem_singleton.mpr hvalue, hstore⟩
  | @load library scope path _ _ _ hread hforms =>
    have hloads : Activation.Loads library ⟨scope, .load path, m, []⟩ path := ⟨_, _, _, .refl⟩
    have hknown := Library.restrict_eq_some_iff.mpr ⟨hloads, hread⟩
    exact ⟨hfits.admits .load _ _ _ hknown hforms, hstore⟩

/-- A step leaves everything faultless that is bound. -/
theorem LiteralsFit.allBound_of_ends (hfits : step.LiteralsFit m)
    (hstore : m.store.AllBound (Binds Faultless)) (h : step.Ends m answer m') :
    m'.store.AllBound (Binds Faultless) := by
  rcases h.refused_or_derives with ⟨rfl, -⟩ | ⟨call, as, hstarts, hderives, -⟩
  · exact hstore
  · obtain ⟨first, hfirst, hholds⟩ := hstarts.exists_begins
    obtain ⟨hvalues, hbound⟩ := hfits.call_has hstore hstarts
    exact (hfits.keeps hfirst hholds hderives hvalues hbound).2

end Step

/-! ## Sessions without errors -/

/-- Everything bound is error-free. -/
def Store.IsErrorFree (store : Store) : Prop :=
  store.AllBound fun entry ↦ entry.2.ErrorFree

theorem Store.AllBound.isErrorFree {store : Store} (h : store.AllBound (Binds Faultless)) :
    store.IsErrorFree :=
  fun id entry hentry ↦ (h id entry hentry).value.errorFree

theorem Value.IsResult.errorFree {a : Value} (h : a.IsResult Faultless) :
    a.isError = true ∨ a.ErrorFree :=
  h.imp_right fun h ↦ h.2.errorFree

/-- All numerals fit that are read in the course of a session. -/
def LiteralsFitThroughout (start : Machine) (steps : List Step) : Prop :=
  ∀ before step after m, steps = before ++ step :: after → Session start before m →
    step.LiteralsFit m

theorem literalsFitThroughout_nil (start : Machine) : LiteralsFitThroughout start [] :=
  fun _ _ _ _ heq ↦ absurd heq (by simp)

theorem literalsFitThroughout_snoc_iff {start : Machine} {steps : List Step} {step : Step} :
    LiteralsFitThroughout start (steps ++ [step]) ↔
      LiteralsFitThroughout start steps ∧ ∀ m, Session start steps m → step.LiteralsFit m := by
  constructor
  · intro h
    refine ⟨fun before step' after m heq ↦ ?_, fun m ↦ h steps step [] m rfl⟩
    exact h before step' (after ++ [step]) m (by rw [heq, List.append_assoc]; rfl)
  · rintro ⟨hsteps, hstep⟩ before step' after m heq hsession
    rcases List.eq_nil_or_concat after with rfl | ⟨after, last, rfl⟩
    · obtain ⟨rfl, hlast⟩ := List.append_inj' heq rfl
      obtain rfl := List.singleton_inj.mp hlast
      exact hstep m hsession
    · rw [List.concat_eq_append, ← List.cons_append, ← List.append_assoc] at heq
      exact hsteps before step' after m (List.append_inj' heq rfl).1 hsession

theorem Session.allBound_faultless {output : Output} {steps : List Step} {m : Machine}
    (h : Session (Machine.start output) steps m)
    (hfits : LiteralsFitThroughout (Machine.start output) steps) :
    m.store.AllBound (Binds Faultless) := by
  induction h with
  | nil =>
    have hleaf (operation : Primitive) : (primitive operation).Faultless :=
      faultless_of_isLeaf trivial rfl
    exact allBound_start (fun operation ↦
      ⟨faultless_of_isLeaf trivial rfl, trivial, hleaf operation⟩) output
  | snoc hsteps _ hends ih =>
    obtain ⟨hbefore, hstep⟩ := literalsFitThroughout_snoc_iff.mp hfits
    exact (hstep _ hsteps).allBound_of_ends (ih hbefore) hends

/-- **Errors are never stored.** Let a session on a fresh machine read only numerals that fit. Then
no error occurs in anything that is bound, at any depth. The same is true throughout any next step
that reads only numerals that fit, whether it ends or not: no error occurs in what is bound when
something is done, nor in a function that is applied, nor in its arguments, nor in a value that is
evaluated; and if the evaluation ends, it results in an error itself or in a value in which no error
occurs, and there is none in what is bound then. -/
theorem Session.isErrorFree_and_results {output : Output} {steps : List Step} {m : Machine}
    (h : Session (Machine.start output) steps m)
    (hfits : LiteralsFitThroughout (Machine.start output) steps) :
    m.store.IsErrorFree ∧ ∀ step : Step, step.LiteralsFit m → ∀ act, step.Performs m act →
      act.machine.store.IsErrorFree ∧
        (∀ function args, act.activity = .apply function args →
          function.toValue.ErrorFree ∧ ∀ v ∈ args, v.ErrorFree) ∧
        ∀ v, act.activity = .eval v → v.ErrorFree ∧ ∀ a m', act.Ends step.library a m' →
          (a.isError = true ∨ a.ErrorFree) ∧ m'.store.IsErrorFree := by
  have hstore := h.allBound_faultless hfits
  refine ⟨hstore.isErrorFree, fun step hstep act hperforms ↦ ?_⟩
  obtain ⟨hactivity, hbound⟩ := hstep.has_of_performs hstore hperforms
  refine ⟨hbound.isErrorFree, fun function args happly ↦ ?_, fun v hv ↦ ⟨?_, fun a m' hends ↦ ?_⟩⟩
  · rw [happly] at hactivity
    exact ⟨hactivity.1.errorFree, fun w hw ↦ (hactivity.2 w hw).2.errorFree⟩
  · rw [hv] at hactivity
    exact hactivity.errorFree
  · obtain ⟨ha, hafter⟩ := hstep.isResult_and_allBound hstore hperforms hv hends
    exact ⟨ha.errorFree, hafter.isErrorFree⟩

/-- A definition of the largest number in braces, once and once more. -/
theorem isErrorFree_largest_number :
    ∃ m, Session (Machine.start .empty)
        [.source ⟨fun _ ↦ none⟩ "def \x7bx\x7d \x7b9223372036854775807\x7d"] m ∧
      m.store.lookup? globalScope "x" = some (qexpr [number 9223372036854775807]) ∧
      m.store.IsErrorFree ∧ ∀ act,
        (Step.source ⟨fun _ ↦ none⟩ "def \x7bx\x7d \x7b9223372036854775807\x7d").Performs m act →
          act.machine.store.IsErrorFree := by
  generalize hlibrary : (⟨fun _ ↦ none⟩ : Library) = library
  generalize htext : "def \x7bx\x7d \x7b9223372036854775807\x7d" = text
  have htokens : tokens text.toList = .ok [⟨.atom .symbol "def", ⟨0, 3⟩⟩,
      ⟨.opening .brace, ⟨4, 5⟩⟩, ⟨.atom .symbol "x", ⟨5, 6⟩⟩, ⟨.closing .brace, ⟨6, 7⟩⟩,
      ⟨.opening .brace, ⟨8, 9⟩⟩, ⟨.atom .number "9223372036854775807", ⟨9, 28⟩⟩,
      ⟨.closing .brace, ⟨28, 29⟩⟩, ⟨.endMark, ⟨29, 29⟩⟩] := by
    simp +decide [← htext, tokens, tokensFrom, Lexeme.match?, Except.map]
  have hroot := (@Node.ofTokens_eq_ok_iff [⟨.atom .symbol "def", ⟨0, 3⟩⟩,
      ⟨.opening .brace, ⟨4, 5⟩⟩, ⟨.atom .symbol "x", ⟨5, 6⟩⟩, ⟨.closing .brace, ⟨6, 7⟩⟩,
      ⟨.opening .brace, ⟨8, 9⟩⟩, ⟨.atom .number "9223372036854775807", ⟨9, 28⟩⟩,
      ⟨.closing .brace, ⟨28, 29⟩⟩] [] ⟨.endMark, ⟨29, 29⟩⟩ rfl (by decide) _).mpr
    ⟨_, .atom _ _ _ (.form .brace _ _ (.atom _ _ _ (.done _))
      (.form .brace _ _ (.atom _ _ _ (.done _)) (.done []))), rfl⟩
  have hparse := @Node.parse_eq_ok_of_ofTokens text standardInput _ _ htokens hroot
  have hfits (m : Machine) : (Step.source library text).LiteralsFit m := by
    refine ⟨fun ts hts t ht ↦ ?_, fun _ _ _ _ _ _ hread ↦ ?_⟩
    · obtain rfl := Except.ok.inj (htokens.symm.trans hts)
      have hnumber : (Lexeme.atom .number "9223372036854775807").Fits := by
        intro n hn
        obtain rfl : 9223372036854775807 = n := Option.some.inj hn
        decide
      simp only [List.mem_cons, List.not_mem_nil, or_false] at ht
      rcases ht with rfl | rfl | rfl | rfl | rfl | rfl | rfl | rfl
      exacts [trivial, trivial, trivial, trivial, trivial, hnumber, trivial, trivial]
    · rw [← hlibrary] at hread
      cases hread
  have heval : Derives library globalScope
      (.value (sexpr [symbol "def", qexpr [symbol "x"], qexpr [number 9223372036854775807]]))
      (Machine.start .empty) [.unit] ((Machine.start .empty).bindAll .globally globalScope
        [("x", qexpr [number 9223372036854775807])]) :=
    .bind (.cell (.bound (lookup?_start (.define .globally) .empty))
      (.cell (.inert trivial) (.cell (.inert trivial) .noCells))) rfl
  have hread : (Step.source library text).IsRead := trivial
  have hends := Step.ends_source hparse (evaluates_iff_derives.mpr heval)
  have hsession := Session.nil.snoc hread hends
  have hthroughout := literalsFitThroughout_snoc_iff.mpr
    ⟨literalsFitThroughout_nil (Machine.start .empty), fun m _ ↦ hfits m⟩
  obtain ⟨hstore, hstep⟩ := Session.isErrorFree_and_results hsession hthroughout
  refine ⟨_, hsession, ?_, hstore, fun act hact ↦ (hstep _ (hfits _) act hact).1⟩
  exact Store.lookup?_of_find? ((Bindings.find?_insert _ _ _ _).trans (if_pos rfl))

end QuoteLisp
