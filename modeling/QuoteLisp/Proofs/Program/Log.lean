import Mathlib.Data.List.Forall2
import QuoteLisp.Program
import QuoteLisp.Proofs.Evaluation.Writing
import QuoteLisp.Proofs.Node.Parse
import QuoteLisp.Proofs.Token.Walk

/-!
# Logs of the program

A run of the program loads files one after another and then answers lines one after another. Its log
has an entry for each thing that was done, which says how it came out and what was written on the
way; the output is what the entries wrote, put together. The rules for logs are those of the
program, without fuel, machines or the order in which a run is computed.

An exit among the forms of a file is an outcome like any other. Among the lines it is the last
entry: `Converses` has a rule of its own for it, and no rule that goes on after it.
-/

namespace QuoteLisp

/-- Something that was done, with the lines that were written on the way. -/
structure Entry (α : Type) where
  outcome : α
  written : List String

/-- All lines that some entries wrote. -/
def Entry.writtenBy {α : Type} (entries : List (Entry α)) : List String :=
  entries.flatMap Entry.written

theorem Entry.writtenBy_append {α : Type} (entries later : List (Entry α)) :
    writtenBy (entries ++ later) = writtenBy entries ++ writtenBy later :=
  List.flatMap_append

/-! ## Doing things in turn -/

/-- Things are done one after another, each on the store that the one before it leaves. -/
inductive InTurn {α β : Type} (Does : Store → α → β → Store → Prop) :
    Store → List α → List β → Store → Prop
  | nil {store : Store} : InTurn Does store [] [] store
  | cons {store store₁ store₂ : Store} {a : α} {b : β} {as : List α} {bs : List β} :
      Does store a b store₁ → InTurn Does store₁ as bs store₂ →
      InTurn Does store (a :: as) (b :: bs) store₂

namespace InTurn

variable {α β : Type} {Does : Store → α → β → Store → Prop} {store store₁ store₂ : Store}
  {as : List α} {bs bs' : List β}

/-- If what is done comes out in one way, then so does doing it in turn. -/
theorem unique (h : InTurn Does store as bs store₁) (h' : InTurn Does store as bs' store₂)
    (hunique : ∀ {s a b b' s₁ s₂}, Does s a b s₁ → Does s a b' s₂ → b = b' ∧ s₁ = s₂) :
    bs = bs' ∧ store₁ = store₂ := by
  induction h generalizing bs' with
  | nil =>
    obtain _ | _ := h'
    exact ⟨rfl, rfl⟩
  | cons hfirst _ ih =>
    obtain _ | ⟨hfirst', hothers⟩ := h'
    obtain ⟨rfl, rfl⟩ := hunique hfirst hfirst'
    obtain ⟨rfl, rfl⟩ := ih hothers
    exact ⟨rfl, rfl⟩

/-- Each thing is done, and what holds of one that is done holds of all. -/
theorem forall₂ (h : InTurn Does store as bs store₁) {R : α → β → Prop}
    (hR : ∀ {s a b s'}, Does s a b s' → R a b) : List.Forall₂ R as bs := by
  induction h with
  | nil => exact .nil
  | cons hfirst _ ih => exact .cons (hR hfirst) ih

theorem length_eq (h : InTurn Does store as bs store₁) : as.length = bs.length :=
  (h.forall₂ fun _ ↦ trivial : List.Forall₂ (fun _ _ ↦ True) as bs).length_eq

end InTurn

/-! ## Files -/

/-- The form of a file is evaluated in the global scope, and a failure is written. -/
def RunsForm (library : Library) (store : Store) (form : Value) (entry : Entry Value)
    (store' : Store) : Prop :=
  ∃ written, Writes library globalScope (.value form) store [entry.outcome] written store' ∧
    entry.written = written ++ entry.outcome.complaint

/-- How loading a file comes out: it is refused as a whole, or each of its forms has an entry. -/
abbrev FileOutcome : Type :=
  Except HostError (List (Entry Value))

/-- The file at a path is loaded into the global scope. -/
inductive LoadsFile (library : Library) : Store → String → Entry FileOutcome → Store → Prop
  | refused {store : Store} {path : String} {text : Except ReadError String}
      {failure : HostError} :
      library.read? path = some text → fileForms path text = .error failure →
      LoadsFile library store path
        ⟨.error failure, (EvalError.loadFailed failure.message).toValue.complaint⟩ store
  | run {store store' : Store} {path : String} {text : Except ReadError String}
      {forms : List Value} {entries : List (Entry Value)} :
      library.read? path = some text → fileForms path text = .ok forms →
      InTurn (RunsForm library) store forms entries store' →
      LoadsFile library store path ⟨.ok entries, Entry.writtenBy entries⟩ store'

variable {library : Library} {store store₁ store₂ : Store}

theorem RunsForm.unique {form : Value} {entry entry' : Entry Value}
    (h : RunsForm library store form entry store₁)
    (h' : RunsForm library store form entry' store₂) : entry = entry' ∧ store₁ = store₂ := by
  obtain ⟨outcome, all⟩ := entry
  obtain ⟨outcome', all'⟩ := entry'
  obtain ⟨written, hwrites, hall⟩ := h
  obtain ⟨written', hwrites', hall'⟩ := h'
  obtain ⟨houtcome, rfl, rfl⟩ := hwrites.unique hwrites'
  obtain rfl : outcome = outcome' := List.singleton_inj.mp houtcome
  obtain rfl : all = all' := hall.trans hall'.symm
  exact ⟨rfl, rfl⟩

theorem LoadsFile.unique {path : String} {entry entry' : Entry FileOutcome}
    (h : LoadsFile library store path entry store₁)
    (h' : LoadsFile library store path entry' store₂) : entry = entry' ∧ store₁ = store₂ := by
  obtain ⟨hread, hforms⟩ | ⟨hread, hforms, hrun⟩ := h <;>
    obtain ⟨hread', hforms'⟩ | ⟨hread', hforms', hrun'⟩ := h' <;>
    obtain rfl := Option.some.inj (hread.symm.trans hread')
  · obtain rfl := Except.error.inj (hforms.symm.trans hforms')
    exact ⟨rfl, rfl⟩
  · cases hforms.symm.trans hforms'
  · cases hforms.symm.trans hforms'
  · obtain rfl := Except.ok.inj (hforms.symm.trans hforms')
    obtain ⟨rfl, rfl⟩ := hrun.unique hrun' RunsForm.unique
    exact ⟨rfl, rfl⟩

/-! ## Lines -/

/-- How a line comes out: it cannot be parsed, or it has a result. -/
abbrev LineOutcome : Type :=
  Except HostError Value

/-- A blank line is no failure: its tree is empty. -/
theorem exists_parse_of_isBlankText {line : String} (h : isBlankText line = true)
    (file : String) : ∃ root, Node.parse line file = .ok root := by
  have htokens : tokens line.toList = .ok ([] ++ [_]) :=
    tokensFrom_of_forall_isBlank (List.all_eq_true.mp h) 0
  have hbody : ∀ t ∈ ([] : List Token), t.lexeme ≠ .endMark := fun _ h ↦ absurd h List.not_mem_nil
  exact ⟨_, Node.parse_eq_ok_of_ofTokens htokens
    ((Node.ofTokens_eq_ok_iff rfl hbody).mpr ⟨[], .done [], rfl⟩)⟩

/-- A line that is not blank is answered. -/
inductive Answers (library : Library) : Store → String → Entry LineOutcome → Store → Prop
  | refused {store : Store} {line : String} {failure : HostError} :
      Node.parse line standardInput = .error failure →
      Answers library store line ⟨.error failure, [failure.message]⟩ store
  | result {store store' : Store} {line : String} {root : Node} {a : Value}
      {written : List String} :
      Node.parse line standardInput = .ok root →
      Writes library globalScope (.value (.ofNode root)) store [a] written store' →
      Answers library store line ⟨.ok a, written ++ [a.display]⟩ store'

/-- The lines are answered one after another, up to the first one whose result is the request to
exit; a blank line is passed over. -/
inductive Converses (library : Library) :
    Store → List String → List (Entry LineOutcome) → Store → Prop
  | done {store : Store} : Converses library store [] [] store
  | blank {store store' : Store} {line : String} {lines : List String}
      {entries : List (Entry LineOutcome)} :
      isBlankText line = true → Converses library store lines entries store' →
      Converses library store (line :: lines) entries store'
  | goesOn {store store₁ store' : Store} {line : String} {lines : List String}
      {entry : Entry LineOutcome} {entries : List (Entry LineOutcome)} :
      isBlankText line = false → Answers library store line entry store₁ →
      entry.outcome ≠ .ok .exit → Converses library store₁ lines entries store' →
      Converses library store (line :: lines) (entry :: entries) store'
  | exits {store store' : Store} {line : String} {lines : List String}
      {entry : Entry LineOutcome} :
      isBlankText line = false → Answers library store line entry store' →
      entry.outcome = .ok .exit → Converses library store (line :: lines) [entry] store'

/-- Some line has the request to exit as its result. -/
def Exits (entries : List (Entry LineOutcome)) : Prop :=
  ∃ entry ∈ entries, entry.outcome = .ok .exit

theorem not_exits_nil : ¬Exits [] := fun ⟨_, h, _⟩ ↦ List.not_mem_nil h

theorem exits_cons_iff {entry : Entry LineOutcome} {entries : List (Entry LineOutcome)} :
    Exits (entry :: entries) ↔ entry.outcome = .ok .exit ∨ Exits entries := by
  rw [Exits, List.exists_mem_cons_iff]
  rfl

theorem Answers.unique {line : String} {entry entry' : Entry LineOutcome}
    (h : Answers library store line entry store₁)
    (h' : Answers library store line entry' store₂) : entry = entry' ∧ store₁ = store₂ := by
  obtain ⟨hparse⟩ | ⟨hparse, hwrites⟩ := h <;>
    obtain ⟨hparse'⟩ | ⟨hparse', hwrites'⟩ := h'
  · obtain rfl := Except.error.inj (hparse.symm.trans hparse')
    exact ⟨rfl, rfl⟩
  · cases hparse.symm.trans hparse'
  · cases hparse.symm.trans hparse'
  · obtain rfl := Except.ok.inj (hparse.symm.trans hparse')
    obtain ⟨ha, rfl, rfl⟩ := hwrites.unique hwrites'
    obtain rfl := List.singleton_inj.mp ha
    exact ⟨rfl, rfl⟩

/-- Every line that is answered is answered with something. -/
theorem Answers.written_ne_nil {line : String} {entry : Entry LineOutcome}
    (h : Answers library store line entry store₁) : entry.written ≠ [] := by
  obtain _ | _ := h
  · exact List.cons_ne_nil _ _
  · exact List.append_ne_nil_of_right_ne_nil _ (List.cons_ne_nil _ _)

namespace Converses

variable {line : String} {lines more : List String} {entries entries' : List (Entry LineOutcome)}

theorem unique (h : Converses library store lines entries store₁)
    (h' : Converses library store lines entries' store₂) :
    entries = entries' ∧ store₁ = store₂ := by
  induction h generalizing entries' with
  | done =>
    obtain _ | _ := h'
    exact ⟨rfl, rfl⟩
  | blank hblank _ ih =>
    obtain _ | ⟨-, hrest⟩ | ⟨hblank'⟩ | ⟨hblank'⟩ := h'
    · exact ih hrest
    all_goals cases hblank.symm.trans hblank'
  | goesOn hblank hline hexit _ ih =>
    obtain _ | ⟨hblank', -⟩ | ⟨-, hline', -, hrest⟩ | ⟨-, hline', hexit'⟩ := h'
    · cases hblank.symm.trans hblank'
    · obtain ⟨rfl, rfl⟩ := hline.unique hline'
      obtain ⟨rfl, rfl⟩ := ih hrest
      exact ⟨rfl, rfl⟩
    · obtain ⟨rfl, rfl⟩ := hline.unique hline'
      exact absurd hexit' hexit
  | exits hblank hline hexit =>
    obtain _ | ⟨hblank', -⟩ | ⟨-, hline', hexit', -⟩ | ⟨-, hline', -⟩ := h'
    · cases hblank.symm.trans hblank'
    · obtain ⟨rfl, rfl⟩ := hline.unique hline'
      exact absurd hexit hexit'
    · obtain ⟨rfl, rfl⟩ := hline.unique hline'
      exact ⟨rfl, rfl⟩

/-- More lines are answered after the first ones, unless these made an end of it. -/
theorem append_iff :
    Converses library store (lines ++ more) entries store₂ ↔
      ∃ first store₁, Converses library store lines first store₁ ∧
        ((Exits first ∧ entries = first ∧ store₂ = store₁) ∨
          (¬Exits first ∧ ∃ later, entries = first ++ later ∧
            Converses library store₁ more later store₂)) := by
  -- an exit among the first lines is their last entry, so the two cases exclude each other
  induction lines generalizing store entries with
  | nil =>
    constructor
    · exact fun h ↦ ⟨[], store, .done, Or.inr ⟨not_exits_nil, entries, rfl, h⟩⟩
    · rintro ⟨first, store₁, hfirst, h⟩
      obtain _ | _ := hfirst
      rcases h with ⟨hexits, -⟩ | ⟨-, later, rfl, hlater⟩
      · exact absurd hexits not_exits_nil
      · exact hlater
  | cons line lines ih =>
    constructor
    · intro h
      obtain _ | ⟨hblank, hrest⟩ | ⟨hblank, hline, hexit, hrest⟩ | ⟨hblank, hline, hexit⟩ := h
      · obtain ⟨first, store₁, hfirst, h⟩ := ih.mp hrest
        exact ⟨first, store₁, .blank hblank hfirst, h⟩
      · obtain ⟨first, store₁, hfirst, h⟩ := ih.mp hrest
        refine ⟨_, store₁, .goesOn hblank hline hexit hfirst, ?_⟩
        rcases h with ⟨hexits, rfl, rfl⟩ | ⟨hexits, later, rfl, hlater⟩
        · exact Or.inl ⟨exits_cons_iff.mpr (Or.inr hexits), rfl, rfl⟩
        · refine Or.inr ⟨fun h ↦ ?_, later, rfl, hlater⟩
          exact (exits_cons_iff.mp h).elim hexit hexits
      · exact ⟨_, _, .exits hblank hline hexit,
          Or.inl ⟨exits_cons_iff.mpr (Or.inl hexit), rfl, rfl⟩⟩
    · rintro ⟨first, store₁, hfirst, h⟩
      obtain _ | ⟨hblank, hrest⟩ | ⟨hblank, hline, hexit, hrest⟩ | ⟨hblank, hline, hexit⟩ :=
        hfirst
      · exact .blank hblank (ih.mpr ⟨first, store₁, hrest, h⟩)
      · rw [exits_cons_iff, or_iff_right hexit] at h
        rcases h with ⟨hexits, rfl, rfl⟩ | ⟨hexits, later, rfl, hlater⟩
        · exact .goesOn hblank hline hexit (ih.mpr ⟨_, _, hrest, Or.inl ⟨hexits, rfl, rfl⟩⟩)
        · exact .goesOn hblank hline hexit
            (ih.mpr ⟨_, _, hrest, Or.inr ⟨hexits, later, rfl, hlater⟩⟩)
      · rw [exits_cons_iff] at h
        rcases h with ⟨-, rfl, rfl⟩ | ⟨hexits, -⟩
        · exact .exits hblank hline hexit
        · exact absurd (Or.inl hexit) hexits

theorem blank_iff (hblank : isBlankText line = true) :
    Converses library store (line :: lines) entries store₁ ↔
      Converses library store lines entries store₁ := by
  refine ⟨fun h ↦ ?_, .blank hblank⟩
  obtain _ | ⟨-, hrest⟩ | ⟨hblank'⟩ | ⟨hblank'⟩ := h
  · exact hrest
  all_goals cases hblank.symm.trans hblank'

/-- A line that cannot be parsed is answered with the failure, and nothing else comes of it. -/
theorem refused_iff {failure : HostError}
    (hparse : Node.parse line standardInput = .error failure) :
    Converses library store (line :: lines) entries store₁ ↔
      ∃ later, entries = ⟨.error failure, [failure.message]⟩ :: later ∧
        Converses library store lines later store₁ := by
  have hblank : isBlankText line = false := by
    refine eq_false_of_ne_true fun hblank ↦ ?_
    obtain ⟨root, hroot⟩ := exists_parse_of_isBlankText hblank standardInput
    cases hparse.symm.trans hroot
  have hanswer {entry : Entry LineOutcome} {s : Store} (h : Answers library store line entry s) :
      entry = ⟨.error failure, [failure.message]⟩ ∧ s = store := h.unique (.refused hparse)
  constructor
  · intro h
    obtain _ | ⟨hblank'⟩ | ⟨-, hline, -, hrest⟩ | ⟨-, hline, hexit⟩ := h
    · cases hblank.symm.trans hblank'
    · obtain ⟨rfl, rfl⟩ := hanswer hline
      exact ⟨_, rfl, hrest⟩
    · obtain ⟨rfl, rfl⟩ := hanswer hline
      cases hexit
  · rintro ⟨later, rfl, hlater⟩
    exact .goesOn hblank (.refused hparse) nofun hlater

theorem refused_cons_iff {failure : HostError}
    (hparse : Node.parse line standardInput = .error failure) :
    Converses library store (line :: lines) (⟨.error failure, [failure.message]⟩ :: entries)
      store₁ ↔ Converses library store lines entries store₁ := by
  rw [refused_iff hparse]
  constructor
  · rintro ⟨later, heq, hlater⟩
    obtain ⟨-, rfl⟩ := List.cons.inj heq
    exact hlater
  · exact fun h ↦ ⟨entries, rfl, h⟩

/-- Nothing is written exactly if there are only blank lines. -/
theorem writtenBy_eq_nil_iff (h : Converses library store lines entries store₁) :
    Entry.writtenBy entries = [] ↔ ∀ line ∈ lines, isBlankText line = true := by
  have hwrites {line' : String} {lines' : List String} {entry : Entry LineOutcome}
      {entries' : List (Entry LineOutcome)} {s s' : Store} (hblank : isBlankText line' = false)
      (hline : Answers library s line' entry s') : Entry.writtenBy (entry :: entries') = [] ↔
        ∀ line ∈ line' :: lines', isBlankText line = true := by
    refine iff_of_false (fun h ↦ hline.written_ne_nil ?_) fun h ↦ ?_
    · exact (List.append_eq_nil_iff.mp h).1
    · cases hblank.symm.trans (h line' List.mem_cons_self)
  induction h with
  | done => exact iff_of_true rfl fun _ h ↦ absurd h List.not_mem_nil
  | blank hblank _ ih =>
    rw [List.forall_mem_cons, and_iff_right hblank]
    exact ih
  | goesOn hblank hline _ _ _ => exact hwrites hblank hline
  | exits hblank hline _ => exact hwrites hblank hline

/-- Without an exit, there is an entry for every line that is not blank. -/
theorem length_eq (h : Converses library store lines entries store₁) (hexits : ¬Exits entries) :
    entries.length = (lines.filter fun line ↦ !isBlankText line).length := by
  induction h with
  | done => rfl
  | blank hblank _ ih => rw [List.filter_cons_of_neg (by rw [hblank]; decide), ih hexits]
  | goesOn hblank _ _ _ ih =>
    rw [exits_cons_iff, not_or] at hexits
    rw [List.filter_cons_of_pos (by rw [hblank]; rfl), List.length_cons, List.length_cons,
      ih hexits.2]
  | exits _ _ hexit => exact absurd (exits_cons_iff.mpr (Or.inl hexit)) hexits

end Converses

/-! ## The program -/

/-- All that an interactive run of the program did. -/
structure Record where
  files : List (Entry FileOutcome)
  exchanges : List (Entry LineOutcome)

namespace Record

/-- All lines that were written: the greeting of the prompt comes after the files. -/
def stdout (record : Record) : List String :=
  Entry.writtenBy record.files ++ (banner ++ Entry.writtenBy record.exchanges)

theorem stdout_append (files : List (Entry FileOutcome))
    (exchanges later : List (Entry LineOutcome)) :
    stdout ⟨files, exchanges ++ later⟩ = stdout ⟨files, exchanges⟩ ++ Entry.writtenBy later := by
  simp only [stdout, Entry.writtenBy_append, List.append_assoc]

/-- What a run with this record leaves behind, when reading the lines does not fail. -/
def transcript (record : Record) : Transcript :=
  ⟨0, record.stdout, []⟩

end Record

/-- The files that the options ask for are loaded in turn, and then the lines are answered. -/
def Options.Records (options : Options) (walk : Walk) (tree : FileTree) (lines : List String)
    (record : Record) : Prop :=
  ∃ store store', InTurn (LoadsFile tree.library) (Machine.start .empty).store
      (options.loads walk tree) record.files store ∧
    Converses tree.library store lines record.exchanges store'

namespace Options.Records

variable {options : Options} {walk : Walk} {tree : FileTree} {lines more : List String}
  {record first : Record}

/-- There is one record at most. -/
theorem unique {record' : Record} (h : options.Records walk tree lines record)
    (h' : options.Records walk tree lines record') : record = record' := by
  obtain ⟨files, exchanges⟩ := record
  obtain ⟨files', exchanges'⟩ := record'
  obtain ⟨store, _, hfiles, hlines⟩ := h
  obtain ⟨store', _, hfiles', hlines'⟩ := h'
  obtain ⟨rfl, rfl⟩ : files = files' ∧ store = store' := hfiles.unique hfiles' LoadsFile.unique
  obtain ⟨rfl, -⟩ : exchanges = exchanges' ∧ _ := hlines.unique hlines'
  rfl

/-- With more lines after them, the first lines have a record already. -/
theorem exists_of_append (h : options.Records walk tree (lines ++ more) record) :
    ∃ first, options.Records walk tree lines first := by
  obtain ⟨store, _, hfiles, hlines⟩ := h
  obtain ⟨first, store₁, hfirst, -⟩ := Converses.append_iff.mp hlines
  exact ⟨⟨record.files, first⟩, store, store₁, hfiles, hfirst⟩

/-- After an exit no line has any effect. -/
theorem append_iff_of_exits (hfirst : options.Records walk tree lines first)
    (hexits : Exits first.exchanges) :
    options.Records walk tree (lines ++ more) record ↔ record = first := by
  obtain ⟨store, store₁, hfiles, hlines⟩ := id hfirst
  have hsame : options.Records walk tree (lines ++ more) first :=
    ⟨store, store₁, hfiles, Converses.append_iff.mpr
      ⟨first.exchanges, store₁, hlines, Or.inl ⟨hexits, rfl, rfl⟩⟩⟩
  constructor
  · exact fun h ↦ h.unique hsame
  · rintro rfl
    exact hsame

/-- Without an exit, the lines that come after the first ones are answered on the store that these
leave, and their entries come after theirs. -/
theorem exists_forall_append (hfirst : options.Records walk tree lines first)
    (hexits : ¬Exits first.exchanges) :
    ∃ store, ∀ more,
      (∀ record, options.Records walk tree (lines ++ more) record →
        ∃ later, record = ⟨first.files, first.exchanges ++ later⟩) ∧
      ∀ later, options.Records walk tree (lines ++ more) ⟨first.files, first.exchanges ++ later⟩ ↔
        ∃ store', Converses tree.library store more later store' := by
  obtain ⟨files, exchanges⟩ := first
  obtain ⟨store, store₁, hfiles, hlines⟩ := hfirst
  have hparts {more : List String} {record : Record}
      (h : options.Records walk tree (lines ++ more) record) :
      ∃ later store', record = ⟨files, exchanges ++ later⟩ ∧
        Converses tree.library store₁ more later store' := by
    obtain ⟨files', exchanges'⟩ := record
    obtain ⟨_, store', hfiles', h⟩ := h
    obtain ⟨rfl, rfl⟩ : files = files' ∧ _ := hfiles.unique hfiles' LoadsFile.unique
    obtain ⟨exchanges₁, _, hlines', h⟩ := Converses.append_iff.mp h
    obtain ⟨rfl, rfl⟩ : exchanges = exchanges₁ ∧ _ := hlines.unique hlines'
    rcases h with ⟨hexits', -⟩ | ⟨-, later, heq, hlater⟩
    · exact absurd hexits' hexits
    · exact ⟨later, store', congrArg (Record.mk files) heq, hlater⟩
  refine ⟨store₁, fun more ↦ ⟨fun record h ↦ ?_, fun later ↦ ⟨fun h ↦ ?_, ?_⟩⟩⟩
  · obtain ⟨later, _, heq, -⟩ := hparts h
    exact ⟨later, heq⟩
  · obtain ⟨later', store', heq, hlater⟩ := hparts h
    obtain rfl := List.append_cancel_left (Record.mk.inj heq).2
    exact ⟨store', hlater⟩
  · rintro ⟨store', hlater⟩
    exact ⟨store, store', hfiles, Converses.append_iff.mpr
      ⟨exchanges, store₁, hlines, Or.inr ⟨hexits, later, rfl, hlater⟩⟩⟩

/-- What was written after the first lines is the beginning of what is written after more of them,
and it is all of it if these are blank or the session was ended. -/
theorem exists_stdout_eq_append (hfirst : options.Records walk tree lines first)
    (h : options.Records walk tree (lines ++ more) record) :
    ∃ written, record.stdout = first.stdout ++ written ∧
      (written = [] ↔ (∀ line ∈ more, isBlankText line = true) ∨ Exits first.exchanges) := by
  by_cases hexits : Exits first.exchanges
  · obtain rfl := (hfirst.append_iff_of_exits hexits).mp h
    exact ⟨[], (List.append_nil _).symm, iff_of_true rfl (Or.inr hexits)⟩
  · obtain ⟨store, hmore⟩ := hfirst.exists_forall_append hexits
    obtain ⟨later, rfl⟩ := (hmore more).1 record h
    obtain ⟨_, hlater⟩ := ((hmore more).2 later).mp h
    exact ⟨Entry.writtenBy later, Record.stdout_append _ _ _,
      hlater.writtenBy_eq_nil_iff.trans (or_iff_left hexits).symm⟩

/-- Before an exit, a line that cannot be parsed puts an entry of its own into the record and leaves
all others as they are. -/
theorem refused_iff {line : String} {failure : HostError}
    (hfirst : options.Records walk tree lines first) (hexits : ¬Exits first.exchanges)
    (hparse : Node.parse line standardInput = .error failure) :
    (options.Records walk tree (lines ++ line :: more) record ↔ ∃ later, record = ⟨first.files,
          first.exchanges ++ ⟨.error failure, [failure.message]⟩ :: later⟩ ∧
        options.Records walk tree (lines ++ more) ⟨first.files, first.exchanges ++ later⟩) ∧
      (options.Records walk tree (lines ++ more) record ↔ ∃ later,
        record = ⟨first.files, first.exchanges ++ later⟩ ∧
          options.Records walk tree (lines ++ line :: more) ⟨first.files,
            first.exchanges ++ ⟨.error failure, [failure.message]⟩ :: later⟩) := by
  obtain ⟨store, hmore⟩ := hfirst.exists_forall_append hexits
  have hsame (later : List (Entry LineOutcome)) :
      options.Records walk tree (lines ++ line :: more) ⟨first.files,
          first.exchanges ++ ⟨.error failure, [failure.message]⟩ :: later⟩ ↔
        options.Records walk tree (lines ++ more) ⟨first.files, first.exchanges ++ later⟩ := by
    rw [(hmore _).2, (hmore _).2]
    exact exists_congr fun store' ↦ Converses.refused_cons_iff hparse
  constructor
  · constructor
    · intro h
      obtain ⟨_, rfl⟩ := (hmore _).1 record h
      obtain ⟨_, hlater⟩ := ((hmore _).2 _).mp h
      obtain ⟨later, rfl, -⟩ := (Converses.refused_iff hparse).mp hlater
      exact ⟨later, rfl, (hsame later).mp h⟩
    · rintro ⟨later, rfl, h⟩
      exact (hsame later).mpr h
  · constructor
    · intro h
      obtain ⟨later, rfl⟩ := (hmore _).1 record h
      exact ⟨later, rfl, (hsame later).mpr h⟩
    · rintro ⟨later, rfl, h⟩
      exact (hsame later).mp h

/-- A blank line has no effect. -/
theorem blank_iff {line : String} (hblank : isBlankText line = true) :
    options.Records walk tree (lines ++ line :: more) record ↔
      options.Records walk tree (lines ++ more) record := by
  refine exists_congr fun store ↦ exists_congr fun store' ↦ and_congr_right fun _ ↦ ?_
  simp only [Converses.append_iff, Converses.blank_iff hblank]

end Options.Records

end QuoteLisp
