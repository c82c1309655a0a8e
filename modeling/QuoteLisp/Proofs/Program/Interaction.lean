import QuoteLisp.Proofs.Program.Run
import QuoteLisp.Proofs.Scope.Store
import QuoteLisp.Proofs.Text.Lines

/-!
# Interactive runs

An interactive run answers the lines of its input as they come. What it has written after some lines
does not depend on the lines to come, so with more lines its output only grows, and it grows unless
nothing is left to be answered: the lines that follow are blank, or the session was ended.

Everything here is read off the records of runs. A run that comes to an end is its record, and a
record is made line by line, so putting a line in or leaving one out is a matter of the rule for
that line.
-/

namespace QuoteLisp

/-- The invocation with complete lines as its input, each ended by a line feed. -/
def Invocation.feed (invocation : Invocation) (lines : List String) : Invocation :=
  { invocation with stdin := Output.textOf lines }

/-- No line holds the line feed that ends it. -/
def AreLines (lines : List String) : Prop :=
  ∀ line ∈ lines, '\n' ∉ line.toList

instance (lines : List String) : Decidable (AreLines lines) :=
  inferInstanceAs (Decidable (∀ line ∈ lines, '\n' ∉ line.toList))

/-- The editor takes complete lines one by one: it hands over each line of the input as `read` has
it, and then the input is at its end. -/
def LineEditor.TakesLines (editor : LineEditor) (read : String → String) : Prop :=
  ∀ lines, AreLines lines → editor (Output.textOf lines) = .ok ⟨lines.map read, .endOfInput⟩

/-- The plain editor hands over the lines as they are, but for a carriage return at their end. -/
theorem plainEditor_takesLines : plainEditor.TakesLines chompLine := fun lines hlines ↦ by
  rw [plainEditor, inputLines_textOf hlines]

/-- What there is to load before all other files: the prelude that was asked for, and the standard
one only where there is such a file. -/
inductive Prelude.Means (isFile : String → Bool) : Prelude → List String → Prop
  | explicit (path : String) : Means isFile (.explicit path) [path]
  | standard {path : String} : isFile path = true → Means isFile (.standard path) [path]
  | missing {path : String} : isFile path = false → Means isFile (.standard path) []
  | disabled : Means isFile .disabled []

theorem Prelude.means_path? (isFile : String → Bool) (prelude : Prelude) :
    prelude.Means isFile (prelude.path? isFile).toList := by
  cases prelude with
  | standard path =>
    rw [Prelude.path?]
    split
    · exact .standard ‹_›
    · exact .missing (eq_false_of_ne_true ‹_›)
  | explicit path => exact .explicit path
  | disabled => exact .disabled

/-- The record of the interactive run that is fed some lines, each of which is read in some way. -/
def Invocation.Interacts (walk : Walk) (read : String → String) (invocation : Invocation)
    (lines : List String) (record : Record) : Prop :=
  ∃ options, invocation.command = .ok (.run options) ∧ options.runsInteractive = true ∧
    options.Records walk invocation.tree (lines.map read) record

/-- The entry of a file accounts for all of it: the file is refused as a whole, or each of its forms
has an entry. -/
def Entry.IsWhole (tree : FileTree) (path : String) (entry : Entry FileOutcome) : Prop :=
  (∃ failure, fileForms path (tree.readText path) = .error failure ∧
      entry.outcome = .error failure) ∨
    ∃ forms entries, fileForms path (tree.readText path) = .ok forms ∧
      entry.outcome = .ok entries ∧ entries.length = forms.length

theorem LoadsFile.isWhole {tree : FileTree} {store store' : Store} {path : String}
    {entry : Entry FileOutcome} (h : LoadsFile tree.library store path entry store') :
    entry.IsWhole tree path := by
  obtain ⟨hread, hforms⟩ | ⟨hread, hforms, hrun⟩ := h <;> obtain rfl := Option.some.inj hread
  · exact Or.inl ⟨_, hforms, rfl⟩
  · exact Or.inr ⟨_, _, hforms, rfl, hrun.length_eq.symm⟩

variable {invocation : Invocation} {options : Options} {host : Host} {walk : Walk}
  {read : String → String} {lines more : List String} {record first : Record}

namespace Invocation

theorem interacts_iff (hcommand : invocation.command = .ok (.run options))
    (hinteractive : options.runsInteractive = true) :
    invocation.Interacts walk read lines record ↔
      options.Records walk invocation.tree (lines.map read) record := by
  constructor
  · rintro ⟨options', hcommand', -, h⟩
    obtain rfl := Command.run.inj (Except.ok.inj (hcommand.symm.trans hcommand'))
    exact h
  · exact fun h ↦ ⟨options, hcommand, hinteractive, h⟩

theorem feed_endsOn_iff (heditor : host.editor.TakesLines read)
    (hcommand : invocation.command = .ok (.run options))
    (hinteractive : options.runsInteractive = true) (hlines : AreLines lines) {t : Transcript} :
    (invocation.feed lines).EndsOn host t ↔ ∃ record,
      invocation.Interacts host.walk read lines record ∧ t = record.transcript := by
  have hends := @endsOn_iff options host (invocation.feed lines) t hcommand hinteractive _
    (heditor lines hlines)
  simp only [interacts_iff hcommand hinteractive]
  refine hends.trans (exists_congr fun record ↦ and_congr_right fun _ ↦ ?_)
  -- nothing is complained of, whether or not the session ended before the input
  constructor
  · rintro (⟨-, h⟩ | ⟨-, h⟩) <;> exact h
  · exact fun h ↦ (Classical.em (Exits record.exchanges)).imp (⟨·, h⟩) (⟨·, h⟩)

/-- **Interactive runs are prefix closed and stop exactly at an exit.** On a host whose editor takes
complete lines one by one, a run is its record. With more lines its output only grows, and it grows
unless they are blank or the session was ended. No line after an exit has any effect, and neither
has a blank line; a line that cannot be parsed puts an entry of its own into the record and leaves
all others as they are. Whatever the forms of the files come to, the prelude and the sources are
loaded to their ends and the lines are answered. -/
theorem interacts_prefix_closed (heditor : host.editor.TakesLines read)
    (hcommand : invocation.command = .ok (.run options))
    (hinteractive : options.runsInteractive = true) :
    (∀ lines, AreLines lines →
        (∀ t, (invocation.feed lines).EndsOn host t ↔ ∃ record,
          invocation.Interacts host.walk read lines record ∧ t = record.transcript) ∧
        ∀ record record', invocation.Interacts host.walk read lines record →
          invocation.Interacts host.walk read lines record' → record = record') ∧
      (∀ lines more t, AreLines (lines ++ more) → (invocation.feed (lines ++ more)).EndsOn host t →
        t.exitCode = 0 ∧ ∃ first, invocation.Interacts host.walk read lines first ∧
          (invocation.feed lines).EndsOn host first.transcript ∧ first.stdout <+: t.stdout ∧
          (Output.textOf first.stdout = Output.textOf t.stdout ↔
            (∀ line ∈ more, isBlankText (read line) = true) ∨ Exits first.exchanges)) ∧
      (∀ lines first, invocation.Interacts host.walk read lines first → Exits first.exchanges →
        ∀ more record, invocation.Interacts host.walk read (lines ++ more) record ↔
          record = first) ∧
      (∀ lines line more record, isBlankText (read line) = true →
        (invocation.Interacts host.walk read (lines ++ line :: more) record ↔
          invocation.Interacts host.walk read (lines ++ more) record)) ∧
      (∀ lines first line failure, invocation.Interacts host.walk read lines first →
        ¬Exits first.exchanges →
        Node.parse (read line) standardInput = .error failure → ∀ more record,
          (invocation.Interacts host.walk read (lines ++ line :: more) record ↔ ∃ later,
            record = ⟨first.files,
              first.exchanges ++ ⟨.error failure, [failure.message]⟩ :: later⟩ ∧
            invocation.Interacts host.walk read (lines ++ more)
              ⟨first.files, first.exchanges ++ later⟩) ∧
          (invocation.Interacts host.walk read (lines ++ more) record ↔ ∃ later,
            record = ⟨first.files, first.exchanges ++ later⟩ ∧
            invocation.Interacts host.walk read (lines ++ line :: more) ⟨first.files,
              first.exchanges ++ ⟨.error failure, [failure.message]⟩ :: later⟩)) ∧
      ∀ lines record, invocation.Interacts host.walk read lines record →
        (∃ preludes, options.prelude.Means invocation.tree.isFile preludes ∧
          List.Forall₂ (Entry.IsWhole invocation.tree)
            (preludes ++ options.sourcesBy host.walk invocation.tree) record.files) ∧
        (¬Exits record.exchanges → record.exchanges.length
          = (lines.filter fun line ↦ !isBlankText (read line)).length) := by
  have hends {lines : List String} (hlines : AreLines lines) (t : Transcript) :=
    @feed_endsOn_iff _ _ _ _ _ heditor hcommand hinteractive hlines t
  simp only [interacts_iff hcommand hinteractive, List.map_append, List.map_cons] at hends ⊢
  refine ⟨fun lines hlines ↦ ⟨hends hlines, fun _ _ h h' ↦ h.unique h'⟩, ?_, ?_, ?_, ?_, ?_⟩
  · intro lines more t hlines ht
    obtain ⟨record, hrecord, rfl⟩ := (hends hlines t).mp ht
    rw [List.map_append] at hrecord
    obtain ⟨first, hfirst⟩ := hrecord.exists_of_append
    have hlines' : AreLines lines := fun line hline ↦ hlines line (List.mem_append_left more hline)
    obtain ⟨written, hstdout, hwritten⟩ := hfirst.exists_stdout_eq_append hrecord
    rw [List.forall_mem_map] at hwritten
    refine ⟨rfl, first, hfirst, (hends hlines' _).mpr ⟨first, hfirst, rfl⟩, ?_, ?_⟩
    · exact ⟨written, hstdout.symm⟩
    · rw [← hwritten, Record.transcript, hstdout]
      exact Output.textOf_eq_textOf_append_iff
  · exact fun lines first hfirst hexits more record ↦ hfirst.append_iff_of_exits hexits
  · exact fun lines line more record hblank ↦ Options.Records.blank_iff hblank
  · intro lines first line failure hfirst hexits hparse more record
    exact hfirst.refused_iff hexits hparse
  · intro lines record h
    obtain ⟨store, store', hfiles, hlines⟩ := h
    refine ⟨⟨_, options.prelude.means_path? _, hfiles.forall₂ LoadsFile.isWhole⟩, fun hexits ↦ ?_⟩
    rw [hlines.length_eq hexits, List.filter_map, List.length_map]
    rfl

/-- A file with an exit and a name that is bound to nothing is loaded. Then come a line that cannot
be parsed, a blank one, one that exits, and one that is not answered. -/
theorem ends_refused_line_then_exit :
    let tree : FileTree := ⟨.directory (FileNode.setEntry "a.lspy"
      (.file "(exit ()) x".toUTF8) []), [], FileNode.wellFormed_empty.setEntry (by decide) (.file _)⟩
    let invocation : Invocation := ⟨["--no-prelude", "-i", "a.lspy"], none, tree, ""⟩
    ∃ failure, Node.parse ")" standardInput = .error failure ∧
      plainEditor.TakesLines chompLine ∧
      (invocation.feed [")", " ", "exit ()", "1"]).EndsOn .plain
        ⟨0, (EvalError.unboundSymbol "x").toValue.complaint ++ (banner ++
          [failure.message, "Exit call..."]), []⟩ := by
  intro tree invocation
  -- the file
  have htext : tree.readText "a.lspy" = .ok "(exit ()) x" := by
    have hresolve : tree.resolve "a.lspy" = .ok (.file "(exit ()) x".toUTF8) := rfl
    have hdecode : String.fromUTF8? "(exit ()) x".toUTF8 = some "(exit ()) x" :=
      dif_pos (String.isValidUTF8 _)
    rw [FileTree.readText, hresolve]
    dsimp only
    rw [hdecode]
  have hforms : fileForms "a.lspy" (tree.readText "a.lspy")
      = .ok [.sexpr [.symbol "exit", .sexpr []], .symbol "x"] := by
    have htokens : tokens "(exit ()) x".toList = .ok [⟨.opening .paren, ⟨0, 1⟩⟩,
        ⟨.atom .symbol "exit", ⟨1, 5⟩⟩, ⟨.opening .paren, ⟨6, 7⟩⟩, ⟨.closing .paren, ⟨7, 8⟩⟩,
        ⟨.closing .paren, ⟨8, 9⟩⟩, ⟨.atom .symbol "x", ⟨10, 11⟩⟩, ⟨.endMark, ⟨11, 11⟩⟩] := by
      simp +decide [tokens, tokensFrom, Lexeme.match?, Except.map]
    have hroot := (@Node.ofTokens_eq_ok_iff [⟨.opening .paren, ⟨0, 1⟩⟩,
      ⟨.atom .symbol "exit", ⟨1, 5⟩⟩, ⟨.opening .paren, ⟨6, 7⟩⟩, ⟨.closing .paren, ⟨7, 8⟩⟩,
      ⟨.closing .paren, ⟨8, 9⟩⟩, ⟨.atom .symbol "x", ⟨10, 11⟩⟩] [] ⟨.endMark, ⟨11, 11⟩⟩ rfl
        (by decide) _).mpr ⟨_, .form .paren _ _ (.atom .symbol _ _ (.form .paren _ _ (.done _)
          (.done _))) (.atom .symbol _ _ (.done [])), rfl⟩
    rw [fileForms, htext, Node.parseFile, Node.parse_eq_ok_of_ofTokens htokens hroot]
    rfl
  have hexitForm : Writes tree.library globalScope (.value (.sexpr [.symbol "exit", .sexpr []]))
      (Machine.start .empty).store [.exit] [] (Machine.start .empty).store := fun output ↦
    .give (.cell (.bound (lookup?_start .exit output)) (.cell (.give .noCells rfl) .noCells)) rfl
  have hunbound : Writes tree.library globalScope (.value (.symbol "x"))
      (Machine.start .empty).store [(EvalError.unboundSymbol "x").toValue] []
      (Machine.start .empty).store := fun output ↦ .unbound rfl
  have hfile : LoadsFile tree.library (Machine.start .empty).store "a.lspy"
      ⟨.ok [⟨.exit, []⟩, ⟨_, (EvalError.unboundSymbol "x").toValue.complaint⟩], _⟩
      (Machine.start .empty).store :=
    .run rfl hforms (.cons ⟨[], hexitForm, rfl⟩ (.cons ⟨[], hunbound, rfl⟩ .nil))
  -- the lines
  have hcloser : tokens ")".toList = .ok [⟨.closing .paren, ⟨0, 1⟩⟩, ⟨.endMark, ⟨1, 1⟩⟩] := by
    simp +decide [tokens, tokensFrom, Lexeme.match?, Except.map]
  have herror := (@Node.ofTokens_eq_error_iff [⟨.closing .paren, ⟨0, 1⟩⟩] [] ⟨.endMark, ⟨1, 1⟩⟩ rfl
    (by decide) _).mpr rfl
  obtain ⟨-, line, hrefused⟩ := @Node.exists_parse_eq_error ")" standardInput _ _ hcloser herror
  have htokens : tokens "exit ()".toList = .ok [⟨.atom .symbol "exit", ⟨0, 4⟩⟩,
      ⟨.opening .paren, ⟨5, 6⟩⟩, ⟨.closing .paren, ⟨6, 7⟩⟩, ⟨.endMark, ⟨7, 7⟩⟩] := by
    simp +decide [tokens, tokensFrom, Lexeme.match?, Except.map]
  have hroot := (@Node.ofTokens_eq_ok_iff [⟨.atom .symbol "exit", ⟨0, 4⟩⟩,
    ⟨.opening .paren, ⟨5, 6⟩⟩, ⟨.closing .paren, ⟨6, 7⟩⟩] [] ⟨.endMark, ⟨7, 7⟩⟩ rfl (by decide)
      _).mpr ⟨_, .atom .symbol _ _ (.form .paren _ _ (.done _) (.done [])), rfl⟩
  have hparse := @Node.parse_eq_ok_of_ofTokens _ standardInput _ _ htokens hroot
  -- the run
  obtain ⟨hruns, -, hexit, hblank, hinsert, -⟩ := @interacts_prefix_closed invocation
    ⟨.disabled, ["a.lspy"], true⟩ .plain chompLine plainEditor_takesLines rfl rfl
  have hfirst : Interacts FileTree.walk chompLine invocation ["exit ()"]
      ⟨[_], [⟨.ok .exit, ["Exit call..."]⟩]⟩ :=
    ⟨_, rfl, rfl, _, _, .cons hfile .nil, .exits rfl (.result hparse hexitForm) rfl⟩
  have hnone : Interacts FileTree.walk chompLine invocation [] ⟨[_], []⟩ :=
    ⟨_, rfl, rfl, _, _, .cons hfile .nil, .done⟩
  have hwith := (hinsert [] _ ")" _ hnone not_exits_nil hrefused ["exit ()"] _).1.mpr
    ⟨_, rfl, hfirst⟩
  have hall := (hexit _ _ ((hblank [")"] " " ["exit ()"] _
    ((isBlankText_chompLine " ").trans rfl)).mpr hwith)
    ⟨_, List.mem_cons_of_mem _ List.mem_cons_self, rfl⟩ ["1"] _).mpr rfl
  exact ⟨_, hrefused, plainEditor_takesLines, ((hruns _ (by decide)).1 _).mpr ⟨_, hall, rfl⟩⟩

end Invocation

end QuoteLisp
