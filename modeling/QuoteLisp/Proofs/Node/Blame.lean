import QuoteLisp.Proofs.Node.Parse
import QuoteLisp.Proofs.Token.Passage

/-!
# What is blamed when a source cannot be parsed

A source that has no tree fails at one place. `Node.Blames` lists what can be wrong there: a
character begins no lexeme, a string is not closed, a closing bracket is not the one that is waited
for, or the source ends within a form. Each comes with the text before the place, so the place is
between two characters by its nature, and its line is one more than the line feeds before it
(`Node.parse_or_blames`).

On the way to the failure, or to the end, offsets are counted in bytes while the text is followed
character by character. The two never part: wherever the walk over the source comes to, its offset
is the length of the text that is behind it.
-/

namespace QuoteLisp.Node

open QuoteLisp.Bracket

/-- What can be wrong with a source: the text `before` the place to blame, and the report but for
its location. -/
inductive Blames (source : List Char) : (before : List Char) →
    (report : Option Location → HostError) → Prop
  /-- The walk comes to a character that is not blank and begins no lexeme, whatever follows it. -/
  | noLexeme {before after : List Char} {c : Char} {made : List Token} :
      source = before ++ c :: after → Passes 0 source made (byteLength before) (c :: after) →
      isBlank c = false →
      (∀ (lexeme : Lexeme) (more : List Char), lexeme.WellFormed → lexeme.chars ≠ c :: more) →
      Blames source before (.lexer ("Unexpected character '" ++ c.toString ++ "' at " ++
        (byteLength before).repr))
  /-- The walk comes to a quote that opens a string, and the string is never closed. -/
  | openString {before after : List Char} {made : List Token} :
      source = before ++ '"' :: after → Passes 0 source made (byteLength before) ('"' :: after) →
      (∀ body more, IsLiteralBody body → after ≠ body ++ '"' :: more) →
      Blames source before (.lexer ("Unterminated string starting at " ++
        (byteLength before).repr))
  /-- The first closing bracket that is not waited for stands outside all forms. -/
  | strayCloser {before after : List Char} {bracket : Bracket} {span : Span}
      {passed later : List Token} :
      source = before ++ bracket.closer :: after → span.start = byteLength before →
      Tokenizes source (passed ++ ⟨.closing bracket, span⟩ :: later ++
        [⟨.endMark, ⟨byteLength source, byteLength source⟩⟩]) →
      run [] passed = .ok [] →
      Blames source before (.parser ("Unexpected '" ++ bracket.closer.toString ++ "'"))
  /-- The first closing bracket that is not waited for closes a form of the other kind. -/
  | wrongCloser {before after : List Char} {bracket top : Bracket} {below : List Bracket}
      {span : Span} {passed later : List Token} :
      source = before ++ bracket.closer :: after → span.start = byteLength before →
      Tokenizes source (passed ++ ⟨.closing bracket, span⟩ :: later ++
        [⟨.endMark, ⟨byteLength source, byteLength source⟩⟩]) →
      run [] passed = .ok (top :: below) → top ≠ bracket →
      Blames source before (.parser ("Unexpected '" ++ bracket.closer.toString ++
        "', expected '" ++ top.closer.toString ++ "'"))
  /-- No closing bracket is wrong, but the source ends within a form. -/
  | unclosed {body : List Token} {top : Bracket} {below : List Bracket} :
      Tokenizes source (body ++ [⟨.endMark, ⟨byteLength source, byteLength source⟩⟩]) →
      run [] body = .ok (top :: below) →
      Blames source source (.parser ("Unclosed '" ++ top.opener.toString ++ "', expected '" ++
        top.closer.toString ++ "'"))

variable {source file : String} {before after : List Char}

/-! ## Sources without tokens -/

/-- A lexical error names the line of the place that it blames. -/
theorem parse_of_lexError {error : LexError} (htokens : tokens source.toList = .error error)
    (hsource : source.toList = before ++ after) (hoffset : error.offset = byteLength before) :
    Node.parse source file
      = .error (.lexer error.message (some ⟨file, before.count '\n' + 1⟩)) := by
  have hline : lineAt? source.toList error.offset = some (before.count '\n' + 1) := by
    rw [hoffset, hsource, lineAt?_append]
  rw [Node.parse, htokens]
  dsimp only
  rw [LexError.report, hline, Option.map_some]

/-- A source without tokens is blamed for the first character that begins none. -/
theorem exists_blames_of_lexError {error : LexError} (h : tokens source.toList = .error error) :
    ∃ before report, Blames source.toList before report ∧ Node.parse source file
      = .error (report (some ⟨file, before.count '\n' + 1⟩)) := by
  obtain ⟨made, c, rest, hpass, hblank, hmatch, herror⟩ := tokensFrom_eq_error_iff.mp h
  obtain ⟨before, hsource, hoffset, -⟩ := hpass.exists_append
  rw [Nat.zero_add] at hoffset
  rw [hoffset] at hpass
  refine ⟨before, .lexer error.message, ?_, parse_of_lexError h hsource hoffset⟩
  by_cases hquote : c = '"'
  · subst hquote
    rw [if_pos rfl, hoffset] at herror
    rw [herror]
    exact .openString hsource hpass (Lexeme.match?_quote_eq_none_iff.mp hmatch)
  · rw [if_neg hquote, hoffset] at herror
    rw [herror]
    exact .noLexeme hsource hpass hblank ((Lexeme.match?_eq_none_iff hquote).mp hmatch)

/-- Where the walk comes to what begins no lexeme, it fails, and so does the parser. -/
theorem parse_of_passes {made : List Token} {c : Char}
    (hsource : source.toList = before ++ c :: after)
    (hpass : Passes 0 source.toList made (byteLength before) (c :: after))
    (hblank : isBlank c = false) (hmatch : Lexeme.match? c after = none) {error : LexError}
    (herror : error = if c = '"' then .unterminated (byteLength before)
      else .unexpected c (byteLength before)) :
    Node.parse source file
      = .error (.lexer error.message (some ⟨file, before.count '\n' + 1⟩)) := by
  have hoffset : error.offset = byteLength before := by
    rw [herror]
    split <;> rfl
  rw [← hoffset] at hpass herror
  exact parse_of_lexError
    (tokensFrom_eq_error_iff.mpr ⟨made, c, after, hpass, hblank, hmatch, herror⟩)
    hsource hoffset

/-! ## Sources whose tokens have no tree -/

/-- A place in a text is known from its offset. -/
theorem eq_of_append_eq_append {cs before' after' : List Char} (h : cs = before ++ after)
    (h' : cs = before' ++ after') (hlength : byteLength before = byteLength before') :
    before = before' :=
  (eq_of_cutAt?_append (cutAt?_eq_some_iff.mpr ⟨h'.symm.trans h, hlength⟩)).1

/-- A syntax error is reported on the line where the token that it blames begins, and quotes it. -/
theorem parse_of_syntaxError? {body : List Token} {endToken : Token} {error : SyntaxError}
    (hcover : Tokenizes source.toList (body ++ [endToken]))
    (herror : syntaxError? endToken (run [] body) = some error)
    (hsource : source.toList = before ++ after)
    (hstart : error.token.span.start = byteLength before) :
    error.quoted source.toList = String.ofList error.token.lexeme.chars ∧
      Node.parse source file = .error (.parser (error.message source.toList)
        (some ⟨file, before.count '\n' + 1⟩)) := by
  obtain ⟨rfl, hbody⟩ := hcover.endMark_last
  obtain ⟨before', after', hsource', hstart', hquoted, hparse⟩ :=
    @exists_parse_eq_error_of_ofTokens source file _ _ (tokens_eq_ok_iff.mpr hcover)
      ((ofTokens_eq_error_iff rfl hbody).mpr herror)
  obtain rfl := eq_of_append_eq_append hsource hsource' (hstart.symm.trans hstart')
  exact ⟨hquoted, hparse⟩

/-- A source that has tokens but no tree is blamed for its brackets. -/
theorem exists_blames_of_syntaxError {ts : List Token} {error : SyntaxError}
    (htokens : tokens source.toList = .ok ts) (herror : ofTokens ts = .error error) :
    ∃ before report, Blames source.toList before report ∧ Node.parse source file
      = .error (report (some ⟨file, before.count '\n' + 1⟩)) := by
  have hcover := tokens_eq_ok_iff.mp htokens
  obtain ⟨body, rfl, hbody⟩ := id hcover
  obtain ⟨before, after, hsource, hstart, hquoted, hparse⟩ :=
    @exists_parse_eq_error_of_ofTokens source file _ _ htokens herror
  have hcomplaint := (ofTokens_eq_error_iff rfl hbody.ne_endMark).mp herror
  refine ⟨before, .parser (error.message source.toList), ?_, hparse⟩
  -- the reader fails as the bracket machine does
  match houtcome : run [] body with
  | .ok [] =>
    rw [houtcome] at hcomplaint
    exact nomatch hcomplaint
  | .ok (top :: below) =>
    rw [houtcome] at hcomplaint
    obtain rfl := Option.some.inj hcomplaint
    -- The end mark starts where the source ends, so there is nothing after it.
    obtain rfl := eq_of_append_eq_append (List.append_nil _).symm hsource hstart
    exact .unclosed hcover houtcome
  | .error clash =>
    rw [houtcome] at hcomplaint
    obtain ⟨passed, bracket, span, later, left, rfl, hpassed, rfl, hleft⟩ :=
      exists_of_run_eq_error houtcome
    match left with
    | [] =>
      obtain rfl := Option.some.inj hcomplaint
      rw [SyntaxError.message, hquoted]
      exact .strayCloser hsource hstart hcover hpassed
    | top :: below =>
      obtain rfl := Option.some.inj hcomplaint
      rw [SyntaxError.message, hquoted]
      exact .wrongCloser hsource hstart hcover hpassed fun htop ↦ hleft (congrArg some htop)

/-! ## The place to blame -/

/-- What a source is blamed for is what the parser reports. -/
theorem Blames.parse_eq {report : Option Location → HostError}
    (h : Blames source.toList before report) :
    Node.parse source file = .error (report (some ⟨file, before.count '\n' + 1⟩)) := by
  generalize hcs : source.toList = cs at h
  cases h with
  | @noLexeme _ _ c _ hsource hpass hblank hnone =>
    have hquote : c ≠ '"' := by
      rintro rfl
      exact hnone (.atom .string (String.ofList ['"', '"'])) ['"'] ⟨[], .nil, rfl⟩ rfl
    subst hcs
    exact parse_of_passes hsource hpass hblank ((Lexeme.match?_eq_none_iff hquote).mpr hnone)
      (if_neg hquote).symm
  | openString hsource hpass hopen =>
    subst hcs
    exact parse_of_passes hsource hpass (by decide) (Lexeme.match?_quote_eq_none_iff.mpr hopen)
      (if_pos rfl).symm
  | @strayCloser _ _ bracket span _ _ hsource hstart hcover hpassed =>
    subst hcs
    obtain ⟨hquoted, hparse⟩ := @parse_of_syntaxError? source file _ _ _ _
      ⟨.unexpected, ⟨.closing bracket, span⟩, false⟩ hcover
      (by rw [run_append_closing hpassed nofun]; rfl) hsource hstart
    rw [hparse, SyntaxError.message, hquoted]
    rfl
  | @wrongCloser _ _ bracket top _ span _ _ hsource hstart hcover hpassed hne =>
    subst hcs
    obtain ⟨hquoted, hparse⟩ := @parse_of_syntaxError? source file _ _ _ _
      ⟨.mismatched top, ⟨.closing bracket, span⟩, false⟩ hcover
      (by rw [run_append_closing hpassed fun heq ↦ hne (Option.some.inj heq)]; rfl) hsource hstart
    rw [hparse, SyntaxError.message, hquoted]
    rfl
  | @unclosed _ top _ hcover houtcome =>
    subst hcs
    exact (parse_of_syntaxError? hcover (by rw [houtcome]; rfl) (List.append_nil _).symm rfl).2

/-- The failures of a source are those that it is blamed for. -/
theorem parse_eq_error_iff {failure : HostError} :
    Node.parse source file = .error failure ↔ ∃ before report,
      Blames source.toList before report ∧
      failure = report (some ⟨file, before.count '\n' + 1⟩) := by
  constructor
  · intro h
    have hblames : ∃ before report, Blames source.toList before report ∧ Node.parse source file
        = .error (report (some ⟨file, before.count '\n' + 1⟩)) := by
      cases htokens : tokens source.toList with
      | error error => exact exists_blames_of_lexError htokens
      | ok ts =>
        cases hroot : ofTokens ts with
        | error error => exact exists_blames_of_syntaxError htokens hroot
        | ok root => cases h.symm.trans (parse_eq_ok_of_ofTokens htokens hroot)
    obtain ⟨before, report, hblames, hparse⟩ := hblames
    exact ⟨before, report, hblames, Except.error.inj (h.symm.trans hparse)⟩
  · rintro ⟨before, report, hblames, rfl⟩
    exact hblames.parse_eq

/-- **Parsing never splits a character and blames the right line.** Wherever the walk over a source
comes to, its offset is between two characters and the text before it can be cut by itself, and both
ends of every token are between two characters. The source has a tree exactly when it can be cut
into tokens whose brackets match. Otherwise it fails with the report of what it is blamed for, on
the line that is one more than the line feeds before the place to blame. -/
theorem parse_or_blames (source file : String) :
    (∀ made offset rest, Passes 0 source.toList made offset rest →
        ∃ before, cutAt? offset source.toList = some (before, rest) ∧
          tokens before = .ok (made ++ [⟨.endMark, ⟨offset, offset⟩⟩]) ∧
          tokens source.toList = (tokensFrom offset rest).map (made ++ ·)) ∧
      (∀ ts, tokens source.toList = .ok ts →
        ∀ t ∈ ts, slice? source.toList t.span = some t.lexeme.chars) ∧
      ((∃ root, Node.parse source file = .ok root) ↔ ∃ body,
        Tokenizes source.toList
          (body ++ [⟨.endMark, ⟨byteLength source.toList, byteLength source.toList⟩⟩]) ∧
        run [] body = .ok []) ∧
      (∀ failure, Node.parse source file = .error failure ↔ ∃ before report,
        Blames source.toList before report ∧
        failure = report (some ⟨file, before.count '\n' + 1⟩)) := by
  refine ⟨fun made offset rest hpass ↦ ?_, fun ts htokens t ht ↦ ?_, exists_parse_eq_ok_iff,
    fun failure ↦ parse_eq_error_iff⟩
  · obtain ⟨before, hsource, hoffset, htokens⟩ := hpass.exists_append
    rw [Nat.zero_add] at hoffset
    exact ⟨before, cutAt?_eq_some_iff.mpr ⟨hsource, hoffset.symm⟩, htokens, hpass.tokensFrom_eq⟩
  · exact (tokens_eq_ok_iff.mp htokens).slice ht

/-- What stands in a comment is blamed for nothing, and a place after it is counted in bytes. A
bracket that closes no form is blamed on its own line, and an open form on the last one. -/
theorem parse_blames_after_comment_and_at_brackets :
    Node.parse ";#é\n $" "a.lspy"
      = .error (.lexer "Unexpected character '$' at 6" (some ⟨"a.lspy", 2⟩)) ∧
    Node.parse ";#é\n\"" "a.lspy"
      = .error (.lexer "Unterminated string starting at 5" (some ⟨"a.lspy", 2⟩)) ∧
    Node.parse "(\n)\n)" "a.lspy" = .error (.parser "Unexpected ')'" (some ⟨"a.lspy", 3⟩)) ∧
    Node.parse "\n(" "a.lspy"
      = .error (.parser "Unclosed '(', expected ')'" (some ⟨"a.lspy", 2⟩)) := by
  have hcomment (rest : List Char) : Passes 0 (";#é\n".toList ++ rest)
      [⟨.atom .comment ";#é", ⟨0, 4⟩⟩] 5 rest :=
    @Passes.lexeme 0 5 (.atom .comment ";#é") ('\n' :: rest) rest []
      ⟨['#', 'é'], rfl, List.forall_mem_cons.mpr ⟨rfl, List.forall_mem_singleton.mpr rfl⟩⟩
      (fun c hc ↦ Option.some.inj hc ▸ rfl) (.blank (by decide) (.here _ _))
  have hcloser : Tokenizes "(\n)\n)".toList [⟨.opening .paren, ⟨0, 1⟩⟩, ⟨.closing .paren, ⟨2, 3⟩⟩,
      ⟨.closing .paren, ⟨4, 5⟩⟩, ⟨.endMark, ⟨5, 5⟩⟩] :=
    tokens_eq_ok_iff.mp (by simp +decide [tokens, tokensFrom, Lexeme.match?, Except.map])
  have hopener : Tokenizes "\n(".toList [⟨.opening .paren, ⟨1, 2⟩⟩, ⟨.endMark, ⟨2, 2⟩⟩] :=
    tokens_eq_ok_iff.mp (by simp +decide [tokens, tokensFrom, Lexeme.match?, Except.map])
  refine ⟨?_, ?_, ?_, ?_⟩
  · refine ((parse_or_blames ";#é\n $" "a.lspy").2.2.2 _).mpr
      ⟨";#é\n ".toList, _, @Blames.noLexeme _ _ [] '$' [⟨.atom .comment ";#é", ⟨0, 4⟩⟩] rfl ?_
        (by decide) ?_, rfl⟩
    · exact (hcomment [' ', '$']).trans (.blank (by decide) (.here _ _))
    · exact (@Lexeme.match?_eq_none_iff '$' [] (by decide)).mp (by decide)
  · refine ((parse_or_blames ";#é\n\"" "a.lspy").2.2.2 _).mpr
      ⟨";#é\n".toList, _, .openString rfl (hcomment ['"']) ?_, rfl⟩
    exact Lexeme.match?_quote_eq_none_iff.mp (by decide)
  · exact ((parse_or_blames "(\n)\n)" "a.lspy").2.2.2 _).mpr ⟨"(\n)\n".toList, _,
      @Blames.strayCloser _ _ [] .paren ⟨4, 5⟩
        [⟨.opening .paren, ⟨0, 1⟩⟩, ⟨.closing .paren, ⟨2, 3⟩⟩] [] rfl rfl hcloser rfl, rfl⟩
  · exact ((parse_or_blames "\n(" "a.lspy").2.2.2 _).mpr ⟨"\n(".toList, _,
      @Blames.unclosed _ [⟨.opening .paren, ⟨1, 2⟩⟩] .paren [] hopener rfl, rfl⟩

end QuoteLisp.Node
