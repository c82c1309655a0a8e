import QuoteLisp.Node.Parse
import QuoteLisp.Proofs.Node.Descent
import QuoteLisp.Proofs.Token.Cover

/-!
# From a source to its tree

A source is cut into tokens and these are grouped, and either may fail. Put together, the trees of a
source are those that the grammar gives to its tokens (`Node.parse_eq_ok_iff`). If a source has
tokens but no tree, the report is the syntax error, quotes the lexeme it is blamed on, and names a
line (`Node.exists_parse_eq_error`): every token is written where its span says, the end mark
included, so that no offset to blame is inside a character.
-/

namespace QuoteLisp

variable {source : List Char} {ts : List Token}

/-! ## The tokens of a source -/

theorem CoversFrom.ne_endMark {start : Nat} (h : CoversFrom start source ts) :
    ∀ t ∈ ts, t.lexeme ≠ .endMark := by
  intro t ht heq
  have hform := h.wellFormed t ht
  rw [heq] at hform
  exact hform

/-- The last token of a source is its end mark, and no other is. -/
theorem Tokenizes.endMark_last {body : List Token} {endToken : Token}
    (h : Tokenizes source (body ++ [endToken])) :
    endToken = ⟨.endMark, ⟨byteLength source, byteLength source⟩⟩ ∧
      ∀ t ∈ body, t.lexeme ≠ .endMark := by
  obtain ⟨body', heq, hbody⟩ := h
  obtain ⟨rfl, hend⟩ := List.append_inj' heq rfl
  exact ⟨List.singleton_inj.mp hend, hbody.ne_endMark⟩

/-- Every token is written where its span says. -/
theorem Tokenizes.slice (h : Tokenizes source ts) {t : Token} (ht : t ∈ ts) :
    slice? source t.span = some t.lexeme.chars := by
  obtain ⟨body, rfl, hbody⟩ := h
  rcases List.mem_append.mp ht with ht | ht
  · exact hbody.slice t ht
  · obtain rfl := List.mem_singleton.mp ht
    exact slice?_eq_some_iff.mpr ⟨source, [], (List.append_nil source).symm, rfl⟩

/-! ## The tree of a source -/

/-- A syntax error of a list with an end mark is blamed on a token of the list. -/
theorem Bracket.token_mem_of_syntaxError? {inner : List Token} {endToken : Token}
    {error : SyntaxError} (h : syntaxError? endToken (run [] inner) = some error) :
    error.token ∈ inner ++ [endToken] ∧ error.overrun = false := by
  match houtcome : run [] inner with
  | .ok [] =>
    rw [houtcome] at h
    cases h
  | .ok (top :: _) =>
    rw [houtcome] at h
    obtain rfl := Option.some.inj h
    exact ⟨List.mem_append_right _ List.mem_cons_self, rfl⟩
  | .error ⟨token, none⟩ | .error ⟨token, some top⟩ =>
    rw [houtcome] at h
    obtain rfl := Option.some.inj h
    exact ⟨List.mem_append_left _ (mem_of_run_eq_error houtcome), rfl⟩

namespace Node

variable {source file : String} {ts : List Token}

/-- The trees of a source are those of the grammar. -/
theorem parse_eq_ok_iff {root : Node} :
    Node.parse source file = .ok root ↔ ∃ body items,
      Tokenizes source.toList
        (body ++ [⟨.endMark, ⟨byteLength source.toList, byteLength source.toList⟩⟩]) ∧
      CoversFrom 0 source.toList body ∧ Reads body items [] ∧
      root = program (byteLength source.toList) items := by
  rw [Node.parse]
  cases htokens : tokens source.toList with
  | error error =>
    refine iff_of_false (fun h ↦ nomatch h) ?_
    rintro ⟨body, items, hcover, -⟩
    cases htokens.symm.trans (tokens_eq_ok_iff.mpr hcover)
  | ok ts =>
    obtain ⟨body, rfl, hcover⟩ := tokens_eq_ok_iff.mp htokens
    have hok {root' : Node} := @ofTokens_eq_ok_iff body []
      ⟨.endMark, ⟨byteLength source.toList, byteLength source.toList⟩⟩ rfl hcover.ne_endMark root'
    dsimp only
    constructor
    · intro h
      split at h
      · cases h
      · obtain rfl := Except.ok.inj h
        obtain ⟨items, hreads, hroot⟩ := hok.mp ‹_›
        exact ⟨body, items, tokens_eq_ok_iff.mp htokens, hcover, hreads, hroot⟩
    · rintro ⟨body', items, hcover', -, hreads, hroot⟩
      have hsame := Except.ok.inj (htokens.symm.trans (tokens_eq_ok_iff.mpr hcover'))
      obtain rfl := (List.append_left_inj _).mp hsame
      rw [hok.mpr ⟨items, hreads, hroot⟩]

/-- A tree of the tokens is a tree of the source. -/
theorem parse_eq_ok_of_ofTokens {root : Node} (htokens : tokens source.toList = .ok ts)
    (hroot : ofTokens ts = .ok root) : Node.parse source file = .ok root := by
  rw [Node.parse, htokens]
  dsimp only
  rw [hroot]

/-- A source has a tree when it can be cut into tokens whose brackets all match. -/
theorem exists_parse_eq_ok_iff :
    (∃ root, Node.parse source file = .ok root) ↔ ∃ body,
      Tokenizes source.toList
        (body ++ [⟨.endMark, ⟨byteLength source.toList, byteLength source.toList⟩⟩]) ∧
      Bracket.run [] body = .ok [] := by
  constructor
  · rintro ⟨root, h⟩
    obtain ⟨body, items, hcover, -, hreads, -⟩ := parse_eq_ok_iff.mp h
    exact ⟨body, hcover, run_of_reads hreads []⟩
  · rintro ⟨body, hcover, hrun⟩
    obtain ⟨root, hroot⟩ :=
      (@exists_ofTokens_eq_ok_iff body ⟨.endMark, _⟩ rfl hcover.endMark_last.2 []).mpr hrun
    exact ⟨root, parse_eq_ok_of_ofTokens (tokens_eq_ok_iff.mpr hcover) hroot⟩

/-- When the tokens of a source have no tree, the token that is blamed stands in the source, and the
report quotes it and names the line that it begins on. -/
theorem exists_parse_eq_error_of_ofTokens {error : SyntaxError}
    (htokens : tokens source.toList = .ok ts) (herror : ofTokens ts = .error error) :
    ∃ before after, source.toList = before ++ (error.token.lexeme.chars ++ after) ∧
      error.token.span.start = byteLength before ∧
      error.quoted source.toList = String.ofList error.token.lexeme.chars ∧
      Node.parse source file = .error (.parser (error.message source.toList)
        (some ⟨file, before.count '\n' + 1⟩)) := by
  have hcover := tokens_eq_ok_iff.mp htokens
  obtain ⟨body, rfl, hbody⟩ := id hcover
  obtain ⟨hmem, hoverrun⟩ :=
    Bracket.token_mem_of_syntaxError? ((ofTokens_eq_error_iff rfl hbody.ne_endMark).mp herror)
  have hslice := hcover.slice hmem
  obtain ⟨before, after, hsource, hspan⟩ := slice?_eq_some_iff.mp hslice
  have hstart : error.token.span.start = byteLength before := by rw [hspan]
  refine ⟨before, after, hsource, hstart, by rw [SyntaxError.quoted, hslice, Option.getD_some], ?_⟩
  have hoffset : error.offset = byteLength before := by
    rw [SyntaxError.offset, hoverrun, hstart]
    rfl
  have hline : lineAt? source.toList error.offset = some (before.count '\n' + 1) := by
    rw [hoffset, hsource, lineAt?_append]
  rw [Node.parse, htokens]
  dsimp only
  rw [herror]
  dsimp only
  rw [SyntaxError.report, SyntaxError.report?, hline, Option.map_some, Option.getD_some]

theorem exists_parse_eq_error {error : SyntaxError} (htokens : tokens source.toList = .ok ts)
    (herror : ofTokens ts = .error error) :
    error.quoted source.toList = String.ofList error.token.lexeme.chars ∧
      ∃ line, Node.parse source file
        = .error (.parser (error.message source.toList) (some ⟨file, line⟩)) := by
  obtain ⟨before, -, -, -, hquoted, hparse⟩ := exists_parse_eq_error_of_ofTokens htokens herror
  exact ⟨hquoted, _, hparse⟩

end Node

end QuoteLisp
