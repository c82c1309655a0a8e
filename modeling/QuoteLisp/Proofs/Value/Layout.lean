import QuoteLisp.Proofs.Node.Parse
import QuoteLisp.Proofs.Value.OfNode

/-!
# Layout and comments

What a source is read as depends on its lexemes and their order, comments apart. Nothing depends on
where they stand, so blanks, the ends of lines and all that a comment says are free.

Two ways of laying out a program are compared by way of a third one. `bare ts` are the tokens `ts`
without the comments, all at the beginning of the source, so it is the same for every layout. The
bracket machine comes to the same end on bare tokens (`Bracket.run_bare`), and so does the grammar
(`Node.Reads.bare`). Hence `Node.ofTokens_bare`: bare tokens are read as the tokens they are made
from, with the same value, or with the same error blamed on the same lexeme.
-/

namespace QuoteLisp

/-! ## Tokens without their layout -/

/-- Whether a lexeme is one that readers pass over. -/
def Lexeme.isComment : Lexeme → Bool
  | atom .comment _ => true
  | _ => false

/-- The lexemes of some tokens, without the comments. -/
def significant (ts : List Token) : List Lexeme :=
  (ts.map Token.lexeme).filter (!·.isComment)

/-- A token with nothing but its lexeme. -/
def Token.bare (t : Token) : Token :=
  ⟨t.lexeme, ⟨0, 0⟩⟩

/-- Some tokens without comments and without their places. -/
def bare (ts : List Token) : List Token :=
  (significant ts).map (⟨·, ⟨0, 0⟩⟩)

section

variable {t : Token} {ts us : List Token}

theorem significant_append (ts us : List Token) :
    significant (ts ++ us) = significant ts ++ significant us := by
  rw [significant, List.map_append, List.filter_append]
  rfl

theorem bare_append (ts us : List Token) : bare (ts ++ us) = bare ts ++ bare us := by
  rw [bare, significant_append, List.map_append]
  rfl

theorem bare_cons_of_isComment (h : t.lexeme.isComment = true) : bare (t :: ts) = bare ts := by
  rw [bare, significant, List.map_cons, List.filter_cons_of_neg (by rw [h]; decide)]
  rfl

theorem bare_cons_of_not_isComment (h : t.lexeme.isComment = false) :
    bare (t :: ts) = t.bare :: bare ts := by
  rw [bare, significant, List.map_cons, List.filter_cons_of_pos (by rw [h]; decide)]
  rfl

theorem not_endMark_of_mem_bare (h : ∀ t ∈ ts, t.lexeme ≠ .endMark) :
    ∀ t ∈ bare ts, t.lexeme ≠ .endMark := by
  intro t ht
  obtain ⟨lexeme, hlexeme, rfl⟩ := List.mem_map.mp ht
  obtain ⟨u, hu, rfl⟩ := List.mem_map.mp (List.mem_filter.mp hlexeme).1
  exact h u hu

end

/-! ## The machine on bare tokens -/

namespace Bracket

/-- A clash without the place of its token. -/
def Clash.bare (clash : Clash) : Clash :=
  ⟨clash.token.bare, clash.expected⟩

theorem move_of_isComment {t : Token} (h : t.lexeme.isComment = true) (stack : List Bracket) :
    move stack t = .ok stack := by
  obtain ⟨lexeme, span⟩ := t
  cases lexeme with
  | atom => rfl
  | opening | closing | endMark => cases h

theorem move_bare (stack : List Bracket) (t : Token) :
    move stack t.bare = (move stack t).mapError Clash.bare := by
  obtain ⟨lexeme, span⟩ := t
  cases lexeme with
  | atom | opening | endMark => rfl
  | closing bracket =>
    cases stack with
    | nil => rfl
    | cons top below =>
      simp only [move, Token.bare]
      split <;> rfl

/-- The machine makes the same moves, and clashes at the same lexeme. -/
theorem run_bare (stack : List Bracket) (ts : List Token) :
    run stack (bare ts) = (run stack ts).mapError Clash.bare := by
  induction ts generalizing stack with
  | nil => rfl
  | cons t ts ih =>
    by_cases hcomment : t.lexeme.isComment = true
    · rw [bare_cons_of_isComment hcomment, run_cons, move_of_isComment hcomment, ih]
      rfl
    · rw [bare_cons_of_not_isComment (eq_false_of_ne_true hcomment), run_cons, run_cons, move_bare]
      cases move stack t with
      | error clash => rfl
      | ok next => exact ih next

end Bracket

/-! ## The reader on bare tokens -/

namespace Value

open Node

/-- Where an atom stands has no part in its value. -/
theorem ofNodes_leaf_congr (tag contents : String) (span span' : Span) {nodes nodes' : List Node}
    (h : ofNodes nodes = ofNodes nodes') :
    ofNodes (leaf tag contents span :: nodes) = ofNodes (leaf tag contents span' :: nodes') := by
  rw [ofNodes, ofNodes, h]
  rfl

theorem ofNodes_form_congr (bracket : Bracket) (opening closing opening' closing' : Span)
    {inner inner' nodes nodes' : List Node} (hinner : ofNodes inner = ofNodes inner')
    (h : ofNodes nodes = ofNodes nodes') :
    ofNodes (form bracket opening closing inner :: nodes)
      = ofNodes (form bracket opening' closing' inner' :: nodes') := by
  rw [ofNodes_cons_of_not_isStructural (isStructural_form _ _ _ _),
    ofNodes_cons_of_not_isStructural (isStructural_form _ _ _ _), ofNode_form, ofNode_form, hinner,
    h]

end Value

namespace Node

open Value QuoteLisp.Bracket

/-- What is read from some tokens is read from the bare tokens, but for places and comments. -/
theorem Reads.bare {ts rest : List Token} {items : List Node} (h : Reads ts items rest) :
    ∃ items', Reads (QuoteLisp.bare ts) items' (QuoteLisp.bare rest) ∧
      ofNodes items' = ofNodes items := by
  induction h with
  | done rest => exact ⟨[], .done _, rfl⟩
  | @atom tokens rest items kind text span _ ih =>
    obtain ⟨items', hreads, hvalues⟩ := ih
    by_cases hcomment : (Lexeme.atom kind text).isComment = true
    · cases kind with
      | comment =>
        refine ⟨items', ?_, ?_⟩
        · rwa [bare_cons_of_isComment hcomment]
        · rwa [ofNodes_cons_of_isStructural (isStructural_comment text span)]
      | number | symbol | string => cases hcomment
    · rw [bare_cons_of_not_isComment (eq_false_of_ne_true hcomment)]
      exact ⟨_, .atom kind text _ hreads, ofNodes_leaf_congr _ text _ _ hvalues⟩
  | @form tokens middle rest inner items bracket opening closing _ _ ihinner ih =>
    obtain ⟨inner', hinner, hinside⟩ := ihinner
    obtain ⟨items', hreads, hvalues⟩ := ih
    rw [bare_cons_of_not_isComment rfl] at hinner ⊢
    exact ⟨_, .form bracket _ _ hinner hreads, ofNodes_form_congr bracket _ _ _ _ hinside hvalues⟩

end Node

/-- A syntax error without the place of its token. -/
def SyntaxError.bare (error : SyntaxError) : SyntaxError :=
  { error with token := error.token.bare }

namespace Node

open Value QuoteLisp.Bracket

theorem syntaxError?_bare (endToken : Token) (outcome : Except Clash (List Bracket)) :
    syntaxError? endToken.bare (outcome.mapError Clash.bare)
      = (syntaxError? endToken outcome).map SyntaxError.bare := by
  match outcome with
  | .ok [] | .ok (_ :: _) | .error ⟨_, none⟩ | .error ⟨_, some _⟩ => rfl

/-- **Bare tokens are enough.** Without comments and places, tokens are read as the same value, or
as the same error at the same lexeme. -/
theorem ofTokens_bare {inner : List Token} {endToken : Token} (hend : endToken.lexeme = .endMark)
    (hinner : ∀ t ∈ inner, t.lexeme ≠ .endMark) (after : List Token) :
    (ofTokens (bare (inner ++ endToken :: after))).map ofNode
      = ((ofTokens (inner ++ endToken :: after)).map ofNode).mapError SyntaxError.bare := by
  have hbare : bare (inner ++ endToken :: after) = bare inner ++ endToken.bare :: bare after := by
    rw [bare_append, bare_cons_of_not_isComment (by rw [hend]; rfl)]
  have hend' : endToken.bare.lexeme = .endMark := hend
  have hinner' := not_endMark_of_mem_bare hinner
  rw [hbare]
  cases hresult : ofTokens (inner ++ endToken :: after) with
  | error error =>
    have herror := (ofTokens_eq_error_iff hend hinner).mp hresult
    have herror' : syntaxError? endToken.bare (run [] (bare inner)) = some error.bare := by
      rw [run_bare, syntaxError?_bare, herror, Option.map_some]
    rw [(ofTokens_eq_error_iff hend' hinner').mpr herror']
    rfl
  | ok root =>
    obtain ⟨items, hreads, rfl⟩ := (ofTokens_eq_ok_iff hend hinner).mp hresult
    obtain ⟨items', hreads', hvalues⟩ := hreads.bare
    rw [(ofTokens_eq_ok_iff hend' hinner').mpr ⟨items', hreads', rfl⟩]
    simp only [Except.map, Except.mapError, ofNode_program, hvalues]

/-! ## Sources that differ in layout -/

/-- The outcome of reading the tokens of a source is that of reading the bare tokens. -/
theorem ofTokens_bare_of_tokenizes {source : List Char} {ts : List Token}
    (h : Tokenizes source ts) :
    (ofTokens (bare ts)).map ofNode = ((ofTokens ts).map ofNode).mapError SyntaxError.bare := by
  obtain ⟨body, rfl, hbody⟩ := h
  exact ofTokens_bare rfl hbody.ne_endMark []

end Node

/-- Errors of one cause that quote the same text have the same message. -/
theorem SyntaxError.message_congr {error error' : SyntaxError} {source source' : List Char}
    (hcause : error.cause = error'.cause) (hquoted : error.quoted source = error'.quoted source') :
    error.message source = error'.message source' := by
  simp only [message, hcause, hquoted]

namespace Node

open Value

/-- **Layout and comments carry no meaning.** Let two sources have tokens, and let these be the same
lexemes in the same order, comments apart. Then both sources have a tree, and the two are read as
the same value, or neither has one, and both reports have the same text. -/
theorem parse_of_significant_eq {source₁ source₂ : String} {ts₁ ts₂ : List Token}
    (h₁ : tokens source₁.toList = .ok ts₁) (h₂ : tokens source₂.toList = .ok ts₂)
    (h : significant ts₁ = significant ts₂) (file₁ file₂ : String) :
    (∃ root₁ root₂, Node.parse source₁ file₁ = .ok root₁ ∧ Node.parse source₂ file₂ = .ok root₂ ∧
        ofNode root₁ = ofNode root₂) ∨
      ∃ text line₁ line₂,
        Node.parse source₁ file₁ = .error (.parser text (some ⟨file₁, line₁⟩)) ∧
          Node.parse source₂ file₂ = .error (.parser text (some ⟨file₂, line₂⟩)) := by
  have hread₁ := ofTokens_bare_of_tokenizes (tokens_eq_ok_iff.mp h₁)
  have hread₂ := ofTokens_bare_of_tokenizes (tokens_eq_ok_iff.mp h₂)
  -- both readings are that of the same bare tokens
  rw [bare, h, ← bare, hread₂] at hread₁
  cases hresult₁ : ofTokens ts₁ with
  | ok root₁ =>
    cases hresult₂ : ofTokens ts₂ with
    | error error₂ =>
      rw [hresult₁, hresult₂] at hread₁
      cases hread₁
    | ok root₂ =>
      rw [hresult₁, hresult₂] at hread₁
      exact Or.inl ⟨root₁, root₂, parse_eq_ok_of_ofTokens h₁ hresult₁,
        parse_eq_ok_of_ofTokens h₂ hresult₂, (Except.ok.inj hread₁).symm⟩
  | error error₁ =>
    cases hresult₂ : ofTokens ts₂ with
    | ok root₂ =>
      rw [hresult₁, hresult₂] at hread₁
      cases hread₁
    | error error₂ =>
      rw [hresult₁, hresult₂] at hread₁
      obtain ⟨hcause, htoken, -⟩ := SyntaxError.mk.inj (Except.error.inj hread₁)
      obtain ⟨hquoted₁, line₁, hreport₁⟩ := exists_parse_eq_error h₁ hresult₁
      obtain ⟨hquoted₂, line₂, hreport₂⟩ := exists_parse_eq_error h₂ hresult₂
      have hquoted : error₁.quoted source₁.toList = error₂.quoted source₂.toList := by
        rw [hquoted₁, hquoted₂, (Token.mk.inj htoken).1]
      rw [SyntaxError.message_congr hcause.symm hquoted] at hreport₁
      exact Or.inr ⟨_, line₁, line₂, hreport₁, hreport₂⟩

/-- The wrong bracket, once on a line of its own after a comment that has the right one. -/
theorem parse_of_significant_eq_wrong_bracket :
    ∃ line₁ line₂,
      Node.parse "\x7b1 ;\x7d\n )" "a.lspy"
        = .error (.parser "Unexpected ')', expected '\x7d'" (some ⟨"a.lspy", line₁⟩)) ∧
      Node.parse "\x7b1)" "b.lspy"
        = .error (.parser "Unexpected ')', expected '\x7d'" (some ⟨"b.lspy", line₂⟩)) := by
  have h₁ : tokens "\x7b1 ;\x7d\n )".toList
      = .ok [⟨.opening .brace, ⟨0, 1⟩⟩, ⟨.atom .number "1", ⟨1, 2⟩⟩,
          ⟨.atom .comment ";\x7d", ⟨3, 5⟩⟩, ⟨.closing .paren, ⟨7, 8⟩⟩, ⟨.endMark, ⟨8, 8⟩⟩] := by
    simp +decide [tokens, tokensFrom, Lexeme.match?, Except.map]
  have h₂ : tokens "\x7b1)".toList
      = .ok [⟨.opening .brace, ⟨0, 1⟩⟩, ⟨.atom .number "1", ⟨1, 2⟩⟩, ⟨.closing .paren, ⟨2, 3⟩⟩,
          ⟨.endMark, ⟨3, 3⟩⟩] := by
    simp +decide [tokens, tokensFrom, Lexeme.match?, Except.map]
  have herror : ofTokens [⟨.opening .brace, ⟨0, 1⟩⟩, ⟨.atom .number "1", ⟨1, 2⟩⟩,
      ⟨.closing .paren, ⟨2, 3⟩⟩, ⟨.endMark, ⟨3, 3⟩⟩]
      = .error ⟨.mismatched .brace, ⟨.closing .paren, ⟨2, 3⟩⟩, false⟩ :=
    (@ofTokens_eq_error_iff [⟨.opening .brace, ⟨0, 1⟩⟩, ⟨.atom .number "1", ⟨1, 2⟩⟩,
      ⟨.closing .paren, ⟨2, 3⟩⟩] [] ⟨.endMark, ⟨3, 3⟩⟩ rfl (by decide) _).mpr rfl
  obtain ⟨-, line, hreport⟩ := exists_parse_eq_error h₂ herror
  rcases parse_of_significant_eq h₁ h₂ (by decide) "a.lspy" "b.lspy" with
    ⟨_, _, -, hroot, -⟩ | ⟨text, line₁, line₂, hreport₁, hreport₂⟩
  · cases hroot.symm.trans hreport
  · obtain ⟨rfl, -⟩ := HostError.parser.inj (Except.error.inj (hreport₂.symm.trans hreport))
    exact ⟨line₁, line₂, hreport₁, hreport₂⟩

end Node

end QuoteLisp
