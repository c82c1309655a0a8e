import QuoteLisp.Proofs.Evaluation.Activation
import QuoteLisp.Proofs.Token.Walk
import QuoteLisp.Proofs.Value.Layout

/-!
# Sources one after another

A source that parses, a line feed and any other source are the program of the first followed by the
program of the second. The tokens are those of both, the second ones moved along, and a sequence of
items that is read to its end leaves the reader as it was. Hence the two texts together parse when
the second one does, and then the forms are those of both (`Node.toOption_parse_append_newline`).

Loading evaluates the forms of a file one after another, so loading the two texts together is
loading one and then the other. But the whole text has to parse before anything is evaluated: if the
second text does not parse, not even the forms of the first are.
-/

namespace QuoteLisp

/-! ## The forms of both -/

section

variable {ε ε' α β : Type}

private theorem toOption_map (f : α → β) (x : Except ε α) :
    (x.map f).toOption = x.toOption.map f := by
  cases x <;> rfl

private theorem toOption_mapError (f : ε → ε') (x : Except ε α) :
    (x.mapError f).toOption = x.toOption := by
  cases x <;> rfl

private theorem map_toOption_eq_some_iff {f : α → β} {x : Except ε α} {b : β} :
    x.toOption.map f = some b ↔ ∃ a, x = .ok a ∧ f a = b := by
  cases x <;> simp [Except.toOption]

end

theorem significant_map_shift (bytes : Nat) (ts : List Token) :
    significant (ts.map (Token.shift bytes)) = significant ts := by
  rw [significant, List.map_map]
  rfl

theorem not_endMark_of_mem_map_shift {ts : List Token} (h : ∀ t ∈ ts, t.lexeme ≠ .endMark)
    (bytes : Nat) : ∀ t ∈ ts.map (Token.shift bytes), t.lexeme ≠ .endMark := by
  intro t ht
  obtain ⟨u, hu, rfl⟩ := List.mem_map.mp ht
  exact h u hu

namespace Node

open Value

/-- Apart from the report of a failure, parsing is cutting into tokens and grouping them. -/
theorem toOption_parse (source file : String) :
    (Node.parse source file).toOption
      = (tokens source.toList).toOption.bind fun ts ↦ (ofTokens ts).toOption := by
  rw [Node.parse]
  cases tokens source.toList with
  | error error => rfl
  | ok ts =>
    dsimp only [Except.toOption, Option.bind]
    cases ofTokens ts <;> rfl

/-- Where the tokens of a source stand has no part in what is read from them. -/
theorem toOption_ofTokens_map_shift {source : List Char} {ts : List Token}
    (h : Tokenizes source ts) (bytes : Nat) :
    (ofTokens (ts.map (Token.shift bytes))).toOption.map ofNode
      = (ofTokens ts).toOption.map ofNode := by
  obtain ⟨inner, rfl, hcover⟩ := h
  have hinner := not_endMark_of_mem_map_shift hcover.ne_endMark bytes
  have hread := ofTokens_bare_of_tokenizes ⟨inner, rfl, hcover⟩
  have hmoved := @ofTokens_bare _
    (Token.shift bytes ⟨.endMark, ⟨byteLength source, byteLength source⟩⟩) rfl hinner []
  rw [← List.map_singleton, ← List.map_append, bare, significant_map_shift, ← bare, hread] at hmoved
  have hsame := congrArg Except.toOption hmoved
  rw [toOption_mapError, toOption_mapError, toOption_map, toOption_map] at hsame
  exact hsame.symm

/-- Items in front of a list of tokens that has an end mark are in front of what is read. -/
theorem ofTokens_append {front inner : List Token} {endToken : Token} {items : List Node}
    (hfront : Reads front items []) (hend : endToken.lexeme = .endMark)
    (hinner : ∀ t ∈ inner, t.lexeme ≠ .endMark) :
    (ofTokens (front ++ (inner ++ [endToken]))).toOption.map ofNode
      = ((ofTokens (inner ++ [endToken])).toOption.map ofNode).map
          fun v ↦ sexpr (ofNodes items ++ v.forms) := by
  have hboth : ∀ t ∈ front ++ inner, t.lexeme ≠ .endMark :=
    List.forall_mem_append.mpr ⟨hfront.not_endMark, hinner⟩
  rw [← List.append_assoc]
  cases hresult : ofTokens (inner ++ [endToken]) with
  | error error =>
    have herror := (ofTokens_eq_error_iff hend hinner).mp hresult
    rw [← run_of_reads (hfront.append inner) []] at herror
    rw [(ofTokens_eq_error_iff hend hboth).mpr herror]
    rfl
  | ok root =>
    obtain ⟨items', hreads, rfl⟩ := (ofTokens_eq_ok_iff hend hinner).mp hresult
    have hall := (hfront.append inner).trans hreads
    rw [(ofTokens_eq_ok_iff hend hboth).mpr ⟨_, hall, rfl⟩]
    simp only [Except.toOption, Option.map, ofNode_program, ofNodes_append, Value.forms]

/-- Two texts with a line feed between them are read as the forms of both, if the first one parses
by itself. -/
theorem toOption_parse_append_newline {source fileA : String} {rootA : Node}
    (hA : Node.parse source fileA = .ok rootA) (more file fileB : String) :
    (Node.parse (source ++ "\n" ++ more) file).toOption.map ofNode
      = ((Node.parse more fileB).toOption.map ofNode).map
          fun v ↦ sexpr ((ofNode rootA).forms ++ v.forms) := by
  obtain ⟨front, items, htokens, -, hfront, rfl⟩ := parse_eq_ok_iff.mp hA
  have hcut := tokens_eq_ok_iff.mpr htokens
  obtain ⟨body, hbody, hmore⟩ := tokensFrom_append_newline hcut more.toList
  rw [Nat.zero_add] at hbody hmore
  obtain rfl := List.append_cancel_right hbody
  have hsource : (source ++ "\n" ++ more).toList = source.toList ++ '\n' :: more.toList := by
    simp
  rw [tokensFrom_add (byteLength source.toList + 1) 0] at hmore
  rw [toOption_parse, toOption_parse, hsource, tokens, hmore, ← tokens, ofNode_program]
  cases hB : tokens more.toList with
  | error error => rfl
  | ok ts =>
    have hts := tokens_eq_ok_iff.mp hB
    have hmoved := toOption_ofTokens_map_shift hts (byteLength source.toList + 1)
    obtain ⟨inner, rfl, hcover⟩ := hts
    have hinner := not_endMark_of_mem_map_shift hcover.ne_endMark (byteLength source.toList + 1)
    rw [List.map_append, List.map_singleton] at hmoved
    have hboth := @ofTokens_append _ _ (Token.shift (byteLength source.toList + 1)
      ⟨.endMark, ⟨byteLength more.toList, byteLength more.toList⟩⟩) _ hfront rfl hinner
    rw [hmoved] at hboth
    rw [Except.map, List.map_append, List.map_singleton]
    exact hboth

section

variable {source more file fileA fileB : String} {root rootA rootB : Node}

/-- The trees of the whole are those of the second text, with the first text's forms in front. -/
theorem exists_parse_append_newline_and_iff (hA : Node.parse source fileA = .ok rootA) {v : Value} :
    (∃ root, Node.parse (source ++ "\n" ++ more) file = .ok root ∧ ofNode root = v) ↔
      ∃ rootB, Node.parse more fileB = .ok rootB ∧
        sexpr ((ofNode rootA).forms ++ (ofNode rootB).forms) = v := by
  have hboth := toOption_parse_append_newline hA more file fileB
  rw [← map_toOption_eq_some_iff, hboth, Option.map_map, map_toOption_eq_some_iff]
  rfl

/-- The whole parses exactly when the second text does. -/
theorem exists_parse_append_newline_iff (hA : Node.parse source fileA = .ok rootA) :
    (∃ root, Node.parse (source ++ "\n" ++ more) file = .ok root) ↔
      ∃ rootB, Node.parse more fileB = .ok rootB := by
  constructor
  · rintro ⟨root, hroot⟩
    obtain ⟨rootB, hB, -⟩ := (exists_parse_append_newline_and_iff hA).mp ⟨root, hroot, rfl⟩
    exact ⟨rootB, hB⟩
  · rintro ⟨rootB, hB⟩
    obtain ⟨root, hroot, -⟩ := (exists_parse_append_newline_and_iff hA).mpr ⟨rootB, hB, rfl⟩
    exact ⟨root, hroot⟩

theorem forms_append_newline (hA : Node.parse source fileA = .ok rootA)
    (hroot : Node.parse (source ++ "\n" ++ more) file = .ok root)
    (hB : Node.parse more fileB = .ok rootB) :
    (ofNode root).forms = (ofNode rootA).forms ++ (ofNode rootB).forms := by
  obtain ⟨rootB', hB', heq⟩ := (exists_parse_append_newline_and_iff hA).mp ⟨root, hroot, rfl⟩
  obtain rfl := Except.ok.inj (hB.symm.trans hB')
  rw [← heq, Value.forms]

end

end Node

/-! ## Loading both -/

open Value

/-- The forms of a file are those of its text, if that parses. -/
theorem fileForms_eq_map (path text : String) :
    fileForms path (.ok text)
      = (Node.parse text path).map fun root ↦ (ofNode root).forms := rfl

namespace Activity

variable {library : Library} {scope : ScopeId} {source more fileA path pathA pathB : String}
  {rootA rootB : Node} {m m' : Machine} {a : Value}

/-- Loading the whole is loading the first text and then the second. -/
theorem ends_load_append_newline_iff (hA : Node.parse source fileA = .ok rootA)
    (hB : Node.parse more pathB = .ok rootB)
    (hread : library.read? path = some (.ok (source ++ "\n" ++ more)))
    (hreadA : library.read? pathA = some (.ok source))
    (hreadB : library.read? pathB = some (.ok more)) :
    (load path).Ends library scope m a m' ↔ a = .unit ∧
      ∃ b m₁ c, (load pathA).Ends library scope m b m₁ ∧
        (load pathB).Ends library scope m₁ c m' := by
  obtain ⟨root, hroot⟩ := (@Node.exists_parse_append_newline_iff _ _ path _ _ _ hA).mpr ⟨rootB, hB⟩
  have hA' : Node.parse source pathA = .ok rootA :=
    Node.parse_eq_ok_iff.mpr (Node.parse_eq_ok_iff.mp hA)
  have hforms : fileForms path (.ok (source ++ "\n" ++ more))
      = .ok ((ofNode rootA).forms ++ (ofNode rootB).forms) := by
    rw [fileForms_eq_map, hroot, ← Node.forms_append_newline hA hroot hB]
    rfl
  have hformsA : fileForms pathA (.ok source) = .ok (ofNode rootA).forms := by
    rw [fileForms_eq_map, hA']
    rfl
  have hformsB : fileForms pathB (.ok more) = .ok (ofNode rootB).forms := by
    rw [fileForms_eq_map, hB]
    rfl
  simp only [ends_load_of_ok_iff hread hforms, ends_load_of_ok_iff hreadA hformsA,
    ends_load_of_ok_iff hreadB hformsB, derives_forms_append_iff]
  refine and_congr_right fun _ ↦ ?_
  constructor
  · rintro ⟨m₁, hrunA, hrunB⟩
    exact ⟨.unit, m₁, .unit, ⟨rfl, hrunA⟩, rfl, hrunB⟩
  · rintro ⟨-, m₁, -, ⟨-, hrunA⟩, -, hrunB⟩
    exact ⟨m₁, hrunA, hrunB⟩

/-- **Concatenating sources is sequencing programs.** Let a source parse, and put a line feed and
any other text after it. The whole parses exactly when the second text does. Then its forms are
those of the first text followed by those of the second, and loading a file with the whole results
in the empty form and does what loading a file with the first text and then one with the second
does. If the whole does not parse, loading it results in an error, changes nothing, and goes on to
no evaluation of any form. -/
theorem load_append_newline {source fileA : String} {rootA : Node}
    (hA : Node.parse source fileA = .ok rootA) (more : String) :
    (∀ file fileB, (∃ root, Node.parse (source ++ "\n" ++ more) file = .ok root) ↔
        ∃ rootB, Node.parse more fileB = .ok rootB) ∧
      (∀ file root fileB rootB, Node.parse (source ++ "\n" ++ more) file = .ok root →
        Node.parse more fileB = .ok rootB →
          (ofNode root).forms = (ofNode rootA).forms ++ (ofNode rootB).forms) ∧
      ∀ (library : Library) (path pathA pathB : String),
        library.read? path = some (.ok (source ++ "\n" ++ more)) →
        library.read? pathA = some (.ok source) → library.read? pathB = some (.ok more) →
        ∀ scope m,
          ((∃ rootB, Node.parse more pathB = .ok rootB) → ∀ a m',
            (load path).Ends library scope m a m' ↔ a = .unit ∧
              ∃ b m₁ c, (load pathA).Ends library scope m b m₁ ∧
                (load pathB).Ends library scope m₁ c m') ∧
          ((¬∃ rootB, Node.parse more pathB = .ok rootB) →
            ∃ failure, Node.parse (source ++ "\n" ++ more) path = .error failure ∧
              (∀ a m', (load path).Ends library scope m a m' ↔
                a = .error ("Could not load Library " ++ failure.message) ∧ m' = m) ∧
              ∀ frames act, ¬Activation.Calls library ⟨scope, .load path, m, frames⟩ act) := by
  have hiff (file fileB : String) := @Node.exists_parse_append_newline_iff source more file fileA
    fileB rootA hA
  refine ⟨hiff, fun file root fileB rootB ↦ Node.forms_append_newline hA,
    fun library path pathA pathB hread hreadA hreadB scope m ↦ ⟨?_, fun hnone ↦ ?_⟩⟩
  · rintro ⟨rootB, hB⟩ a m'
    exact ends_load_append_newline_iff hA hB hread hreadA hreadB
  · cases hparse : Node.parse (source ++ "\n" ++ more) path with
    | ok root => exact absurd ((hiff path pathB).mp ⟨root, hparse⟩) hnone
    | error failure =>
      have hfails : fileForms path (.ok (source ++ "\n" ++ more)) = .error failure := by
        rw [fileForms_eq_map, hparse]
        rfl
      exact ⟨failure, rfl, fun a m' ↦ ends_load_of_error_iff hread hfails,
        fun frames act ↦ Activation.not_calls_of_fileForms hread hfails⟩

/-- After a text that ends in a comment, a text that parses and a text that does not. -/
theorem load_append_newline_after_comment :
    (∃ root, Node.parse "1 ;(\n2" "c.lspy" = .ok root ∧
        (ofNode root).forms = [number 1, number 2]) ∧
      ∃ failure, Node.parse "1 ;(\n(" "c.lspy" = .error failure ∧ ∀ scope m a m',
        (load "c.lspy").Ends ⟨fun path ↦ some (.ok (if path = "a.lspy" then "1 ;("
          else if path = "b.lspy" then "(" else "1 ;(\n("))⟩ scope m a m' ↔
            a = .error ("Could not load Library " ++ failure.message) ∧ m' = m := by
  have htokens : tokens "1 ;(".toList = .ok [⟨.atom .number "1", ⟨0, 1⟩⟩,
      ⟨.atom .comment ";(", ⟨2, 4⟩⟩, ⟨.endMark, ⟨4, 4⟩⟩] := by
    simp +decide [tokens, tokensFrom, Lexeme.match?, Except.map]
  have htwo : tokens "2".toList = .ok [⟨.atom .number "2", ⟨0, 1⟩⟩, ⟨.endMark, ⟨1, 1⟩⟩] := by
    simp +decide [tokens, tokensFrom, Lexeme.match?, Except.map]
  have hopen : tokens "(".toList = .ok [⟨.opening .paren, ⟨0, 1⟩⟩, ⟨.endMark, ⟨1, 1⟩⟩] := by
    simp +decide [tokens, tokensFrom, Lexeme.match?, Except.map]
  have hroot := (@Node.ofTokens_eq_ok_iff [⟨.atom .number "1", ⟨0, 1⟩⟩,
    ⟨.atom .comment ";(", ⟨2, 4⟩⟩] [] ⟨.endMark, ⟨4, 4⟩⟩ rfl (by decide) _).mpr
      ⟨_, .atom _ _ _ (.atom _ _ _ (.done [])), rfl⟩
  have hrootTwo := (@Node.ofTokens_eq_ok_iff [⟨.atom .number "2", ⟨0, 1⟩⟩] [] ⟨.endMark, ⟨1, 1⟩⟩ rfl
    (by decide) _).mpr ⟨_, .atom _ _ _ (.done []), rfl⟩
  have herror := (@Node.ofTokens_eq_error_iff [⟨.opening .paren, ⟨0, 1⟩⟩] [] ⟨.endMark, ⟨1, 1⟩⟩ rfl
    (by decide) _).mpr rfl
  have hA := @Node.parse_eq_ok_of_ofTokens "1 ;(" "a.lspy" _ _ htokens hroot
  have hB := @Node.parse_eq_ok_of_ofTokens "2" "b.lspy" _ _ htwo hrootTwo
  obtain ⟨hparses, hforms, -⟩ := load_append_newline hA "2"
  obtain ⟨-, -, hload⟩ := load_append_newline hA "("
  obtain ⟨root, hboth⟩ := (hparses "c.lspy" "b.lspy").mpr ⟨_, hB⟩
  refine ⟨⟨root, hboth, ?_⟩, ?_⟩
  · rw [hforms _ _ _ _ hboth hB]
    rfl
  · have hnone : ¬∃ rootB, Node.parse "(" "b.lspy" = .ok rootB := by
      rintro ⟨rootB, hrootB⟩
      obtain ⟨-, line, hreport⟩ := @Node.exists_parse_eq_error "(" "b.lspy" _ _ hopen herror
      cases hrootB.symm.trans hreport
    have hfails (scope : ScopeId) (m : Machine) :=
      (hload ⟨fun path ↦ some (.ok (if path = "a.lspy" then "1 ;("
        else if path = "b.lspy" then "(" else "1 ;(\n("))⟩ "c.lspy" "a.lspy" "b.lspy" rfl rfl rfl
          scope m).2 hnone
    obtain ⟨failure, hparse, -⟩ := hfails globalScope (Machine.start .empty)
    refine ⟨failure, hparse, fun scope m a m' ↦ ?_⟩
    obtain ⟨failure', hparse', hends, -⟩ := hfails scope m
    obtain rfl := Except.error.inj (hparse.symm.trans hparse')
    exact hends a m'

end Activity

end QuoteLisp
