import QuoteLisp.Proofs.Node.Spans
import QuoteLisp.Proofs.Token.Passage

/-!
# Parts of a tree are trees of parts

The piece of source that an expression covers, taken by itself, is a program with that expression
and nothing else. What stands around it had no part in how it was read: the tokens of the piece are
those that the walk over the whole source made while passing over it, and the grammar reads them as
the same expression, as far to the front as the piece was cut out (`Reads.of_map_shift`).
-/

namespace QuoteLisp.Node

/-! ## Moving a tree along -/

mutual

/-- The same tree that many bytes further on. -/
def shift (bytes : Nat) : Node → Node
  | mk tag contents span children => mk tag contents (span.shift bytes) (shiftAll bytes children)

/-- The same trees that many bytes further on. -/
def shiftAll (bytes : Nat) : List Node → List Node
  | [] => []
  | node :: nodes => shift bytes node :: shiftAll bytes nodes

end

theorem shiftAll_eq_map (bytes : Nat) (trees : List Node) :
    shiftAll bytes trees = trees.map (shift bytes) := by
  induction trees with
  | nil => rfl
  | cons tree trees ih => rw [shiftAll, ih, List.map_cons]

theorem shift_leaf (bytes : Nat) (tag contents : String) (span : Span) :
    (leaf tag contents span).shift bytes = leaf tag contents (span.shift bytes) := by
  rw [leaf, shift, shiftAll]
  rfl

theorem shift_form (bytes : Nat) (bracket : Bracket) (opening closing : Span) (items : List Node) :
    (form bracket opening closing items).shift bytes
      = form bracket (opening.shift bytes) (closing.shift bytes) (items.map (shift bytes)) := by
  rw [form, shift, shiftAll_eq_map, List.map_append, List.map_cons, List.map_singleton, delimiter,
    shift_leaf, delimiter, shift_leaf]
  rfl

/-- Items read from tokens further on are the items read from the tokens, as much further on. -/
theorem Reads.of_map_shift {bytes : Nat} {tokens rest : List Token} {items : List Node}
    (h : Reads (tokens.map (Token.shift bytes)) items rest) :
    ∃ items' rest', Reads tokens items' rest' ∧ items = items'.map (shift bytes) ∧
      rest = rest'.map (Token.shift bytes) := by
  generalize hmoved : tokens.map (Token.shift bytes) = moved at h
  induction h generalizing tokens with
  | done => exact ⟨[], tokens, .done _, rfl, hmoved.symm⟩
  | atom kind text span _ ih =>
    obtain ⟨⟨lexeme, span⟩, tokens, rfl, hfirst, hrest⟩ := List.map_eq_cons_iff.mp hmoved
    obtain ⟨rfl, rfl⟩ := Token.mk.inj hfirst
    obtain ⟨items', rest', hreads, rfl, rfl⟩ := ih hrest
    refine ⟨_, rest', .atom kind text span hreads, ?_, rfl⟩
    rw [List.map_cons, shift_leaf]
  | form bracket opening closing _ _ ihinner ih =>
    obtain ⟨⟨lexeme, opening⟩, tokens, rfl, hfirst, hrest⟩ := List.map_eq_cons_iff.mp hmoved
    obtain ⟨rfl, rfl⟩ := Token.mk.inj hfirst
    obtain ⟨inner', rest', hinner, rfl, hclosing⟩ := ihinner hrest
    obtain ⟨⟨lexeme, closing⟩, middle, rfl, hlast, hmiddle⟩ :=
      List.map_eq_cons_iff.mp hclosing.symm
    obtain ⟨rfl, rfl⟩ := Token.mk.inj hlast
    obtain ⟨items', rest', hreads, rfl, rfl⟩ := ih hmiddle
    refine ⟨_, rest', .form bracket opening closing hinner hreads, ?_, rfl⟩
    rw [List.map_cons, shift_form]

/-! ## Expressions and where they stand -/

/-- An atom or a form, and neither a bracket, nor an anchor, nor the root. -/
def IsExpression (n : Node) : Prop :=
  (∃ kind, n.tag = atomTag kind) ∨ ∃ bracket, n.tag = formTag bracket

/-- The tags of the other nodes. -/
theorem IsExpression.tag_not_mem {n : Node} (h : n.IsExpression) :
    n.tag ∉ [">", "regex", "char"] := by
  rcases h with ⟨kind, h⟩ | ⟨bracket, h⟩
  · rw [h]
    cases kind <;> decide
  · rw [h]
    cases bracket <;> decide

variable {source : List Char} {body : List Token} {n : Node}

/-- A leaf that is an expression comes from an atom, which is read as that leaf by itself. -/
theorem reads_singleton_of_isExpression {t : Token} (h : t.toLeaf.IsExpression) :
    t.lexeme ≠ .endMark ∧ Reads [t] [t.toLeaf] [] := by
  obtain ⟨lexeme, span⟩ := t
  match lexeme with
  | .atom kind text =>
    rw [toLeaf_atom]
    exact ⟨nofun, .atom kind text span (.done [])⟩
  | .opening _ | .closing _ => exact absurd (show "char" ∈ _ by decide) h.tag_not_mem
  | .endMark => exact absurd (show "regex" ∈ _ by decide) h.tag_not_mem

/-- The walk over a source passes over an expression from where it starts to where it stops. -/
theorem StandsIn.exists_passes {last : Token} (h : StandsIn body n)
    (htokens : tokens source = .ok (body ++ [last])) (hexpression : n.IsExpression) :
    ∃ front middle between rest, Passes 0 source front n.span.start between ∧
      Passes n.span.start between middle n.span.stop rest ∧ Reads middle [n] [] := by
  rcases h with ⟨t, ht, rfl⟩ |
    ⟨before, bracket, opening, within, closing, after, items, rfl, hreads, rfl⟩
  · obtain ⟨hend, hreads⟩ := reads_singleton_of_isExpression hexpression
    obtain ⟨front, back, rfl⟩ := List.append_of_mem ht
    rw [List.append_assoc] at htokens
    obtain ⟨between, rest, hfront, htoken⟩ := exists_passes_of_tokensFrom htokens hend
    exact ⟨front, [t], between, rest, hfront, htoken, hreads⟩
  · have hsource : tokens source = .ok (before ++ ⟨.opening bracket, opening⟩ ::
        (within ++ ⟨.closing bracket, closing⟩ :: (after ++ [last]))) := by
      rw [htokens, List.append_assoc, List.cons_append, List.append_assoc, List.cons_append]
    obtain ⟨between, -, hfront, -⟩ := exists_passes_of_tokensFrom hsource nofun
    -- from the opening bracket on, the walk comes to the closing one
    have hform := hfront.tokensFrom_rest hsource
    rw [← List.cons_append] at hform
    obtain ⟨middle, rest, hinside, hclosing⟩ := exists_passes_of_tokensFrom hform nofun
    refine ⟨before, _, between, rest, hfront, hinside.trans hclosing, ?_⟩
    exact .form bracket opening closing (hreads.append [⟨.closing bracket, closing⟩]) (.done [])

/-! ## The piece by itself -/

/-- What is passed over is a source of its own, with the tokens made on the way moved to its
beginning. -/
theorem exists_coversFrom_of_passes {start stop : Nat} {piece rest : List Char}
    {middle : List Token} (h : Passes start (piece ++ rest) middle stop rest) :
    ∃ moved, CoversFrom 0 piece moved ∧ moved.map (Token.shift start) = middle := by
  obtain ⟨piece', hpiece', hstop, htokens⟩ := h.exists_append
  obtain rfl := List.append_cancel_right hpiece'
  rw [← Nat.add_zero start, tokensFrom_add, ← tokens] at htokens
  rcases hmoved : tokens piece with error | ts
  · rw [hmoved] at htokens
    cases htokens
  · obtain ⟨moved, rfl, hcover⟩ := tokens_eq_ok_iff.mp hmoved
    rw [hmoved] at htokens
    have hsame := Except.ok.inj htokens
    rw [List.map_append, List.map_singleton] at hsame
    exact ⟨moved, hcover, (List.append_inj' hsame rfl).1⟩

/-- **A node's span covers its own source.** The piece of a source that an expression of its tree
covers is a source by itself. Its tree has nothing between the two anchors but that expression, as
much further to the front as the piece was cut out. -/
theorem parse_slice_of_mem_nodes {source file : String} {root n : Node}
    (hroot : Node.parse source file = .ok root) (hn : n ∈ root.nodes)
    (hexpression : n.IsExpression) :
    ∃ piece moved, slice? source.toList n.span = some piece ∧ moved.shift n.span.start = n ∧
      ∀ file', Node.parse (String.ofList piece) file'
        = .ok (program (byteLength piece) [moved]) := by
  obtain ⟨body, items, hcover, -, hreads, rfl⟩ := parse_eq_ok_iff.mp hroot
  have hstands : StandsIn body n := by
    rcases mem_nodes_program_iff.mp hn with rfl | rfl | hn | rfl
    · exact absurd (show ">" ∈ _ by decide) hexpression.tag_not_mem
    · exact absurd (show "regex" ∈ _ by decide) hexpression.tag_not_mem
    · exact hreads.standsIn n hn
    · exact absurd (show "regex" ∈ _ by decide) hexpression.tag_not_mem
  obtain ⟨front, middle, between, rest, hfront, hmiddle, hself⟩ :=
    hstands.exists_passes (tokens_eq_ok_iff.mpr hcover) hexpression
  obtain ⟨before, hsource, hstart, -⟩ := hfront.exists_append
  obtain ⟨piece, rfl, hstop, -⟩ := hmiddle.exists_append
  obtain ⟨moved, hcover', rfl⟩ := exists_coversFrom_of_passes hmiddle
  obtain ⟨items', rest', hreads', hitems, hrest⟩ := hself.of_map_shift
  obtain ⟨shifted, rfl, hshifted⟩ := List.map_eq_singleton_iff.mp hitems.symm
  obtain rfl := List.map_eq_nil_iff.mp hrest.symm
  refine ⟨piece, shifted, ?_, hshifted, fun file' ↦ ?_⟩
  · refine slice?_eq_some_iff.mpr ⟨before, rest, hsource, ?_⟩
    rw [← Nat.zero_add (byteLength before), ← hstart, ← hstop]
  · refine parse_eq_ok_iff.mpr ⟨moved, [shifted], ?_⟩
    rw [String.toList_ofList]
    exact ⟨⟨moved, rfl, hcover'⟩, hcover', hreads', rfl⟩

/-- A form after a comment that has a character of two bytes, with a number that a symbol
touches. -/
theorem parse_slice_of_form_after_comment :
    ∃ root, Node.parse ";é\n(12b)" "a.lspy" = .ok root ∧
      form .paren ⟨4, 5⟩ ⟨8, 9⟩ [leaf "expr|number|regex" "12" ⟨5, 7⟩,
        leaf "expr|symbol|regex" "b" ⟨7, 8⟩] ∈ root.nodes ∧
      ∃ piece moved, slice? ";é\n(12b)".toList ⟨4, 9⟩ = some piece ∧
        moved.shift 4 = form .paren ⟨4, 5⟩ ⟨8, 9⟩ [leaf "expr|number|regex" "12" ⟨5, 7⟩,
          leaf "expr|symbol|regex" "b" ⟨7, 8⟩] ∧
        ∀ file', Node.parse (String.ofList piece) file'
          = .ok (program (byteLength piece) [moved]) := by
  have htokens : tokens ";é\n(12b)".toList = .ok [⟨.atom .comment ";é", ⟨0, 3⟩⟩,
      ⟨.opening .paren, ⟨4, 5⟩⟩, ⟨.atom .number "12", ⟨5, 7⟩⟩, ⟨.atom .symbol "b", ⟨7, 8⟩⟩,
      ⟨.closing .paren, ⟨8, 9⟩⟩, ⟨.endMark, ⟨9, 9⟩⟩] := by
    simp +decide [tokens, tokensFrom, Lexeme.match?, Except.map]
  have hroot := (@ofTokens_eq_ok_iff [⟨.atom .comment ";é", ⟨0, 3⟩⟩, ⟨.opening .paren, ⟨4, 5⟩⟩,
    ⟨.atom .number "12", ⟨5, 7⟩⟩, ⟨.atom .symbol "b", ⟨7, 8⟩⟩, ⟨.closing .paren, ⟨8, 9⟩⟩] []
    ⟨.endMark, ⟨9, 9⟩⟩ rfl (by decide) _).mpr ⟨_, .atom .comment _ _ (.form .paren ⟨4, 5⟩ ⟨8, 9⟩
      (.atom .number "12" ⟨5, 7⟩ (.atom .symbol "b" ⟨7, 8⟩ (.done _))) (.done [])), rfl⟩
  have hparse := @parse_eq_ok_of_ofTokens _ "a.lspy" _ _ htokens hroot
  refine ⟨_, hparse, ?mem, parse_slice_of_mem_nodes hparse ?mem (Or.inr ⟨.paren, rfl⟩)⟩
  rw [mem_nodes_program_iff, List.flatMap_cons, nodes_leaf, List.flatMap_singleton]
  exact Or.inr (Or.inr (Or.inl (List.mem_cons_of_mem _ (mem_nodes_self _))))

end QuoteLisp.Node
