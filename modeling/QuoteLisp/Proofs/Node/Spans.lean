import QuoteLisp.Proofs.Node.Leaves
import QuoteLisp.Proofs.Node.Parse

/-!
# Trees and their tokens

Making a tree loses no token, doubles none and moves none: the leaves are the tokens before the end
mark, between two anchors. What comes after the end mark decides where the tree ends and nothing
else. This holds for any list of tokens, whatever their spans are.

When the tokens are those of a source, the spans are in order, and then the spans of the tree are
nested: a node covers its parts, and these lie one after another. The reason is that a node starts
where one of its tokens starts and stops where one stops (`StandsIn.exists_ends`).
-/

namespace QuoteLisp

/-- The spans of the tokens take some room each, and lie one after another. -/
structure InOrder (tokens : List Token) : Prop where
  pairwise : tokens.Pairwise fun t u ↦ t.span.stop ≤ u.span.start
  start_lt_stop : ∀ t ∈ tokens, t.span.start < t.span.stop

theorem CoversFrom.inOrder {start : Nat} {source : List Char} {tokens : List Token}
    (h : CoversFrom start source tokens) : InOrder tokens :=
  ⟨h.pairwise, h.start_lt_stop⟩

theorem InOrder.of_cons {t : Token} {tokens : List Token} (h : InOrder (t :: tokens)) :
    InOrder tokens ∧ ∀ u ∈ tokens, t.span.stop ≤ u.span.start := by
  obtain ⟨hfirst, hpairwise⟩ := List.pairwise_cons.mp h.pairwise
  exact ⟨⟨hpairwise, (List.forall_mem_cons.mp h.start_lt_stop).2⟩, hfirst⟩

theorem InOrder.of_append {tokens tokens' : List Token} (h : InOrder (tokens ++ tokens')) :
    InOrder tokens ∧ InOrder tokens' ∧
      ∀ t ∈ tokens, ∀ u ∈ tokens', t.span.stop ≤ u.span.start := by
  obtain ⟨hleft, hright, hboth⟩ := List.pairwise_append.mp h.pairwise
  obtain ⟨hleft', hright'⟩ := List.forall_mem_append.mp h.start_lt_stop
  exact ⟨⟨hleft, hleft'⟩, ⟨hright, hright'⟩, hboth⟩

namespace Node

/-! ## Nested spans -/

/-- The parts of a node lie within it, one after another. Only anchors take no room. -/
structure SpansNest (n : Node) : Prop where
  start_le_stop : n.span.start ≤ n.span.stop
  within : ∀ c ∈ n.children, n.span.start ≤ c.span.start ∧ c.span.stop ≤ n.span.stop
  pairwise : n.children.Pairwise fun c d ↦ c.span.stop ≤ d.span.start
  start_lt_stop : ∀ c ∈ n.children, c.tag ≠ "regex" → c.span.start < c.span.stop

theorem spansNest_leaf (tag contents : String) {span : Span} (h : span.start ≤ span.stop) :
    (leaf tag contents span).SpansNest :=
  ⟨h, fun _ hc ↦ absurd hc List.not_mem_nil, .nil, fun _ hc ↦ absurd hc List.not_mem_nil⟩

/-- A part with a span of its own: one that is not reversed, and takes some room unless the part is
an anchor. -/
def IsPlaced (n : Node) : Prop :=
  n.span.start ≤ n.span.stop ∧ (n.tag ≠ "regex" → n.span.start < n.span.stop)

theorem isPlaced_of_lt {n : Node} (h : n.span.start < n.span.stop) : n.IsPlaced :=
  ⟨h.le, fun _ ↦ h⟩

theorem isPlaced_anchor (offset : Nat) : (anchor offset).IsPlaced :=
  ⟨le_rfl, fun h ↦ absurd rfl h⟩

/-- Parts that lie one after another between a first and a last one nest in the span from the
beginning of the first to the end of the last. -/
theorem spansNest_framed {first last : Node} {items : List Node} (hfirst : first.IsPlaced)
    (hlast : last.IsPlaced) (hends : first.span.stop ≤ last.span.start)
    (hitems : ∀ c ∈ items, first.span.stop ≤ c.span.start ∧ c.span.start < c.span.stop ∧
      c.span.stop ≤ last.span.start)
    (hpairwise : items.Pairwise fun c d ↦ c.span.stop ≤ d.span.start) (tag contents : String) :
    (mk tag contents ⟨first.span.start, last.span.stop⟩ (first :: items ++ [last])).SpansNest := by
  obtain ⟨hfirst, hfirst'⟩ := hfirst
  obtain ⟨hlast, hlast'⟩ := hlast
  constructor
  · exact hfirst.trans (hends.trans hlast)
  · intro c hc
    dsimp only [span]
    rcases List.mem_append.mp hc with hc | hc
    · rcases List.mem_cons.mp hc with rfl | hc
      · exact ⟨le_rfl, hends.trans hlast⟩
      · obtain ⟨hstart, -, hstop⟩ := hitems c hc
        exact ⟨hfirst.trans hstart, hstop.trans hlast⟩
    · obtain rfl := List.mem_singleton.mp hc
      exact ⟨hfirst.trans hends, le_rfl⟩
  · refine List.pairwise_append.mpr ⟨List.pairwise_cons.mpr ⟨fun c hc ↦ (hitems c hc).1, hpairwise⟩,
      List.pairwise_singleton _ _, fun c hc d hd ↦ ?_⟩
    obtain rfl := List.mem_singleton.mp hd
    rcases List.mem_cons.mp hc with rfl | hc
    · exact hends
    · exact (hitems c hc).2.2
  · intro c hc hanchor
    rcases List.mem_append.mp hc with hc | hc
    · rcases List.mem_cons.mp hc with rfl | hc
      · exact hfirst' hanchor
      · exact (hitems c hc).2.1
    · obtain rfl := List.mem_singleton.mp hc
      exact hlast' hanchor

/-! ## Nodes start and stop with tokens -/

variable {tokens rest : List Token} {items : List Node} {n : Node}

theorem StandsIn.exists_ends (h : StandsIn tokens n) :
    (∃ t ∈ tokens, n.span.start = t.span.start) ∧ ∃ t ∈ tokens, n.span.stop = t.span.stop := by
  rcases h with ⟨t, ht, rfl⟩ |
    ⟨before, bracket, opening, within, closing, after, items, rfl, -, rfl⟩
  · exact ⟨⟨t, ht, rfl⟩, t, ht, rfl⟩
  · refine ⟨⟨⟨.opening bracket, opening⟩, ?_, rfl⟩, ⟨.closing bracket, closing⟩, ?_, rfl⟩
    · simp
    · simp

theorem StandsIn.start_lt_stop (h : StandsIn tokens n) (horder : InOrder tokens) :
    n.span.start < n.span.stop := by
  rcases h with ⟨t, ht, rfl⟩ |
    ⟨before, bracket, opening, within, closing, after, items, rfl, -, rfl⟩
  · exact horder.start_lt_stop t ht
  · have hopening := horder.start_lt_stop ⟨.opening bracket, opening⟩ (by simp)
    have hclosing := horder.start_lt_stop ⟨.closing bracket, closing⟩ (by simp)
    obtain ⟨hfirst, -⟩ := List.pairwise_cons.mp (List.pairwise_append.mp horder.pairwise).2.1
    have hends := hfirst ⟨.closing bracket, closing⟩ (by simp)
    exact hopening.trans (hends.trans_lt hclosing)

theorem mem_nodes_self (n : Node) : n ∈ n.nodes := by
  obtain ⟨tag, contents, span, children⟩ := n
  rw [nodes_mk]
  exact List.mem_cons_self

/-- Items stand in the tokens that they were read from. -/
theorem Reads.standsIn_of_mem (h : Reads tokens items rest) (hn : n ∈ items) : StandsIn tokens n :=
  h.standsIn n (List.mem_flatMap.mpr ⟨n, hn, mem_nodes_self n⟩)

/-- An item that stops where a token does lies before the items read after that token. -/
private theorem pairwise_cons_of_reads {c : Node} {t : Token} (h : Reads tokens items rest)
    (hstop : c.span.stop = t.span.stop) (hbefore : ∀ u ∈ tokens, t.span.stop ≤ u.span.start)
    (hitems : items.Pairwise fun c d ↦ c.span.stop ≤ d.span.start) :
    (c :: items).Pairwise fun c d ↦ c.span.stop ≤ d.span.start := by
  refine List.pairwise_cons.mpr ⟨fun d hd ↦ ?_, hitems⟩
  obtain ⟨⟨u, hu, hstart⟩, -⟩ := (h.standsIn_of_mem hd).exists_ends
  rw [hstop, hstart]
  exact hbefore u hu

/-- Items lie one after another if the tokens do. -/
theorem Reads.pairwise (h : Reads tokens items rest) (horder : InOrder tokens) :
    items.Pairwise fun c d ↦ c.span.stop ≤ d.span.start := by
  induction h with
  | done => exact .nil
  | atom kind text span hreads ih =>
    obtain ⟨htail, hbefore⟩ := horder.of_cons
    exact pairwise_cons_of_reads hreads rfl hbefore (ih htail)
  | form bracket opening closing hinner hreads _ ih =>
    -- the form stops at its closing bracket, and the items after it are read from there on
    obtain ⟨within, rfl, -, -⟩ := hinner.exists_append
    obtain ⟨-, hclosing, -⟩ := horder.of_cons.1.of_append
    obtain ⟨htail, hbefore⟩ := hclosing.of_cons
    exact pairwise_cons_of_reads hreads rfl hbefore (ih htail)

/-- Items lie where the tokens do that they were read from. -/
theorem Reads.within (h : Reads tokens items rest) (horder : InOrder tokens) {start stop : Nat}
    (htokens : ∀ t ∈ tokens, start ≤ t.span.start ∧ t.span.stop ≤ stop) :
    ∀ c ∈ items, start ≤ c.span.start ∧ c.span.start < c.span.stop ∧ c.span.stop ≤ stop := by
  intro c hc
  have hstands := h.standsIn_of_mem hc
  obtain ⟨⟨t, ht, hstart⟩, u, hu, hstop⟩ := hstands.exists_ends
  exact ⟨hstart ▸ (htokens t ht).1, hstands.start_lt_stop horder, hstop ▸ (htokens u hu).2⟩

/-- Whatever stands in tokens that are in order has its spans nested. -/
theorem StandsIn.spansNest (h : StandsIn tokens n) (horder : InOrder tokens) : n.SpansNest := by
  rcases h with ⟨t, ht, rfl⟩ |
    ⟨before, bracket, opening, within, closing, after, items, rfl, hreads, rfl⟩
  · exact spansNest_leaf _ _ (horder.start_lt_stop t ht).le
  · obtain ⟨-, hform, -⟩ := horder.of_append
    obtain ⟨hinside, hopening⟩ := hform.of_cons
    obtain ⟨hwithin, -, hclosing⟩ := hinside.of_append
    have hbetween : ∀ t ∈ within, opening.stop ≤ t.span.start ∧ t.span.stop ≤ closing.start :=
      fun t ht ↦ ⟨hopening t (List.mem_append_left _ ht), hclosing t ht _ List.mem_cons_self⟩
    have hends : opening.stop ≤ closing.start :=
      hopening ⟨.closing bracket, closing⟩ (List.mem_append_right _ List.mem_cons_self)
    have hfirst : (delimiter bracket.opener opening).IsPlaced :=
      isPlaced_of_lt (hform.start_lt_stop _ List.mem_cons_self)
    have hlast : (delimiter bracket.closer closing).IsPlaced :=
      isPlaced_of_lt (hinside.start_lt_stop _ (List.mem_append_right _ List.mem_cons_self))
    exact spansNest_framed hfirst hlast hends (hreads.within hwithin hbetween)
      (hreads.pairwise hwithin) _ _

/-! ## Trees of sources -/

/-- A tree has no leaf but the anchors and the leaves of the tokens. -/
theorem StandsIn.exists_toLeaf (h : StandsIn tokens n) (hleaf : n.children = []) :
    ∃ t ∈ tokens, n = t.toLeaf := by
  rcases h with h | ⟨before, bracket, opening, within, closing, after, items, -, -, rfl⟩
  · exact h
  · exact absurd hleaf (List.cons_ne_nil _ _)

/-- Where a leaf stands in the source, its text is written. -/
theorem slice?_of_mem_nodes_program {source : List Char} {body : List Token}
    (hcover : CoversFrom 0 source body) (hreads : Reads body items [])
    (hn : n ∈ (program (byteLength source) items).nodes) (hleaf : n.children = []) :
    slice? source n.span = some n.contents.toList := by
  rcases mem_nodes_program_iff.mp hn with rfl | rfl | hn | rfl
  · exact absurd hleaf (List.cons_ne_nil _ _)
  · exact slice?_eq_some_iff.mpr ⟨[], source, rfl, rfl⟩
  · obtain ⟨t, ht, rfl⟩ := (hreads.standsIn n hn).exists_toLeaf hleaf
    rw [Token.span_toLeaf, hcover.slice t ht]
    exact congrArg some (String.toList_ofList).symm
  · exact slice?_eq_some_iff.mpr ⟨source, [], (List.append_nil source).symm, rfl⟩

theorem spansNest_of_mem_nodes_program {source : List Char} {body : List Token}
    (hcover : CoversFrom 0 source body) (hreads : Reads body items [])
    (hn : n ∈ (program (byteLength source) items).nodes) : n.SpansNest := by
  have hbetween : ∀ t ∈ body, 0 ≤ t.span.start ∧ t.span.stop ≤ byteLength source := by
    intro t ht
    obtain ⟨before, after, rfl, -, hspan⟩ := hcover.exists_append ht
    rw [hspan, byteLength_append, byteLength_append]
    exact ⟨Nat.zero_le _, Nat.add_le_add_left (Nat.le_add_right _ _) _⟩
  rcases mem_nodes_program_iff.mp hn with rfl | rfl | hn | rfl
  · exact spansNest_framed (isPlaced_anchor 0) (isPlaced_anchor _) (Nat.zero_le _)
      (hreads.within hcover.inOrder hbetween) (hreads.pairwise hcover.inOrder) _ _
  · exact spansNest_leaf _ _ le_rfl
  · exact (hreads.standsIn n hn).spansNest hcover.inOrder
  · exact spansNest_leaf _ _ le_rfl

/-- **No token is lost, doubled or moved, and spans nest.** Let some tokens have a tree, and let
`inner` be those before the first end mark. The leaves of the tree are the leaves of these tokens,
in order, between two anchors, and every other node below the root is a form that stands between two
of the tokens, its own brackets. Other tokens from the end mark on would make the same tree, but for
the offset at which it ends. In the tree of a source, every leaf is written where its span says, and
the spans are nested up to that of the root, which covers the source. -/
theorem leaves_of_ofTokens_and_spansNest_of_parse :
    (∀ (inner : List Token) (endToken : Token) (after : List Token) (root : Node),
      endToken.lexeme = .endMark → (∀ t ∈ inner, t.lexeme ≠ .endMark) →
      ofTokens (inner ++ endToken :: after) = .ok root →
        root.leaves = anchor 0 :: (inner.map Token.toLeaf ++ [anchor root.span.stop]) ∧
          (∀ n ∈ root.nodes, n = root ∨ n.children = [] ∨ IsBracketed inner n) ∧
          ∃ items, root =
              program ((endToken :: after).getLast (List.cons_ne_nil _ _)).span.stop items ∧
            ∀ (endToken' : Token) (after' : List Token), endToken'.lexeme = .endMark →
              ofTokens (inner ++ endToken' :: after') = .ok (program
                ((endToken' :: after').getLast (List.cons_ne_nil _ _)).span.stop items)) ∧
      ∀ (source file : String) (root : Node), Node.parse source file = .ok root →
        root.span = ⟨0, byteLength source.toList⟩ ∧ ∀ n ∈ root.nodes, n.SpansNest ∧
          (n.children = [] → slice? source.toList n.span = some n.contents.toList) := by
  refine ⟨fun inner endToken after root hend hinner hroot ↦ ?_, fun source file root hroot ↦ ?_⟩
  · obtain ⟨items, hreads, rfl⟩ := (ofTokens_eq_ok_iff hend hinner).mp hroot
    have hleaves := hreads.flatMap_leaves
    rw [List.map_nil, List.append_nil] at hleaves
    refine ⟨?_, fun n hn ↦ ?_, items, rfl, fun endToken' after' hend' ↦ ?_⟩
    · rw [leaves_program, hleaves]
      rfl
    · rcases mem_nodes_program_iff.mp hn with rfl | rfl | hn | rfl
      · exact Or.inl rfl
      · exact Or.inr (Or.inl rfl)
      · rcases hreads.standsIn n hn with ⟨t, -, rfl⟩ | hform
        · exact Or.inr (Or.inl rfl)
        · exact Or.inr (Or.inr hform)
      · exact Or.inr (Or.inl rfl)
    · exact (ofTokens_eq_ok_iff hend' hinner).mpr ⟨items, hreads, rfl⟩
  · obtain ⟨body, items, -, hcover, hreads, rfl⟩ := parse_eq_ok_iff.mp hroot
    refine ⟨rfl, fun n hn ↦ ⟨spansNest_of_mem_nodes_program hcover hreads hn, ?_⟩⟩
    exact slice?_of_mem_nodes_program hcover hreads hn

/-- A form whose spans make no sense, with a token after the end mark, and one in a source that has
a character of two bytes. -/
theorem leaves_and_spans_of_two_forms :
    (∃ root, ofTokens [⟨.opening .brace, ⟨5, 2⟩⟩, ⟨.atom .number "7", ⟨1, 1⟩⟩,
        ⟨.closing .brace, ⟨0, 3⟩⟩, ⟨.endMark, ⟨4, 4⟩⟩, ⟨.closing .paren, ⟨8, 9⟩⟩] = .ok root ∧
      root.leaves = [anchor 0, delimiter '\x7b' ⟨5, 2⟩, leaf "expr|number|regex" "7" ⟨1, 1⟩,
        delimiter '\x7d' ⟨0, 3⟩, anchor 9]) ∧
      ∃ root, Node.parse "(;é\n)" "a.lspy" = .ok root ∧ root.span = ⟨0, 6⟩ ∧
        ∀ n ∈ root.nodes, n.SpansNest := by
  have hform : ofTokens [⟨.opening .brace, ⟨5, 2⟩⟩, ⟨.atom .number "7", ⟨1, 1⟩⟩,
      ⟨.closing .brace, ⟨0, 3⟩⟩, ⟨.endMark, ⟨4, 4⟩⟩, ⟨.closing .paren, ⟨8, 9⟩⟩] = .ok _ :=
    (@ofTokens_eq_ok_iff [⟨.opening .brace, ⟨5, 2⟩⟩, ⟨.atom .number "7", ⟨1, 1⟩⟩,
      ⟨.closing .brace, ⟨0, 3⟩⟩] [⟨.closing .paren, ⟨8, 9⟩⟩] ⟨.endMark, ⟨4, 4⟩⟩ rfl (by decide)
      _).mpr
        ⟨_, .form .brace ⟨5, 2⟩ ⟨0, 3⟩ (.atom .number "7" ⟨1, 1⟩ (.done _)) (.done []), rfl⟩
  have htokens : tokens "(;é\n)".toList = .ok [⟨.opening .paren, ⟨0, 1⟩⟩,
      ⟨.atom .comment ";é", ⟨1, 4⟩⟩, ⟨.closing .paren, ⟨5, 6⟩⟩, ⟨.endMark, ⟨6, 6⟩⟩] := by
    simp +decide [tokens, tokensFrom, Lexeme.match?, Except.map]
  have hsource := (@ofTokens_eq_ok_iff [⟨.opening .paren, ⟨0, 1⟩⟩,
    ⟨.atom .comment ";é", ⟨1, 4⟩⟩, ⟨.closing .paren, ⟨5, 6⟩⟩] [] ⟨.endMark, ⟨6, 6⟩⟩ rfl (by decide)
      _).mpr ⟨_, .form .paren ⟨0, 1⟩ ⟨5, 6⟩ (.atom .comment _ _ (.done _)) (.done []), rfl⟩
  have hparse := @parse_eq_ok_of_ofTokens _ "a.lspy" _ _ htokens hsource
  obtain ⟨hleaves, hspans⟩ := leaves_of_ofTokens_and_spansNest_of_parse
  obtain ⟨hroot, hnest⟩ := hspans _ _ _ hparse
  refine ⟨⟨_, hform, ?_⟩, _, hparse, hroot, fun n hn ↦ (hnest n hn).1⟩
  exact (hleaves [⟨.opening .brace, ⟨5, 2⟩⟩, ⟨.atom .number "7", ⟨1, 1⟩⟩,
    ⟨.closing .brace, ⟨0, 3⟩⟩] ⟨.endMark, ⟨4, 4⟩⟩ [⟨.closing .paren, ⟨8, 9⟩⟩] _ rfl (by decide)
    hform).1

end Node

end QuoteLisp
