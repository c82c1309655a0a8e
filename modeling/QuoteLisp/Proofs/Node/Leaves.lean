import QuoteLisp.Proofs.Node.Descent

/-!
# The leaves of a tree

A tree has a place for every token it was made from. Its leaves, in preorder, are the tokens before
the end mark, one leaf for each token and in the same order (`Reads.flatMap_leaves`), and every node
between the leaves and the root is a form that stands between two of these tokens, its own brackets
(`Reads.standsIn`). Nothing of this depends on what the spans of the tokens are.

Nodes are listed in the preorder of `Node.preorder`. The depth that comes with each is forgotten, so
that a list of trees has as its nodes those of the trees one after another (`nodes_mk`).
-/

namespace QuoteLisp

/-! ## What becomes of a token -/

/-- The tag of the leaf that a lexeme becomes. An end mark could only become an anchor. -/
def Lexeme.tag : Lexeme → String
  | atom kind _ => Node.atomTag kind
  | opening _ | closing _ => "char"
  | endMark => "regex"

/-- The leaf with the text and the span of a token. -/
def Token.toLeaf (t : Token) : Node :=
  .leaf t.lexeme.tag (String.ofList t.lexeme.chars) t.span

@[simp] theorem Token.span_toLeaf (t : Token) : t.toLeaf.span = t.span := rfl

namespace Node

@[simp] theorem toLeaf_atom (kind : AtomKind) (text : String) (span : Span) :
    Token.toLeaf ⟨.atom kind text, span⟩ = leaf (atomTag kind) text span := by
  rw [Token.toLeaf, Lexeme.chars, String.ofList_toList]
  rfl

/-! ## Nodes and leaves -/

/-- The nodes of a tree in preorder, beginning with the tree itself. -/
def nodes (root : Node) : List Node :=
  (preorder 0 root).map Prod.snd

/-- The leaves of a tree in preorder: the nodes without parts. -/
def leaves (root : Node) : List Node :=
  root.nodes.filter (·.children.isEmpty)

mutual

private theorem map_snd_preorder (depth depth' : Nat) (node : Node) :
    (preorder depth node).map Prod.snd = (preorder depth' node).map Prod.snd := by
  match node with
  | mk tag contents span children =>
    rw [preorder, preorder, List.map_cons, List.map_cons,
      map_snd_preorderAll (depth + 1) (depth' + 1) children]

private theorem map_snd_preorderAll (depth depth' : Nat) (nodes : List Node) :
    (preorderAll depth nodes).map Prod.snd = (preorderAll depth' nodes).map Prod.snd := by
  match nodes with
  | [] => rfl
  | node :: nodes =>
    rw [preorderAll, preorderAll, List.map_append, List.map_append,
      map_snd_preorder depth depth' node, map_snd_preorderAll depth depth' nodes]

end

private theorem map_snd_preorderAll_eq_flatMap (depth : Nat) (trees : List Node) :
    (preorderAll depth trees).map Prod.snd = trees.flatMap nodes := by
  induction trees with
  | nil => rfl
  | cons tree trees ih =>
    rw [preorderAll, List.map_append, ih, List.flatMap_cons, map_snd_preorder depth 0, nodes]

/-- The nodes of a tree are the tree itself and the nodes of its parts. -/
theorem nodes_mk (tag contents : String) (span : Span) (children : List Node) :
    (mk tag contents span children).nodes
      = mk tag contents span children :: children.flatMap nodes := by
  rw [nodes, preorder, List.map_cons, map_snd_preorderAll_eq_flatMap]

@[simp] theorem nodes_leaf (tag contents : String) (span : Span) :
    (leaf tag contents span).nodes = [leaf tag contents span] :=
  nodes_mk tag contents span []

theorem nodes_delimiter (c : Char) (span : Span) :
    (delimiter c span).nodes = [delimiter c span] :=
  nodes_leaf _ _ _

theorem nodes_anchor (offset : Nat) : (anchor offset).nodes = [anchor offset] :=
  nodes_leaf _ _ _

@[simp] theorem leaves_leaf (tag contents : String) (span : Span) :
    (leaf tag contents span).leaves = [leaf tag contents span] := by
  rw [leaves, nodes_leaf]
  rfl

/-- The leaves of a tree that has parts are the leaves of its parts. -/
theorem leaves_mk {children : List Node} (h : children ≠ []) (tag contents : String) (span : Span) :
    (mk tag contents span children).leaves = children.flatMap leaves := by
  have hinner : (mk tag contents span children).children.isEmpty = false :=
    List.isEmpty_eq_false_iff.mpr h
  rw [leaves, nodes_mk, List.filter_cons_of_neg (by rw [hinner]; decide), List.filter_flatMap]
  rfl

/-- A tree whose first and last parts are leaves has those and what is between them. -/
theorem nodes_framed {first last : Node} (hfirst : first.nodes = [first])
    (hlast : last.nodes = [last]) (tag contents : String) (span : Span) (items : List Node) :
    (mk tag contents span (first :: items ++ [last])).nodes
      = mk tag contents span (first :: items ++ [last]) ::
          first :: (items.flatMap nodes ++ [last]) := by
  rw [nodes_mk, List.cons_append, List.flatMap_cons, List.flatMap_append, List.flatMap_singleton,
    hfirst, hlast, List.singleton_append]

theorem leaves_framed {first last : Node} (hfirst : first.leaves = [first])
    (hlast : last.leaves = [last]) (tag contents : String) (span : Span) (items : List Node) :
    (mk tag contents span (first :: items ++ [last])).leaves
      = first :: (items.flatMap leaves ++ [last]) := by
  rw [leaves_mk (by simp), List.cons_append, List.flatMap_cons, List.flatMap_append,
    List.flatMap_singleton, hfirst, hlast, List.singleton_append]

theorem leaves_form (bracket : Bracket) (opening closing : Span) (items : List Node) :
    (form bracket opening closing items).leaves
      = Token.toLeaf ⟨.opening bracket, opening⟩ ::
          (items.flatMap leaves ++ [Token.toLeaf ⟨.closing bracket, closing⟩]) :=
  leaves_framed (leaves_leaf _ _ _) (leaves_leaf _ _ _) _ _ _ items

theorem leaves_program (stop : Nat) (items : List Node) :
    (program stop items).leaves = anchor 0 :: (items.flatMap leaves ++ [anchor stop]) :=
  leaves_framed (leaves_leaf _ _ _) (leaves_leaf _ _ _) _ _ _ items

theorem mem_nodes_form_iff {bracket : Bracket} {opening closing : Span} {items : List Node}
    {n : Node} :
    n ∈ (form bracket opening closing items).nodes ↔
      n = form bracket opening closing items ∨ n = Token.toLeaf ⟨.opening bracket, opening⟩ ∨
        n ∈ items.flatMap nodes ∨ n = Token.toLeaf ⟨.closing bracket, closing⟩ := by
  rw [form, nodes_framed (nodes_delimiter _ _) (nodes_delimiter _ _), List.mem_cons, List.mem_cons,
    List.mem_append, List.mem_singleton]
  rfl

theorem mem_nodes_program_iff {stop : Nat} {items : List Node} {n : Node} :
    n ∈ (program stop items).nodes ↔
      n = program stop items ∨ n = anchor 0 ∨ n ∈ items.flatMap nodes ∨ n = anchor stop := by
  rw [program, nodes_framed (nodes_anchor _) (nodes_anchor _), List.mem_cons, List.mem_cons,
    List.mem_append, List.mem_singleton]

/-! ## The leaves are the tokens -/

variable {tokens rest : List Token} {items : List Node}

/-- The leaves of some items are the tokens that they were read from. -/
theorem Reads.flatMap_leaves (h : Reads tokens items rest) :
    items.flatMap leaves ++ rest.map Token.toLeaf = tokens.map Token.toLeaf := by
  induction h with
  | done => rfl
  | atom kind text span _ ih =>
    rw [List.flatMap_cons, leaves_leaf, List.singleton_append, List.cons_append, ih, List.map_cons,
      toLeaf_atom]
  | form bracket opening closing _ _ ihinner ih =>
    rw [List.map_cons] at ihinner
    rw [List.flatMap_cons, leaves_form, List.map_cons, ← ihinner, ← ih]
    simp only [List.cons_append, List.append_assoc, List.nil_append]

/-! ## Forms stand between their brackets -/

/-- The node is a form whose brackets are two of the tokens and whose parts were read from the
tokens between these. -/
def IsBracketed (tokens : List Token) (n : Node) : Prop :=
  ∃ before bracket opening within closing after items,
    tokens = before ++ ⟨.opening bracket, opening⟩ ::
      (within ++ ⟨.closing bracket, closing⟩ :: after)
      ∧ Reads within items [] ∧ n = form bracket opening closing items

/-- The node is the leaf of one of the tokens, or a form that stands between two of them. -/
def StandsIn (tokens : List Token) (n : Node) : Prop :=
  (∃ t ∈ tokens, n = t.toLeaf) ∨ IsBracketed tokens n

theorem IsBracketed.append {n : Node} (h : IsBracketed tokens n) (front back : List Token) :
    IsBracketed (front ++ (tokens ++ back)) n := by
  obtain ⟨before, bracket, opening, within, closing, after, items, rfl, hreads, rfl⟩ := h
  refine ⟨front ++ before, bracket, opening, within, closing, after ++ back, items, ?_, hreads, rfl⟩
  simp only [List.append_assoc, List.cons_append]

theorem StandsIn.append {n : Node} (h : StandsIn tokens n) (front back : List Token) :
    StandsIn (front ++ (tokens ++ back)) n := by
  rcases h with ⟨t, ht, rfl⟩ | h
  · exact Or.inl ⟨t, List.mem_append_right _ (List.mem_append_left _ ht), rfl⟩
  · exact Or.inr (h.append front back)

/-- What stands in the tail of a list stands in the list. -/
theorem StandsIn.cons {n : Node} (h : StandsIn tokens n) (t : Token) :
    StandsIn (t :: tokens) n := by
  have happend := h.append [t] []
  rwa [List.append_nil] at happend

/-- Every node of some items is the leaf of a token that they were read from, or a form between two
of these tokens. -/
theorem Reads.standsIn (h : Reads tokens items rest) :
    ∀ n ∈ items.flatMap nodes, StandsIn tokens n := by
  induction h with
  | done => exact fun _ hn ↦ absurd hn List.not_mem_nil
  | atom kind text span _ ih =>
    intro n hn
    rw [List.flatMap_cons, nodes_leaf, List.singleton_append] at hn
    rcases List.mem_cons.mp hn with rfl | hn
    · exact Or.inl ⟨_, List.mem_cons_self, (toLeaf_atom kind text span).symm⟩
    · exact (ih n hn).cons _
  | @form tokens middle rest inner items bracket opening closing hinner _ ihinner ih =>
    obtain ⟨within, rfl, -, hother⟩ := hinner.exists_append
    have hwithin := hother []
    rw [List.append_nil] at hwithin
    intro n hn
    rw [List.flatMap_cons, List.mem_append, mem_nodes_form_iff] at hn
    rcases hn with (rfl | rfl | hn | rfl) | hn
    · exact Or.inr ⟨[], bracket, opening, within, closing, middle, inner, rfl, hwithin, rfl⟩
    · exact Or.inl ⟨_, List.mem_cons_self, rfl⟩
    · exact (ihinner n hn).cons _
    · exact Or.inl ⟨_, List.mem_cons_of_mem _ (List.mem_append_right _ List.mem_cons_self), rfl⟩
    · have happend := (ih n hn).append (within ++ [⟨.closing bracket, closing⟩]) []
      rw [List.append_nil, List.append_assoc] at happend
      exact happend.cons _

end Node

end QuoteLisp
