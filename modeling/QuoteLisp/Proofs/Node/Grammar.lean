import QuoteLisp.Node.Basic

/-!
# The grammar of programs

A program is a sequence of items, and an item is an atom or a sequence of items between brackets of
one kind. `Node.Reads` is this grammar. It says what a sequence of items is and which tokens follow
it, and nothing of how it is found.

A sequence may end anywhere, so that there are several ways to read some tokens. There is one way at
most to read them up to a place where no item begins (`Node.Reads.unique`), and that is where
readers stop.
-/

namespace QuoteLisp.Node

/-- The tokens begin with a sequence of items, after which the tokens `rest` are left. -/
inductive Reads : (tokens : List Token) → (items : List Node) → (rest : List Token) → Prop
  | done (rest : List Token) : Reads rest [] rest
  | atom {tokens rest : List Token} {items : List Node} (kind : AtomKind) (text : String)
      (span : Span) : Reads tokens items rest →
      Reads (⟨.atom kind text, span⟩ :: tokens) (leaf (atomTag kind) text span :: items) rest
  | form {tokens middle rest : List Token} {inner items : List Node} (bracket : Bracket)
      (opening closing : Span) : Reads tokens inner (⟨.closing bracket, closing⟩ :: middle) →
      Reads middle items rest →
      Reads (⟨.opening bracket, opening⟩ :: tokens) (form bracket opening closing inner :: items)
        rest

variable {tokens rest : List Token} {items : List Node}

/-- What is left over has no part in reading: a sequence is read from some tokens, none of which is
an end mark, and from the same tokens whatever follows them. -/
theorem Reads.exists_append (h : Reads tokens items rest) :
    ∃ read, tokens = read ++ rest ∧ (∀ t ∈ read, t.lexeme ≠ .endMark) ∧
      ∀ other, Reads (read ++ other) items other := by
  induction h with
  | done rest => exact ⟨[], rfl, by simp, .done⟩
  | atom kind text span _ ih =>
    obtain ⟨read, rfl, hread, hother⟩ := ih
    exact ⟨_ :: read, rfl, List.forall_mem_cons.mpr ⟨by simp, hread⟩,
      fun other ↦ .atom kind text span (hother other)⟩
  | form bracket opening closing _ _ ihinner ih =>
    obtain ⟨within, rfl, hwithin, hinner⟩ := ihinner
    obtain ⟨read, rfl, hread, hother⟩ := ih
    refine ⟨⟨.opening bracket, opening⟩ :: (within ++ ⟨.closing bracket, closing⟩ :: read), by simp,
      ?_, fun other ↦ ?_⟩
    · refine List.forall_mem_cons.mpr ⟨by simp, List.forall_mem_append.mpr ⟨hwithin, ?_⟩⟩
      exact List.forall_mem_cons.mpr ⟨by simp, hread⟩
    · rw [List.cons_append, List.append_assoc, List.cons_append]
      exact .form bracket opening closing (hinner _) (hother other)

/-- A whole list of tokens is read in the same way when others follow it. -/
theorem Reads.append (h : Reads tokens items []) (other : List Token) :
    Reads (tokens ++ other) items other := by
  obtain ⟨read, rfl, -, hother⟩ := h.exists_append
  rw [List.append_nil]
  exact hother other

theorem Reads.not_endMark (h : Reads tokens items []) : ∀ t ∈ tokens, t.lexeme ≠ .endMark := by
  obtain ⟨read, rfl, hread, -⟩ := h.exists_append
  rwa [List.append_nil]

/-- Whatever is left over was there before. -/
theorem Reads.subset (h : Reads tokens items rest) : rest ⊆ tokens := by
  obtain ⟨read, rfl, -, -⟩ := h.exists_append
  exact List.subset_append_right read rest

/-- Two sequences one after the other are a sequence. -/
theorem Reads.trans {middle : List Token} {items' : List Node} (h : Reads tokens items middle)
    (h' : Reads middle items' rest) : Reads tokens (items ++ items') rest := by
  induction h with
  | done => exact h'
  | atom kind text span _ ih => exact .atom kind text span (ih h')
  | form bracket opening closing hinner _ _ ih => exact .form bracket opening closing hinner (ih h')

/-! ## Reading as far as possible -/

/-- No item begins with the first of the tokens. -/
def Blocked (tokens : List Token) : Prop :=
  ∀ items rest, Reads tokens items rest → items = [] ∧ rest = tokens

theorem blocked_nil : Blocked [] := by
  intro items rest h
  cases h
  exact ⟨rfl, rfl⟩

theorem blocked_closing (bracket : Bracket) (span : Span) (tokens : List Token) :
    Blocked (⟨.closing bracket, span⟩ :: tokens) := by
  intro items rest h
  cases h
  exact ⟨rfl, rfl⟩

/-- Some tokens are read in one way up to a place where no item begins. -/
theorem Reads.unique {items' : List Node} {rest' : List Token} (h : Reads tokens items rest)
    (hrest : Blocked rest) (h' : Reads tokens items' rest') (hrest' : Blocked rest') :
    items = items' ∧ rest = rest' := by
  induction h generalizing items' rest' with
  | done rest =>
    obtain ⟨rfl, rfl⟩ := hrest _ _ h'
    exact ⟨rfl, rfl⟩
  | atom kind text span h ih =>
    cases h' with
    | done => exact absurd (hrest' _ _ (h.atom kind text span)).1 (List.cons_ne_nil _ _)
    | atom _ _ _ h' =>
      obtain ⟨rfl, rfl⟩ := ih hrest h' hrest'
      exact ⟨rfl, rfl⟩
  | form bracket opening closing hinner h ihinner ih =>
    cases h' with
    | done =>
      exact absurd (hrest' _ _ (hinner.form bracket opening closing h)).1 (List.cons_ne_nil _ _)
    | form _ _ _ hinner' h' =>
      -- the inner sequences end at the same bracket, so the outer ones go on from the same place
      obtain ⟨rfl, heq⟩ := ihinner (blocked_closing _ _ _) hinner' (blocked_closing _ _ _)
      obtain ⟨heq, rfl⟩ := List.cons.inj heq
      cases heq
      obtain ⟨rfl, rfl⟩ := ih hrest h' hrest'
      exact ⟨rfl, rfl⟩

end QuoteLisp.Node
