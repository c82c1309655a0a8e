import QuoteLisp.Proofs.Number.Numeral
import QuoteLisp.Proofs.Value.ReadBack

/-!
# The numbers in a source

A node that is tagged as a number is read as the number that its text denotes
(`Value.ofNumberText_eq_number_iff`), and as an error if it denotes none of 64 bits
(`Value.ofNumberText_eq_error_iff`). `Value.Spells` says of the tokens of a source which values they
stand for, without the tree in between: a numeral stands for its number or for that error, and
whether it fits is seen nowhere else.
-/

namespace QuoteLisp

/-- A numeral denotes an integer. -/
theorem IsNumeral.exists_denotes {text : List Char} (h : IsNumeral text) :
    ∃ i, Decimal.Denotes text i := by
  obtain ⟨ds, hne, hds, rfl | rfl⟩ := h
  · exact ⟨_, .unsigned ⟨hne, hds⟩⟩
  · exact ⟨_, .minus ⟨hne, hds⟩⟩

namespace Value

open Node Decimal

variable {text : String} {n : Int64} {v : Value} {tokens rest : List Token}
  {cells cells' : List Value}

/-! ## One number -/

/-- What an integer is read as: the number of 64 bits, or an error when it is out of range. -/
inductive Represents (i : Int) : Value → Prop
  | number (n : Int64) : n.toInt = i → Represents i (number n)
  | invalid : ¬InRange i → Represents i (error "invalid number")

theorem ofNumberText_eq_number_iff :
    ofNumberText text = number n ↔ Denotes text.toList n.toInt := by
  rw [← read?_eq_some_iff, ofNumberText]
  cases read? text.toList with
  | none => constructor <;> intro h <;> cases h
  | some m => simp only [number.injEq, Option.some.injEq]

theorem ofNumberText_eq_error_iff :
    ofNumberText text = error "invalid number" ↔
      ∀ i, Denotes text.toList i → ¬InRange i := by
  rw [← read?_eq_none_iff, ofNumberText]
  cases read? text.toList with
  | none => exact iff_of_true rfl rfl
  | some m => constructor <;> intro h <;> cases h

theorem Represents.unique {i : Int} {v' : Value} (h : Represents i v) (h' : Represents i v') :
    v = v' := by
  cases h with
  | number n hn =>
    cases h' with
    | number n' hn' => rw [Int64.toInt.inj (hn.trans hn'.symm)]
    | invalid hnot => exact absurd (hn ▸ inRange_toInt n) hnot
  | invalid hnot =>
    cases h' with
    | number n' hn' => exact absurd (hn' ▸ inRange_toInt n') hnot
    | invalid => rfl

/-- A numeral is read as what it denotes. -/
theorem represents_ofNumberText {i : Int} (h : Denotes text.toList i) :
    Represents i (ofNumberText text) := by
  by_cases hrange : InRange i
  · have hnumber : ofNumberText text = number (Int64.ofInt i) := by
      rw [ofNumberText_eq_number_iff, toInt_ofInt hrange]
      exact h
    rw [hnumber]
    exact .number _ (toInt_ofInt hrange)
  · rw [ofNumberText_eq_error_iff.mpr fun j hj ↦ hj.unique h ▸ hrange]
    exact .invalid hrange

theorem exists_ofNumberText_eq_number_iff :
    (∃ n, ofNumberText text = number n) ↔ ∃ i, Denotes text.toList i ∧ InRange i := by
  constructor
  · rintro ⟨n, hn⟩
    exact ⟨_, ofNumberText_eq_number_iff.mp hn, inRange_toInt n⟩
  · rintro ⟨i, hi, hrange⟩
    refine ⟨Int64.ofInt i, ofNumberText_eq_number_iff.mpr ?_⟩
    rwa [toInt_ofInt hrange]

theorem ofNode_of_hasRule_number {node : Node} (h : node.hasRule "number" = true) :
    ofNode node = ofNumberText node.contents := by
  cases node
  rw [ofNode]
  exact if_pos h

/-! ## All numbers of a source -/

/-- The tokens begin with the texts of some values, after which the tokens `rest` are left. Comments
stand for nothing. -/
inductive Spells : (tokens : List Token) → (cells : List Value) → (rest : List Token) → Prop
  | done (rest : List Token) : Spells rest [] rest
  | number {tokens rest : List Token} {cells : List Value} {text : String} {i : Int} {v : Value}
      (span : Span) : Denotes text.toList i → Represents i v → Spells tokens cells rest →
      Spells (⟨.atom .number text, span⟩ :: tokens) (v :: cells) rest
  | symbol {tokens rest : List Token} {cells : List Value} (text : String) (span : Span) :
      Spells tokens cells rest →
      Spells (⟨.atom .symbol text, span⟩ :: tokens) (symbol text :: cells) rest
  | string {tokens rest : List Token} {cells : List Value} (text : String) (span : Span) :
      Spells tokens cells rest →
      Spells (⟨.atom .string text, span⟩ :: tokens) (ofStringLiteral text :: cells) rest
  | comment {tokens rest : List Token} {cells : List Value} (text : String) (span : Span) :
      Spells tokens cells rest → Spells (⟨.atom .comment text, span⟩ :: tokens) cells rest
  | form {tokens middle rest : List Token} {inner cells : List Value} (bracket : Bracket)
      (opening closing : Span) : Spells tokens inner (⟨.closing bracket, closing⟩ :: middle) →
      Spells middle cells rest →
      Spells (⟨.opening bracket, opening⟩ :: tokens) (ofForm bracket inner :: cells) rest

theorem spells_of_reads {items : List Node} (h : Reads tokens items rest)
    (hform : ∀ t ∈ tokens, t.lexeme.WellFormed) : Spells tokens (ofNodes items) rest := by
  induction h with
  | done rest => exact .done rest
  | atom kind text span _ ih =>
    obtain ⟨hlexeme, htokens⟩ := List.forall_mem_cons.mp hform
    by_cases hkind : kind = .comment
    · subst hkind
      rw [ofNodes_cons_of_isStructural (isStructural_comment text span)]
      exact .comment text span (ih htokens)
    · rw [ofNodes_cons_atom hlexeme hkind]
      cases kind with
      | number =>
        obtain ⟨i, hi⟩ := IsNumeral.exists_denotes hlexeme
        rw [ofNode_number]
        exact .number span hi (represents_ofNumberText hi) (ih htokens)
      | symbol =>
        rw [ofNode_symbol]
        exact .symbol text span (ih htokens)
      | string =>
        rw [ofNode_string]
        exact .string text span (ih htokens)
      | comment => exact absurd rfl hkind
  | form bracket opening closing hinner _ ihinner ih =>
    obtain ⟨-, htokens⟩ := List.forall_mem_cons.mp hform
    rw [ofNodes_cons_of_not_isStructural (isStructural_form _ _ _ _), ofNode_form]
    exact .form bracket opening closing (ihinner htokens)
      (ih fun t ht ↦ htokens t (hinner.subset (List.mem_cons_of_mem _ ht)))

/-- An atom that is no comment is one more item, and its value is one more cell. -/
theorem exists_reads_cons_atom {kind : AtomKind} {span : Span} (hkind : kind ≠ .comment)
    (hform : ∀ t ∈ ⟨.atom kind text, span⟩ :: tokens, t.lexeme.WellFormed)
    (hitems : (∀ t ∈ tokens, t.lexeme.WellFormed) →
      ∃ items, Reads tokens items rest ∧ ofNodes items = cells) :
    ∃ items, Reads (⟨.atom kind text, span⟩ :: tokens) items rest ∧
      ofNodes items = ofNode (leaf (atomTag kind) text span) :: cells := by
  obtain ⟨hlexeme, htokens⟩ := List.forall_mem_cons.mp hform
  obtain ⟨items, hreads, rfl⟩ := hitems htokens
  exact ⟨_, .atom kind text span hreads, ofNodes_cons_atom hlexeme hkind span items⟩

theorem Spells.exists_reads (h : Spells tokens cells rest)
    (hform : ∀ t ∈ tokens, t.lexeme.WellFormed) :
    ∃ items, Reads tokens items rest ∧ ofNodes items = cells := by
  induction h with
  | done rest => exact ⟨[], .done rest, rfl⟩
  | number span hi hv _ ih =>
    have hitems := exists_reads_cons_atom (by decide) hform ih
    rwa [ofNode_number, (represents_ofNumberText hi).unique hv] at hitems
  | symbol text span _ ih =>
    have hitems := exists_reads_cons_atom (by decide) hform ih
    rwa [ofNode_symbol] at hitems
  | string text span _ ih =>
    have hitems := exists_reads_cons_atom (by decide) hform ih
    rwa [ofNode_string] at hitems
  | comment text span _ ih =>
    obtain ⟨items, hreads, rfl⟩ := ih (List.forall_mem_cons.mp hform).2
    exact ⟨_, .atom .comment text span hreads,
      ofNodes_cons_of_isStructural (isStructural_comment text span) items⟩
  | form bracket opening closing _ _ ihinner ih =>
    obtain ⟨-, htokens⟩ := List.forall_mem_cons.mp hform
    obtain ⟨inner, hinner, rfl⟩ := ihinner htokens
    obtain ⟨items, hreads, rfl⟩ :=
      ih fun t ht ↦ htokens t (hinner.subset (List.mem_cons_of_mem _ ht))
    refine ⟨_, .form bracket opening closing hinner hreads, ?_⟩
    rw [ofNodes_cons_of_not_isStructural (isStructural_form _ _ _ _), ofNode_form]

theorem Spells.unique (h : Spells tokens cells []) (h' : Spells tokens cells' [])
    (hform : ∀ t ∈ tokens, t.lexeme.WellFormed) : cells = cells' := by
  obtain ⟨items, hreads, rfl⟩ := h.exists_reads hform
  obtain ⟨items', hreads', rfl⟩ := h'.exists_reads hform
  rw [(hreads.unique blocked_nil hreads' blocked_nil).1]

/-- **Numbers are read exactly.** A node that is tagged as a number is read as a number exactly if
its text is a numeral for it that is in the range of 64 bits, and else as an error, so that the text
of a number reads back as the number. The value of a source is the list of those cells that its
tokens spell: each numeral spells the number that it denotes, or the error if that is out of range,
and all other cells are the same in either case. -/
theorem number_read_exact :
    (∀ node : Node, node.hasRule "number" = true →
      (∀ n, ofNode node = number n ↔ ∃ i, Denotes node.contents.toList i ∧
        -9223372036854775808 ≤ i ∧ i ≤ 9223372036854775807 ∧ n.toInt = i) ∧
      ((∃ i, Denotes node.contents.toList i ∧
          -9223372036854775808 ≤ i ∧ i ≤ 9223372036854775807) ↔ ∃ n, ofNode node = number n) ∧
      ((¬∃ n, ofNode node = number n) ↔ ofNode node = error "invalid number") ∧
      ∀ n, node.contents = (number n).display → ofNode node = number n) ∧
    ∀ source file root, Node.parse source file = .ok root → ∃ body cells,
      Tokenizes source.toList
        (body ++ [⟨.endMark, ⟨byteLength source.toList, byteLength source.toList⟩⟩]) ∧
      ofNode root = sexpr cells ∧ ∀ cells', Spells body cells' [] ↔ cells' = cells := by
  refine ⟨fun node hrule ↦ ?_, fun source file root hparse ↦ ?_⟩
  · rw [ofNode_of_hasRule_number hrule]
    refine ⟨fun n ↦ ?_, exists_ofNumberText_eq_number_iff.symm, ?_, fun n htext ↦ ?_⟩
    · rw [ofNumberText_eq_number_iff]
      constructor
      · exact fun h ↦ ⟨_, h, (inRange_toInt n).1, (inRange_toInt n).2, rfl⟩
      · rintro ⟨i, hi, -, -, rfl⟩
        exact hi
    · rw [exists_ofNumberText_eq_number_iff, ofNumberText_eq_error_iff]
      exact ⟨fun h i hi hrange ↦ h ⟨i, hi, hrange⟩, fun h ⟨i, hi, hrange⟩ ↦ h i hi hrange⟩
    · have hread : read? node.contents.toList = some n := by
        rw [htext, display, String.toList_ofList]
        exact read?_write n
      exact ofNumberText_eq_number_iff.mpr (read?_eq_some_iff.mp hread)
  · obtain ⟨body, items, htokens, hcover, hreads, rfl⟩ := parse_eq_ok_iff.mp hparse
    have hspells := spells_of_reads hreads hcover.wellFormed
    refine ⟨body, ofNodes items, htokens, ofNode_program _ items, fun cells' ↦ ?_⟩
    constructor
    · exact fun h ↦ h.unique hspells hcover.wellFormed
    · rintro rfl
      exact hspells

/-- The least number may have leading zeros. The number after the greatest does not fit, and in a
source this shows in the place of the numeral only. -/
theorem number_read_exact_at_limits :
    ofNode (leaf "number" "-009223372036854775808" ⟨0, 22⟩) = number Int64.minValue ∧
    ofNode (leaf "number" "+9223372036854775808" ⟨0, 20⟩) = error "invalid number" ∧
    ofNode (leaf "number" (number Int64.minValue).display ⟨0, 20⟩) = number Int64.minValue ∧
    ∃ root, Node.parse "\x7b9223372036854775808 a\x7d" "a.lspy" = .ok root ∧
      ofNode root = sexpr [qexpr [error "invalid number", symbol "a"]] := by
  have hrule (text : String) (span : Span) : (leaf "number" text span).hasRule "number" = true :=
    show mentions "number".toList "number".toList = true by decide
  have hleast : Denotes "-009223372036854775808".toList (-9223372036854775808) :=
    readInt?_eq_some_iff.mp (by decide)
  have hplus : Denotes "+9223372036854775808".toList 9223372036854775808 :=
    readInt?_eq_some_iff.mp (by decide)
  have htoobig : Denotes "9223372036854775808".toList 9223372036854775808 :=
    readInt?_eq_some_iff.mp (by decide)
  obtain ⟨hnode, hsource⟩ := number_read_exact
  obtain ⟨hnumber, -⟩ := hnode _ (hrule "-009223372036854775808" ⟨0, 22⟩)
  obtain ⟨-, hsome, herror, -⟩ := hnode _ (hrule "+9223372036854775808" ⟨0, 20⟩)
  obtain ⟨-, -, -, hwritten⟩ := hnode _ (hrule (number Int64.minValue).display ⟨0, 20⟩)
  refine ⟨(hnumber _).mpr ⟨_, hleast, by decide, by decide, rfl⟩, herror.mp ?_, hwritten _ rfl, ?_⟩
  · rw [← hsome]
    rintro ⟨i, hi, -, hle⟩
    rw [hi.unique hplus] at hle
    exact absurd hle (by decide)
  · let written : List Token := [⟨.opening .brace, ⟨0, 1⟩⟩,
      ⟨.atom .number "9223372036854775808", ⟨1, 20⟩⟩, ⟨.atom .symbol "a", ⟨21, 22⟩⟩,
      ⟨.closing .brace, ⟨22, 23⟩⟩]
    have htokens : tokens "\x7b9223372036854775808 a\x7d".toList
        = .ok (written ++ [⟨.endMark, ⟨23, 23⟩⟩]) := by
      simp +decide [written, tokens, tokensFrom, Lexeme.match?, Except.map]
    have hreads : Reads written _ [] :=
      .form .brace _ _ (.atom .number _ _ (.atom .symbol _ _ (.done _))) (.done [])
    have hroot : Node.parse "\x7b9223372036854775808 a\x7d" "a.lspy" = .ok _ :=
      parse_eq_ok_of_ofTokens htokens
        ((ofTokens_eq_ok_iff rfl hreads.not_endMark).mpr ⟨_, hreads, rfl⟩)
    obtain ⟨body, cells, hbody, hcells, hspells⟩ := hsource _ _ _ hroot
    obtain ⟨rfl, -⟩ := List.append_inj'
      (Except.ok.inj ((tokens_eq_ok_iff.mpr hbody).symm.trans htokens)) rfl
    obtain rfl := (hspells [qexpr [error "invalid number", symbol "a"]]).mp <|
      .form .brace _ _ (.number _ htoobig (.invalid fun hrange ↦ absurd hrange.2 (by decide))
        (.symbol "a" _ (.done _))) (.done [])
    exact ⟨_, hroot, hcells⟩

end Value

end QuoteLisp
