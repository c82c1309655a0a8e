import QuoteLisp.Proofs.Value.Normal
import QuoteLisp.Proofs.Value.Numbers

/-!
# Values without errors

An error stands for the absence of a value. There is one way for it to get into a value all the
same: a numeral that does not fit in 64 bits is read as an error, and in braces it is never looked
at. Nothing that is read from a source whose numerals fit has an error in it
(`Value.errorFree_of_parse`).

A closure shares with its parts that no error occurs in it, but properties that evaluation keeps
also ask that a closure has bound settled values only. So what is carried through a run is both
together (`Value.Faultless`).
-/

namespace QuoteLisp

namespace Value

variable {v : Value}

/-! ## Errors and parts -/

theorem errorFree_of_isLeaf (h : v.IsLeaf) (herror : v.isError = false) : v.ErrorFree := by
  intro message hocc
  cases v with
  | sexpr | qexpr | closure => exact h.elim
  | error => cases herror
  | _ => cases hocc

theorem errorFree_sexpr_iff {cells : List Value} :
    (sexpr cells).ErrorFree ↔ ∀ v ∈ cells, v.ErrorFree := by
  refine ⟨fun h v hv ↦ h.of_occurs (.sexpr hv .here), fun h message hocc ↦ ?_⟩
  obtain heq | ⟨v, hv, hocc⟩ := occurs_sexpr_iff.mp hocc
  · cases heq
  · exact h v hv message hocc

theorem errorFree_qexpr_iff {cells : List Value} :
    (qexpr cells).ErrorFree ↔ ∀ v ∈ cells, v.ErrorFree := by
  refine ⟨fun h v hv ↦ h.of_occurs (.qexpr hv .here), fun h message hocc ↦ ?_⟩
  obtain heq | ⟨v, hv, hocc⟩ := occurs_qexpr_iff.mp hocc
  · cases heq
  · exact h v hv message hocc

theorem errorFree_closure_iff {formals : List String} {body : List Value}
    {bound : List (String × Value)} :
    (closure formals body bound).ErrorFree ↔
      (∀ v ∈ body, v.ErrorFree) ∧ ∀ entry ∈ bound, entry.2.ErrorFree := by
  constructor
  · intro h
    exact ⟨fun v hv ↦ h.of_occurs (.body hv .here),
      fun entry hentry ↦ h.of_occurs (.bound hentry .here)⟩
  · rintro ⟨hbody, hbound⟩ message hocc
    obtain heq | ⟨v, hv, hocc⟩ | ⟨entry, hentry, hocc⟩ := occurs_closure_iff.mp hocc
    · cases heq
    · exact hbody v hv message hocc
    · exact hbound entry hentry message hocc

/-! ## Faultless values -/

/-- No error occurs in the value, and every closure in it has bound settled values only. -/
structure Faultless (v : Value) : Prop where
  bindsSettled : v.BindsSettled
  errorFree : v.ErrorFree

theorem faultless_iff : v.Faultless ↔ v.BindsSettled ∧ v.ErrorFree :=
  ⟨fun h ↦ ⟨h.bindsSettled, h.errorFree⟩, fun h ↦ ⟨h.1, h.2⟩⟩

theorem faultless_of_isLeaf (h : v.IsLeaf) (herror : v.isError = false) : v.Faultless :=
  ⟨bindsSettled_of_isLeaf h, errorFree_of_isLeaf h herror⟩

theorem faultless_closure_iff {formals : List String} {body : List Value}
    {bound : List (String × Value)} :
    (closure formals body bound).Faultless ↔ (∀ name ∈ formals, (symbol name).Faultless) ∧
      (∀ v ∈ body, v.Faultless) ∧ ∀ entry ∈ bound, Binds Faultless entry := by
  have hsymbol (name : String) : (symbol name).Faultless := faultless_of_isLeaf trivial rfl
  constructor
  · rintro ⟨hsettled, herror⟩
    obtain ⟨hbody, hbound⟩ := bindsSettled_closure_iff.mp hsettled
    obtain ⟨hbody', hbound'⟩ := errorFree_closure_iff.mp herror
    refine ⟨fun name _ ↦ hsymbol name, fun v hv ↦ ⟨hbody v hv, hbody' v hv⟩, fun entry hentry ↦ ?_⟩
    have hnormal := hbound entry hentry
    exact ⟨hsymbol _, hnormal.settled, hnormal.bindsSettled, hbound' entry hentry⟩
  · rintro ⟨-, hbody, hbound⟩
    constructor
    · refine bindsSettled_closure_iff.mpr ⟨fun v hv ↦ (hbody v hv).bindsSettled, ?_⟩
      intro entry hentry
      exact ⟨(hbound entry hentry).settled, (hbound entry hentry).value.bindsSettled⟩
    · refine errorFree_closure_iff.mpr ⟨fun v hv ↦ (hbody v hv).errorFree, ?_⟩
      exact fun entry hentry ↦ (hbound entry hentry).value.errorFree

theorem hereditary_faultless : Hereditary Faultless where
  number _ := faultless_of_isLeaf trivial rfl
  exit := faultless_of_isLeaf trivial rfl
  sexpr_iff := by
    intro cells
    simp only [faultless_iff, bindsSettled_sexpr_iff, errorFree_sexpr_iff, forall₂_and]
  qexpr_iff := by
    intro cells
    simp only [faultless_iff, bindsSettled_qexpr_iff, errorFree_qexpr_iff, forall₂_and]
  closure_iff := faultless_closure_iff

end Value

/-! ## Numerals that fit -/

/-- A numeral denotes a number of 64 bits. -/
def Lexeme.Fits : Lexeme → Prop
  | atom .number text => ∀ n, Decimal.readInt? text.toList = some n →
      -9223372036854775808 ≤ n ∧ n ≤ 9223372036854775807
  | _ => True

/-- All numerals of a source denote numbers of 64 bits. -/
def LiteralsFit (source : String) : Prop :=
  ∀ ts, tokens source.toList = .ok ts → ∀ t ∈ ts, t.lexeme.Fits

namespace Value

open Node

/-- A numeral that fits is read as a number. -/
theorem exists_ofNumberText_eq_number {text : String} (hform : IsNumeral text.toList)
    (hfits : (Lexeme.atom .number text).Fits) : ∃ n, ofNumberText text = number n := by
  obtain ⟨i, hi⟩ := hform.exists_denotes
  have hrange : Decimal.InRange i := hfits i (Decimal.readInt?_eq_some_iff.mpr hi)
  exact exists_ofNumberText_eq_number_iff.mpr ⟨i, hi, hrange⟩

/-- No atom stands for an error, unless it is a numeral that does not fit. -/
theorem errorFree_of_atom {kind : AtomKind} {text : String}
    (hform : (Lexeme.atom kind text).WellFormed) (hfits : (Lexeme.atom kind text).Fits)
    (hkind : kind ≠ .comment) (span : Span) :
    (ofNode (leaf (atomTag kind) text span)).ErrorFree := by
  cases kind with
  | number =>
    obtain ⟨n, hn⟩ := exists_ofNumberText_eq_number hform hfits
    rw [ofNode_number, hn]
    exact errorFree_of_isLeaf trivial rfl
  | symbol =>
    rw [ofNode_symbol]
    exact errorFree_of_isLeaf trivial rfl
  | string =>
    rw [ofNode_string]
    exact errorFree_of_isLeaf trivial rfl
  | comment => exact absurd rfl hkind

/-- No error is read from a source whose numerals fit. -/
theorem errorFree_of_parse {source file : String} {root : Node}
    (h : Node.parse source file = .ok root) (hfits : LiteralsFit source) :
    (ofNode root).ErrorFree := by
  obtain ⟨body, items, htokens, hcover, hreads, rfl⟩ := parse_eq_ok_iff.mp h
  rw [ofNode_program, errorFree_sexpr_iff]
  refine forall_mem_of_reads hreads hcover.wellFormed (fun kind text span hmem hkind ↦ ?_)
    fun bracket cells hcells ↦ ?_
  · have hlexeme := hfits _ (tokens_eq_ok_iff.mpr htokens) _ (List.mem_append_left _ hmem)
    exact errorFree_of_atom (hcover.wellFormed _ hmem) hlexeme hkind span
  · cases bracket with
    | paren => exact errorFree_sexpr_iff.mpr hcells
    | brace => exact errorFree_qexpr_iff.mpr hcells

theorem faultless_of_parse {source file : String} {root : Node}
    (h : Node.parse source file = .ok root) (hfits : LiteralsFit source) :
    (ofNode root).Faultless :=
  ⟨bindsSettled_ofNode root, errorFree_of_parse h hfits⟩

theorem faultless_of_readForms {source file : String} {forms : List Value}
    (h : readForms source file = .ok forms) (hfits : LiteralsFit source) :
    ∀ v ∈ forms, v.Faultless := by
  rw [readForms] at h
  cases hparse : Node.parse source file with
  | error failure =>
    rw [hparse] at h
    cases h
  | ok root =>
    rw [hparse] at h
    obtain rfl := Except.ok.inj h
    exact fun v hv ↦ hereditary_faultless.of_mem_forms (faultless_of_parse hparse hfits) hv

end Value

end QuoteLisp
