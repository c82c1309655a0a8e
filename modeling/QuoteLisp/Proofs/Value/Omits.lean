import QuoteLisp.Proofs.Value.Hereditary
import QuoteLisp.Proofs.Value.Occurs

/-!
# Values that omit a name

A name gets into a value in three ways: as a symbol, as a formal of a closure, and as a name that a
closure has bound. A value omits a name if nothing that occurs in it mentions the name in one of
these ways. The text of a string or an error is no name, whatever it reads like.

To omit a name is something that values share with their parts.
-/

namespace QuoteLisp.Value

/-- The value itself mentions the name, apart from what its parts do. -/
def Mentions (name : String) : Value → Prop
  | symbol other => other = name
  | closure formals _ bound => name ∈ formals ∨ ∃ entry ∈ bound, entry.1 = name
  | _ => False

/-- Nothing that occurs in the value mentions the name. -/
def Omits (name : String) (v : Value) : Prop :=
  ∀ w, Occurs w v → ¬w.Mentions name

variable {name other : String} {v : Value}

theorem omits_error (message : String) : (error message).Omits name := by
  intro w hocc
  cases hocc
  exact id

theorem omits_primitive (operation : Primitive) : (primitive operation).Omits name := by
  intro w hocc
  cases hocc
  exact id

theorem omits_symbol_iff : (symbol other).Omits name ↔ other ≠ name := by
  refine ⟨fun h ↦ h _ .here, fun hne w hocc ↦ ?_⟩
  cases hocc
  exact hne

theorem omits_sexpr_iff {cells : List Value} :
    (sexpr cells).Omits name ↔ ∀ v ∈ cells, v.Omits name :=
  forall_occurs_sexpr_iff.trans (and_iff_right id)

theorem omits_qexpr_iff {cells : List Value} :
    (qexpr cells).Omits name ↔ ∀ v ∈ cells, v.Omits name :=
  forall_occurs_qexpr_iff.trans (and_iff_right id)

theorem omits_closure_iff {formals : List String} {body : List Value}
    {bound : List (String × Value)} :
    (closure formals body bound).Omits name ↔ name ∉ formals ∧ (∀ v ∈ body, v.Omits name) ∧
      ∀ entry ∈ bound, entry.1 ≠ name ∧ entry.2.Omits name := by
  refine forall_occurs_closure_iff.trans ⟨fun ⟨hown, hbody, hvalues⟩ ↦ ?_, fun h ↦ ?_⟩
  · obtain ⟨hformals, hnames⟩ := not_or.mp hown
    exact ⟨hformals, hbody, fun entry hmem ↦
      ⟨fun hname ↦ hnames ⟨entry, hmem, hname⟩, hvalues entry hmem⟩⟩
  · obtain ⟨hformals, hbody, hbound⟩ := h
    refine ⟨not_or.mpr ⟨hformals, ?_⟩, hbody, fun entry hmem ↦ (hbound entry hmem).2⟩
    rintro ⟨entry, hmem, hname⟩
    exact (hbound entry hmem).1 hname

/-- Values share with their parts that they omit a name, settled or not. -/
theorem hereditaryWith_omits (name : String) : HereditaryWith (fun _ ↦ True) (Omits name) where
  of_settled _ := trivial
  number n w hocc := by
    cases hocc
    exact id
  exit w hocc := by
    cases hocc
    exact id
  sexpr_iff := omits_sexpr_iff
  qexpr_iff := omits_qexpr_iff
  closure_iff := by
    intro formals body bound
    simp only [omits_closure_iff, omits_symbol_iff, true_and]
    exact and_congr_left' ⟨fun h other hmem heq ↦ h (heq ▸ hmem), fun h hmem ↦ h name hmem rfl⟩

end QuoteLisp.Value
