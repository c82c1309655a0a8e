import QuoteLisp.Value.Basic

/-!
# What occurs in a value

A value holds others: the cells of a form, and the body and the bound names of a closure. `Occurs`
follows them to any depth, so that a property of everything in a value, such as being free of
errors, is a statement about what occurs in it.
-/

namespace QuoteLisp.Value

/-- The value `w` is the given one or occurs in it, at whatever depth. -/
inductive Occurs (w : Value) : Value → Prop
  | here : Occurs w w
  | sexpr {v : Value} {cells : List Value} : v ∈ cells → Occurs w v → Occurs w (sexpr cells)
  | qexpr {v : Value} {cells : List Value} : v ∈ cells → Occurs w v → Occurs w (qexpr cells)
  | body {v : Value} {formals : List String} {body : List Value} {bound : List (String × Value)} :
      v ∈ body → Occurs w v → Occurs w (closure formals body bound)
  | bound {entry : String × Value} {formals : List String} {body : List Value}
      {bound : List (String × Value)} :
      entry ∈ bound → Occurs w entry.2 → Occurs w (closure formals body bound)

/-- No error occurs in a value. -/
def ErrorFree (v : Value) : Prop :=
  ∀ message, ¬Occurs (error message) v

theorem Occurs.trans {u v w : Value} (h : Occurs u v) (h' : Occurs v w) : Occurs u w := by
  induction h' with
  | here => exact h
  | sexpr hmem _ ih => exact .sexpr hmem ih
  | qexpr hmem _ ih => exact .qexpr hmem ih
  | body hmem _ ih => exact .body hmem ih
  | bound hmem _ ih => exact .bound hmem ih

/-- A part of an error-free value is error-free. -/
theorem ErrorFree.of_occurs {v w : Value} (h : w.ErrorFree) (hocc : Occurs v w) : v.ErrorFree :=
  fun message herror ↦ h message (herror.trans hocc)

theorem not_errorFree_error (message : String) : ¬(error message).ErrorFree :=
  fun h ↦ h message .here

/-! ## What occurs in a form -/

theorem occurs_sexpr_iff {w : Value} {cells : List Value} :
    Occurs w (sexpr cells) ↔ w = sexpr cells ∨ ∃ v ∈ cells, Occurs w v := by
  constructor
  · rintro (_ | ⟨hmem, h⟩)
    · exact Or.inl rfl
    · exact Or.inr ⟨_, hmem, h⟩
  · rintro (rfl | ⟨v, hmem, h⟩)
    · exact .here
    · exact .sexpr hmem h

theorem occurs_qexpr_iff {w : Value} {cells : List Value} :
    Occurs w (qexpr cells) ↔ w = qexpr cells ∨ ∃ v ∈ cells, Occurs w v := by
  constructor
  · rintro (_ | _ | ⟨hmem, h⟩)
    · exact Or.inl rfl
    · exact Or.inr ⟨_, hmem, h⟩
  · rintro (rfl | ⟨v, hmem, h⟩)
    · exact .here
    · exact .qexpr hmem h

theorem occurs_closure_iff {w : Value} {formals : List String} {body : List Value}
    {bound : List (String × Value)} :
    Occurs w (closure formals body bound) ↔ w = closure formals body bound ∨
      (∃ v ∈ body, Occurs w v) ∨ ∃ entry ∈ bound, Occurs w entry.2 := by
  constructor
  · intro h
    cases h with
    | here => exact Or.inl rfl
    | body hmem h => exact Or.inr (Or.inl ⟨_, hmem, h⟩)
    | bound hmem h => exact Or.inr (Or.inr ⟨_, hmem, h⟩)
  · rintro (rfl | ⟨v, hmem, h⟩ | ⟨entry, hmem, h⟩)
    · exact .here
    · exact .body hmem h
    · exact .bound hmem h

/-! ## What holds of everything in a form -/

theorem forall_occurs_sexpr_iff {P : Value → Prop} {cells : List Value} :
    (∀ w, Occurs w (sexpr cells) → P w) ↔
      P (sexpr cells) ∧ ∀ v ∈ cells, ∀ w, Occurs w v → P w := by
  refine ⟨fun h ↦ ⟨h _ .here, fun v hv w hocc ↦ h w (.sexpr hv hocc)⟩, ?_⟩
  rintro ⟨hform, hcells⟩ w hocc
  obtain rfl | ⟨v, hv, hocc⟩ := occurs_sexpr_iff.mp hocc
  · exact hform
  · exact hcells v hv w hocc

theorem forall_occurs_qexpr_iff {P : Value → Prop} {cells : List Value} :
    (∀ w, Occurs w (qexpr cells) → P w) ↔
      P (qexpr cells) ∧ ∀ v ∈ cells, ∀ w, Occurs w v → P w := by
  refine ⟨fun h ↦ ⟨h _ .here, fun v hv w hocc ↦ h w (.qexpr hv hocc)⟩, ?_⟩
  rintro ⟨hform, hcells⟩ w hocc
  obtain rfl | ⟨v, hv, hocc⟩ := occurs_qexpr_iff.mp hocc
  · exact hform
  · exact hcells v hv w hocc

theorem forall_occurs_closure_iff {P : Value → Prop} {formals : List String} {body : List Value}
    {bound : List (String × Value)} :
    (∀ w, Occurs w (closure formals body bound) → P w) ↔ P (closure formals body bound) ∧
      (∀ v ∈ body, ∀ w, Occurs w v → P w) ∧ ∀ entry ∈ bound, ∀ w, Occurs w entry.2 → P w := by
  refine ⟨fun h ↦ ⟨h _ .here, fun v hv w hocc ↦ h w (.body hv hocc),
    fun entry hentry w hocc ↦ h w (.bound hentry hocc)⟩, ?_⟩
  rintro ⟨hclosure, hbody, hbound⟩ w hocc
  obtain rfl | ⟨v, hv, hocc⟩ | ⟨entry, hentry, hocc⟩ := occurs_closure_iff.mp hocc
  · exact hclosure
  · exact hbody v hv w hocc
  · exact hbound entry hentry w hocc

end QuoteLisp.Value
