import QuoteLisp.Evaluation.Load
import QuoteLisp.Proofs.Value.Hereditary
import QuoteLisp.Proofs.Value.Occurs

/-!
# Normal values

A value is settled when evaluation leaves it as it is: it is no symbol and no form with cells, and
it is no error either, since an error stands for the absence of a value. That is a property of the
top of a value. What stands inside may be anything, as it does in a form in braces, except for one
thing: the names that a closure has bound so far must have settled values, in every closure that
occurs anywhere. A settled value with this second property is normal.

All values of a source have the second property, since no closure is read from a source.
-/

namespace QuoteLisp.Value

/-- Every closure that occurs in the value has bound settled values only. -/
def BindsSettled (v : Value) : Prop :=
  ∀ formals body bound, Occurs (closure formals body bound) v → ∀ entry ∈ bound, entry.2.Settled

/-- The values that names are bound to. -/
structure Normal (v : Value) : Prop where
  settled : v.Settled
  bindsSettled : v.BindsSettled

/-- The value holds no other values. -/
def IsLeaf : Value → Prop
  | sexpr _ | qexpr _ | closure _ _ _ => False
  | _ => True

variable {v w : Value}

/-! ## Parts of a value -/

theorem BindsSettled.of_occurs (h : v.BindsSettled) (hocc : Occurs w v) : w.BindsSettled :=
  fun formals body bound hclosure ↦ h formals body bound (hclosure.trans hocc)

theorem bindsSettled_of_isLeaf (h : v.IsLeaf) : v.BindsSettled := by
  cases v with
  | sexpr | qexpr | closure => exact h.elim
  | _ => exact fun _ _ _ hocc ↦ nomatch hocc

theorem bindsSettled_sexpr_iff {cells : List Value} :
    (sexpr cells).BindsSettled ↔ ∀ v ∈ cells, v.BindsSettled := by
  refine ⟨fun h v hv ↦ h.of_occurs (.sexpr hv .here), fun h formals body bound hocc ↦ ?_⟩
  obtain heq | ⟨v, hv, hocc⟩ := occurs_sexpr_iff.mp hocc
  · cases heq
  · exact h v hv formals body bound hocc

theorem bindsSettled_qexpr_iff {cells : List Value} :
    (qexpr cells).BindsSettled ↔ ∀ v ∈ cells, v.BindsSettled := by
  refine ⟨fun h v hv ↦ h.of_occurs (.qexpr hv .here), fun h formals body bound hocc ↦ ?_⟩
  obtain heq | ⟨v, hv, hocc⟩ := occurs_qexpr_iff.mp hocc
  · cases heq
  · exact h v hv formals body bound hocc

theorem bindsSettled_closure_iff {formals : List String} {body : List Value}
    {bound : List (String × Value)} :
    (closure formals body bound).BindsSettled ↔
      (∀ v ∈ body, v.BindsSettled) ∧ ∀ entry ∈ bound, entry.2.Normal := by
  constructor
  · intro h
    refine ⟨fun v hv ↦ h.of_occurs (.body hv .here), fun entry hentry ↦ ⟨?_, ?_⟩⟩
    · exact h formals body bound .here entry hentry
    · exact h.of_occurs (.bound hentry .here)
  · rintro ⟨hbody, hbound⟩ formals' body' bound' hocc
    obtain heq | ⟨v, hv, hocc⟩ | ⟨entry, hentry, hocc⟩ := occurs_closure_iff.mp hocc
    · cases heq
      exact fun entry hentry ↦ (hbound entry hentry).settled
    · exact hbody v hv formals' body' bound' hocc
    · exact (hbound entry hentry).bindsSettled formals' body' bound' hocc

theorem bindsSettled_symbol (name : String) : (symbol name).BindsSettled :=
  bindsSettled_of_isLeaf trivial

/-- Names have no say in what a closure binds them to. -/
theorem binds_bindsSettled_iff {entry : String × Value} :
    Binds BindsSettled entry ↔ entry.2.Normal :=
  ⟨fun h ↦ ⟨h.settled, h.value⟩, fun h ↦ ⟨bindsSettled_symbol _, h.settled, h.bindsSettled⟩⟩

theorem hereditary_bindsSettled : Hereditary BindsSettled where
  number _ := bindsSettled_of_isLeaf trivial
  exit := bindsSettled_of_isLeaf trivial
  sexpr_iff := bindsSettled_sexpr_iff
  qexpr_iff := bindsSettled_qexpr_iff
  closure_iff := by
    intro formals body bound
    simp only [bindsSettled_closure_iff, binds_bindsSettled_iff, bindsSettled_symbol, implies_true,
      true_and]

/-! ## Values of sources -/

private theorem isLeaf_ofNumberText (text : String) : (ofNumberText text).IsLeaf := by
  rw [ofNumberText]
  split <;> trivial

mutual

/-- No closure is read from a tree. -/
theorem bindsSettled_ofNode : ∀ node, (ofNode node).BindsSettled
  | .mk tag contents span children => by
    rw [ofNode]
    split
    · exact bindsSettled_of_isLeaf (isLeaf_ofNumberText contents)
    split
    · exact bindsSettled_of_isLeaf trivial
    split
    · exact bindsSettled_of_isLeaf trivial
    split
    · exact bindsSettled_qexpr_iff.mpr (bindsSettled_ofNodes children)
    · exact bindsSettled_sexpr_iff.mpr (bindsSettled_ofNodes children)

theorem bindsSettled_ofNodes : ∀ nodes, ∀ v ∈ ofNodes nodes, v.BindsSettled
  | [] => List.forall_mem_nil _
  | node :: nodes => by
    rw [ofNodes]
    split
    · exact bindsSettled_ofNodes nodes
    · exact List.forall_mem_cons.mpr ⟨bindsSettled_ofNode node, bindsSettled_ofNodes nodes⟩

end

/-- The forms of a program have what it shares with its parts. -/
theorem Hereditary.of_mem_forms {Q : Value → Prop} (hQ : Hereditary Q) (h : Q v)
    (hw : w ∈ v.forms) : Q w := by
  cases v with
  | sexpr cells => exact hQ.sexpr_iff.mp h w hw
  | _ =>
    obtain rfl := List.mem_singleton.mp hw
    exact h

private theorem bindsSettled_of_map_forms {result : Except HostError Node} {forms : List Value}
    (h : result.map (fun root ↦ (ofNode root).forms) = .ok forms) :
    ∀ v ∈ forms, v.BindsSettled := by
  cases result with
  | error failure => cases h
  | ok root =>
    obtain rfl := Except.ok.inj h
    exact fun v hv ↦ hereditary_bindsSettled.of_mem_forms (bindsSettled_ofNode root) hv

/-- No closure is read from a source. -/
theorem bindsSettled_of_readForms {source file : String} {forms : List Value}
    (h : readForms source file = .ok forms) : ∀ v ∈ forms, v.BindsSettled :=
  bindsSettled_of_map_forms h

/-- No closure is read from a file. -/
theorem bindsSettled_of_fileForms {path : String} {outcome : Except ReadError String}
    {forms : List Value} (h : fileForms path outcome = .ok forms) : ∀ v ∈ forms, v.BindsSettled :=
  bindsSettled_of_map_forms h

end QuoteLisp.Value
