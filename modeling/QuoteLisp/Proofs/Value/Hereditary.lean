import QuoteLisp.Value.Basic

/-!
# Properties that values share with their parts

Evaluation takes values apart and puts the parts together again, and makes numbers and little else
of its own. So a property of values that a form has exactly when its cells have it, and a closure
exactly when everything in it has it, is one that evaluation keeps. `Hereditary` says what such a
property needs; that it is kept is shown along the rules of evaluation.

The names in a closure count as its parts too, each standing for the symbol with that name. They are
made from symbols and are looked up as symbols, so a property of symbols is passed on to them.

A `Hereditary` property is one of stores that bind settled values only. What is asked of the values
under a name can also be left open (`HereditaryWith`), and then nothing at all may be asked of them.
-/

namespace QuoteLisp.Value

/-- Evaluation leaves the value as it is, and it is no error. -/
def Settled : Value → Prop
  | error _ | symbol _ => False
  | sexpr cells => cells = []
  | _ => True

/-- Something that a scope or a closure may bind: a name and a settled value, both with a
property. -/
structure Binds (Q : Value → Prop) (entry : String × Value) : Prop where
  name : Q (symbol entry.1)
  settled : entry.2.Settled
  value : Q entry.2

/-- A property that values share with their parts. -/
structure Hereditary (Q : Value → Prop) : Prop where
  number (n : Int64) : Q (number n)
  exit : Q exit
  sexpr_iff {cells : List Value} : Q (sexpr cells) ↔ ∀ v ∈ cells, Q v
  qexpr_iff {cells : List Value} : Q (qexpr cells) ↔ ∀ v ∈ cells, Q v
  closure_iff {formals : List String} {body : List Value} {bound : List (String × Value)} :
    Q (closure formals body bound) ↔
      (∀ name ∈ formals, Q (symbol name)) ∧ (∀ v ∈ body, Q v) ∧ ∀ entry ∈ bound, Binds Q entry

/-- A property `Q` that values share with their parts, where `S` is asked of the values under a name
besides: that they are settled, or anything less. -/
structure HereditaryWith (S Q : Value → Prop) : Prop where
  of_settled {v : Value} : v.Settled → S v
  number (n : Int64) : Q (number n)
  exit : Q exit
  sexpr_iff {cells : List Value} : Q (sexpr cells) ↔ ∀ v ∈ cells, Q v
  qexpr_iff {cells : List Value} : Q (qexpr cells) ↔ ∀ v ∈ cells, Q v
  closure_iff {formals : List String} {body : List Value} {bound : List (String × Value)} :
    Q (closure formals body bound) ↔
      (∀ name ∈ formals, Q (symbol name)) ∧ (∀ v ∈ body, Q v) ∧
        ∀ entry ∈ bound, Q (symbol entry.1) ∧ S entry.2 ∧ Q entry.2

theorem binds_iff {Q : Value → Prop} {entry : String × Value} :
    Binds Q entry ↔ Q (symbol entry.1) ∧ entry.2.Settled ∧ Q entry.2 :=
  ⟨fun h ↦ ⟨h.name, h.settled, h.value⟩, fun h ↦ ⟨h.1, h.2.1, h.2.2⟩⟩

theorem forall_binds_iff {Q : Value → Prop} {bound : List (String × Value)} :
    (∀ entry ∈ bound, Binds Q entry) ↔
      ∀ entry ∈ bound, Q (symbol entry.1) ∧ entry.2.Settled ∧ Q entry.2 :=
  forall₂_congr fun _ _ ↦ binds_iff

theorem Hereditary.hereditaryWith {Q : Value → Prop} (hQ : Hereditary Q) :
    HereditaryWith Settled Q :=
  { hQ with
    of_settled := id
    closure_iff := by
      intro formals body bound
      rw [hQ.closure_iff, forall_binds_iff] }

/-- Values share everything with their parts that holds of all values. -/
theorem HereditaryWith.trivial : HereditaryWith (fun _ ↦ True) (fun _ ↦ True) where
  of_settled _ := True.intro
  number _ := True.intro
  exit := True.intro
  sexpr_iff := by simp
  qexpr_iff := by simp
  closure_iff := by simp

/-- What evaluation may result in: an error, or a settled value with the property. -/
def IsResult (Q : Value → Prop) (v : Value) : Prop :=
  v.isError = true ∨ v.Settled ∧ Q v

variable {Q : Value → Prop} {v : Value}

theorem IsResult.of_isError_eq_false (h : v.IsResult Q) (herror : v.isError = false) :
    v.Settled ∧ Q v :=
  h.resolve_left (by rw [herror]; decide)

theorem isResult_toValue (cause : EvalError) : cause.toValue.IsResult Q := Or.inl rfl

theorem Hereditary.isResult_unit (hQ : Hereditary Q) : unit.IsResult Q :=
  Or.inr ⟨rfl, hQ.sexpr_iff.mpr (List.forall_mem_nil _)⟩

end QuoteLisp.Value
