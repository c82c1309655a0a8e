import Mathlib.Data.List.Basic
import QuoteLisp.Evaluation.Application
import QuoteLisp.Proofs.Number.Wrapping

/-!
# What the operations on numbers return

An operation on numbers has no effect, so all there is to say of a call is what it returns:
`Arithmetic.Returns`. The arguments are looked at before anything is computed. One that is no number
is refused, the leftmost first (`returns_wrongType`), and a list of numbers is folded
(`returns_number`).

## What a fold refines

If every step of the fold agrees with a step of an exact computation, then so does the whole fold
(`exists_foldlM_step`). What it is to agree is left open: the number may be the exact result, or the
one that it wraps around to (`foldlM_step_eq_ofInt`). The exact computation may use up one operand
after another or, as it comes to the same, all of them put together (`foldl_eq_op_foldr`).
-/

namespace QuoteLisp

namespace Arithmetic

variable {operation : Arithmetic}

/-- A call of the operation with these arguments, from any scope, does nothing but return the
value. -/
def Returns (operation : Arithmetic) (args : List Value) (v : Value) : Prop :=
  ∀ library evaluate scope,
    (Primitive.arithmetic operation).call library evaluate scope args = pure v

/-- An operation returns one value only. -/
theorem Returns.unique {args : List Value} {v w : Value} (hv : operation.Returns args v)
    (hw : operation.Returns args w) : v = w := by
  have hrun := (hv ⟨fun _ ↦ none⟩ (fun _ _ ↦ throw .outOfFuel) globalScope).symm.trans
    (hw ⟨fun _ ↦ none⟩ (fun _ _ ↦ throw .outOfFuel) globalScope)
  have hresult : Except.ok (v, Machine.start .empty) = Except.ok (w, Machine.start .empty) :=
    congrFun hrun (Machine.start .empty)
  exact congrArg Prod.fst (Except.ok.inj hresult)

theorem returns_of_apply_eq_ok {args : List Value} {v : Value} (h : operation.apply args = .ok v) :
    operation.Returns args v := by
  intro library evaluate scope
  rw [Primitive.call, Primitive.request, h]
  rfl

theorem returns_of_apply_eq_error {args : List Value} {cause : EvalError}
    (h : operation.apply args = .error cause) : operation.Returns args cause.toValue := by
  intro library evaluate scope
  rw [Primitive.call, Primitive.request, h]
  rfl

end Arithmetic

/-! ## Looking at the arguments -/

/-- The arguments of the right kind before another one are accepted, whatever comes of the
others. -/
private theorem mapM_zipIdx_append {α : Type} {wrap : α → Value} {check : Value × Nat → Checked α}
    (hcheck : ∀ a index, check (wrap a, index) = .ok a) (as : List α) (others : List Value)
    (start : Nat) :
    ((as.map wrap ++ others).zipIdx start).mapM check
      = (as ++ ·) <$> (others.zipIdx (start + as.length)).mapM check := by
  induction as generalizing start with
  | nil => exact (id_map _).symm
  | cons a as ih =>
    rw [List.map_cons, List.cons_append, List.zipIdx_cons, List.mapM_cons, ih, List.length_cons,
      Nat.add_right_comm, Nat.add_assoc, hcheck]
    cases (others.zipIdx (start + (as.length + 1))).mapM check with
    | error cause => rfl
    | ok found => rfl

private theorem mapM_zipIdx_map {α : Type} {wrap : α → Value} {check : Value × Nat → Checked α}
    (hcheck : ∀ a index, check (wrap a, index) = .ok a) (as : List α) :
    (as.map wrap).zipIdx.mapM check = .ok as := by
  have happend := mapM_zipIdx_append hcheck as [] 0
  rw [List.append_nil, List.zipIdx_nil, List.mapM_nil] at happend
  exact happend.trans (congrArg Except.ok (List.append_nil as))

theorem Arguments.numbers_map_number (function : String) (ns : List Int64) :
    Arguments.numbers function (ns.map .number) = .ok ns :=
  mapM_zipIdx_map (fun _ _ ↦ rfl) ns

theorem Arguments.cellsOfAll_map_qexpr (function : String) (lists : List (List Value)) :
    Arguments.cellsOfAll function (lists.map .qexpr) = .ok lists :=
  mapM_zipIdx_map (fun _ _ ↦ rfl) lists

theorem Arguments.number_eq_error {v : Value} (h : ∀ n, v ≠ .number n) (function : String)
    (index : Nat) :
    Arguments.number function index v = .error (wrongKind function index v "Number") := by
  cases v with
  | number n => exact absurd rfl (h n)
  | _ => rfl

theorem Arguments.numbers_eq_error {v : Value} (h : ∀ n, v ≠ .number n) (function : String)
    (ns : List Int64) (others : List Value) :
    Arguments.numbers function (ns.map .number ++ v :: others)
      = .error (wrongKind function ns.length v "Number") := by
  rw [Arguments.numbers, mapM_zipIdx_append fun _ _ ↦ rfl, List.zipIdx_cons, List.mapM_cons,
    Nat.zero_add]
  dsimp only
  rw [Arguments.number_eq_error h]
  rfl

/-- Values are all of one kind, or else there is a leftmost one that is not. -/
theorem exists_map_or_append {α : Type} (wrap : α → Value) (vs : List Value) :
    (∃ as : List α, vs = as.map wrap) ∨ ∃ (as : List α) (v : Value) (others : List Value),
      vs = as.map wrap ++ v :: others ∧ ∀ a, v ≠ wrap a := by
  induction vs with
  | nil => exact Or.inl ⟨[], rfl⟩
  | cons v vs ih =>
    by_cases hv : ∃ a, v = wrap a
    · obtain ⟨a, rfl⟩ := hv
      rcases ih with ⟨as, rfl⟩ | ⟨as, w, others, rfl, hw⟩
      · exact Or.inl ⟨a :: as, rfl⟩
      · exact Or.inr ⟨a :: as, w, others, rfl, hw⟩
    · exact Or.inr ⟨[], v, vs, rfl, fun a ha ↦ hv ⟨a, ha⟩⟩

/-- Before the leftmost argument that is no number there are numbers. -/
theorem exists_append_of_not_number {args : List Value} (h : ∃ v ∈ args, ∀ n, v ≠ .number n) :
    ∃ (ns : List Int64) (v : Value) (others : List Value),
      args = ns.map .number ++ v :: others ∧ ∀ n, v ≠ .number n := by
  refine (exists_map_or_append .number args).resolve_left ?_
  rintro ⟨ns, rfl⟩
  obtain ⟨v, hv, hne⟩ := h
  obtain ⟨n, -, rfl⟩ := List.mem_map.mp hv
  exact hne n rfl

namespace Arithmetic

variable {operation : Arithmetic} {ns : List Int64}

theorem returns_wrongType {v : Value} (h : ∀ n, v ≠ .number n) (operation : Arithmetic)
    (ns : List Int64) (others : List Value) :
    operation.Returns (ns.map .number ++ v :: others)
      (EvalError.wrongType (Primitive.arithmetic operation).name ns.length v.kindName
        "Number").toValue := by
  refine returns_of_apply_eq_error ?_
  rw [apply, Arguments.numbers_eq_error h]
  rfl

theorem apply_map_number {n : Int64} (h : operation.fold ns = .ok n) :
    operation.apply (ns.map .number) = .ok (.number n) := by
  rw [apply, Arguments.numbers_map_number]
  change (do return .number (← operation.fold ns) : Checked Value) = _
  rw [h]
  rfl

theorem returns_number {n : Int64} (h : operation.fold ns = .ok n) :
    operation.Returns (ns.map .number) (.number n) :=
  returns_of_apply_eq_ok (apply_map_number h)

theorem apply_map_number_eq_error {cause : EvalError} (h : operation.fold ns = .error cause) :
    operation.apply (ns.map .number) = .error cause := by
  rw [apply, Arguments.numbers_map_number]
  change (do return .number (← operation.fold ns) : Checked Value) = _
  rw [h]
  rfl

theorem returns_error {cause : EvalError} (h : operation.fold ns = .error cause) :
    operation.Returns (ns.map .number) cause.toValue :=
  returns_of_apply_eq_error (apply_map_number_eq_error h)

/-! ## Folding -/

/-- Only subtraction does not fold a single number. -/
theorem fold_cons (h : operation ≠ sub) (x : Int64) (rest : List Int64) :
    operation.fold (x :: rest) = rest.foldlM operation.step x := by
  cases rest with
  | nil =>
    rw [fold, if_neg h]
    rfl
  | cons y rest => rfl

/-- A fold agrees with an exact computation when every step does. -/
theorem exists_foldlM_step {α : Type} {R : α → Int64 → Prop} {exact : α → Int64 → α}
    {rest : List Int64} {a : α} {x : Int64}
    (hstep : ∀ y ∈ rest, ∀ a x, R a x → ∃ z, operation.step x y = .ok z ∧ R (exact a y) z)
    (h : R a x) : ∃ z, rest.foldlM operation.step x = .ok z ∧ R (rest.foldl exact a) z := by
  induction rest generalizing a x with
  | nil => exact ⟨x, rfl, h⟩
  | cons y rest ih =>
    obtain ⟨hy, hrest⟩ := List.forall_mem_cons.mp hstep
    obtain ⟨z, hz, hR⟩ := hy a x h
    rw [List.foldlM_cons, hz]
    exact ih hrest hR

/-- A fold whose steps wrap around wraps around to its exact result. -/
theorem foldlM_step_eq_ofInt {exact : Int → Int64 → Int} {rest : List Int64}
    (hstep : ∀ y ∈ rest, ∀ i x, Wraps i x →
      ∃ z, operation.step x y = .ok z ∧ Wraps (exact i y) z) (x : Int64) :
    rest.foldlM operation.step x = .ok (Int64.ofInt (rest.foldl exact x.toInt)) := by
  obtain ⟨z, hz, hwraps⟩ := exists_foldlM_step hstep (wraps_toInt x)
  rw [hz, hwraps.eq_ofInt]

end Arithmetic

/-- To use up one operand after another is to use up all of them put together. -/
theorem foldl_eq_op_foldr {β : Type} {op : Int → β → Int} {combine : β → β → β} {neutral : β}
    (hneutral : ∀ i, op i neutral = i) (hcombine : ∀ i a b, op (op i a) b = op i (combine a b))
    (operand : Int64 → β) (i : Int) (ns : List Int64) :
    ns.foldl (fun i n ↦ op i (operand n)) i = op i ((ns.map operand).foldr combine neutral) := by
  induction ns generalizing i with
  | nil => exact (hneutral i).symm
  | cons n ns ih => rw [List.foldl_cons, ih, hcombine, List.map_cons, List.foldr_cons]

end QuoteLisp
