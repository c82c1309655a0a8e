import Mathlib.Data.List.Basic
import QuoteLisp.Evaluation.Eval

/-!
# Arguments in portions

A closure may be given its arguments all at once or in portions, and the outcome is the same. As
long as a portion leaves it waiting, applying it changes nothing and results in the closure that has
taken these arguments (`Closure.supply`). Binding formals to arguments takes both lists from the
left, so it can stop anywhere before the variadic mark and go on later (`bindFormals_append`).

What a closure can tell about the portions is how many arguments were in the last one. It says so
when there is no formal for one of them, and in this case only.
-/

namespace QuoteLisp

/-- Binds names to values from left to right, as far as there are both. -/
def Bindings.insertEach (bound : Bindings) (names : List String) (values : List Value) : Bindings :=
  (names.zip values).foldl (fun bound (name, value) ↦ bound.insert name value) bound

theorem Bindings.insertEach_nil (bound : Bindings) (names : List String) :
    bound.insertEach names [] = bound := by
  rw [insertEach, List.zip_nil_right, List.foldl_nil]

theorem Bindings.insertEach_append (bound : Bindings) (names : List String)
    (values others : List Value) :
    bound.insertEach names (values ++ others)
      = (bound.insertEach names values).insertEach (names.drop values.length) others := by
  induction values generalizing names bound with
  | nil => rw [insertEach_nil, List.nil_append, List.length_nil, List.drop_zero]
  | cons value values ih =>
    cases names with
    | nil => rfl
    | cons name names => exact ih _ names

/-! ## Formals in two portions -/

variable {formals : List String} {given args : List Value}

private theorem ne_variadicMark {formal : String}
    (h : 0 < (formal :: formals).idxOf variadicMark) : formal ≠ variadicMark := by
  rintro rfl
  rw [List.idxOf_cons_self] at h
  exact Nat.lt_irrefl _ h

/-- The formals up to the variadic mark may be bound to some arguments first. -/
theorem bindFormals_append (h : given.length ≤ formals.idxOf variadicMark) (refusal : EvalError)
    (args : List Value) (bound : Bindings) :
    bindFormals refusal formals (given ++ args) bound
      = bindFormals refusal (formals.drop given.length) args (bound.insertEach formals given) := by
  -- none of the formals for the first arguments is the mark, so each is bound to its argument
  induction given generalizing formals bound with
  | nil => rw [Bindings.insertEach_nil, List.nil_append, List.length_nil, List.drop_zero]
  | cons arg given ih =>
    cases formals with
    | nil => exact absurd h (Nat.not_succ_le_zero _)
    | cons formal formals =>
      have hformal := ne_variadicMark (Nat.zero_lt_of_lt h)
      rw [List.idxOf_cons_ne _ hformal] at h
      rw [List.cons_append, bindFormals, if_neg hformal]
      exact ih (Nat.le_of_succ_le_succ h) _

/-- Without a variadic mark there must be a formal for every argument. -/
theorem bindFormals_of_lt (hmark : variadicMark ∉ formals) (hlt : formals.length < args.length)
    (refusal : EvalError) (bound : Bindings) :
    bindFormals refusal formals args bound = .error refusal := by
  induction formals generalizing args bound with
  | nil =>
    obtain ⟨arg, args, rfl⟩ := List.exists_cons_of_length_pos hlt
    rfl
  | cons formal formals ih =>
    obtain ⟨arg, args, rfl⟩ := List.exists_cons_of_length_pos (Nat.zero_lt_of_lt hlt)
    rw [bindFormals, if_neg (List.ne_of_not_mem_cons hmark).symm]
    exact ih (List.not_mem_of_not_mem_cons hmark) (Nat.lt_of_succ_lt_succ hlt) _

/-- In every other case it does not matter which failure is given for arguments that are left. -/
theorem bindFormals_refusal (h : variadicMark ∈ formals ∨ args.length ≤ formals.length)
    (refusal refusal' : EvalError) (bound : Bindings) :
    bindFormals refusal formals args bound = bindFormals refusal' formals args bound := by
  induction formals generalizing args bound with
  | nil =>
    obtain rfl : args = [] := by simpa using h
    rfl
  | cons formal formals ih =>
    by_cases hformal : formal = variadicMark
    · rw [bindFormals.eq_def, bindFormals.eq_def]
      simp only [if_pos hformal]
    · cases args with
      | nil =>
        rw [bindFormals.eq_def, bindFormals.eq_def]
      | cons arg args =>
        rw [bindFormals, bindFormals, if_neg hformal, if_neg hformal]
        exact ih (h.imp (List.mem_of_ne_of_mem (Ne.symm hformal)) Nat.le_of_succ_le_succ) _

/-- Without arguments nothing happens unless the variadic mark comes first. -/
theorem bindFormals_nil (h : 0 < formals.idxOf variadicMark) (refusal : EvalError)
    (bound : Bindings) : bindFormals refusal formals [] bound = .ok (formals, bound) := by
  cases formals with
  | nil => rfl
  | cons formal formals =>
    rw [bindFormals, if_neg (ne_variadicMark h)]

/-- Binding formals before the variadic mark brings the mark nearer. -/
theorem idxOf_drop {count : Nat} (h : count ≤ formals.idxOf variadicMark) :
    (formals.drop count).idxOf variadicMark = formals.idxOf variadicMark - count := by
  induction formals generalizing count with
  | nil => rw [List.drop_nil, List.idxOf_nil, Nat.zero_sub]
  | cons formal formals ih =>
    cases count with
    | zero => rfl
    | succ count =>
      have hformal := ne_variadicMark (Nat.zero_lt_of_lt h)
      rw [List.idxOf_cons_ne _ hformal] at h ⊢
      rw [List.drop_succ_cons, ih (Nat.le_of_succ_le_succ h), Nat.succ_sub_succ]

/-! ## Closures that have taken some arguments -/

namespace Closure

variable {c : Closure} {count : Nat}

/-- The closure that has taken some more arguments, one for each of its first formals. -/
def supply (c : Closure) (args : List Value) : Closure :=
  ⟨c.formals.drop args.length, c.body, Bindings.insertEach c.bound c.formals args⟩

theorem supply_nil (c : Closure) : c.supply [] = c := by
  rw [supply, Bindings.insertEach_nil]
  rfl

theorem supply_supply (c : Closure) (given args : List Value) :
    (c.supply given).supply args = c.supply (given ++ args) := by
  simp only [supply, List.drop_drop, List.length_append, Bindings.insertEach_append]

/-- Given that many arguments the closure still waits for others: it has more formals, and the
variadic mark, if there is one, is not among the first of them or right after. -/
def Waits (c : Closure) (count : Nat) : Prop :=
  count < c.formals.length ∧
    (variadicMark ∈ c.formals → count < c.formals.idxOf variadicMark)

instance (c : Closure) (count : Nat) : Decidable (c.Waits count) :=
  inferInstanceAs (Decidable (_ ∧ _))

theorem waits_iff : c.Waits count ↔ count < c.formals.idxOf variadicMark := by
  by_cases hmark : variadicMark ∈ c.formals
  · have hlt := List.idxOf_lt_length_iff.mpr hmark
    exact ⟨fun h ↦ h.2 hmark, fun h ↦ ⟨Nat.lt_trans h hlt, fun _ ↦ h⟩⟩
  · rw [List.idxOf_eq_length_iff.mpr hmark]
    exact and_iff_left fun h ↦ absurd h hmark

/-- The closure still waits for others after each of several portions of arguments. -/
def WaitsEach : Closure → List (List Value) → Prop
  | _, [] => True
  | c, args :: portions => c.Waits args.length ∧ (c.supply args).WaitsEach portions

/-- Among that many arguments there is one without a formal for it. -/
def Overflows (c : Closure) (count : Nat) : Prop :=
  variadicMark ∉ c.formals ∧ c.formals.length < count

instance (c : Closure) (count : Nat) : Decidable (c.Overflows count) :=
  inferInstanceAs (Decidable (_ ∧ _))

theorem WaitsEach.length_le {portions : List (List Value)} (h : c.WaitsEach portions) :
    portions.flatten.length ≤ c.formals.idxOf variadicMark := by
  induction portions generalizing c with
  | nil => exact Nat.zero_le _
  | cons args portions ih =>
    obtain ⟨hargs, hportions⟩ := h
    have hlt := waits_iff.mp hargs
    have hle := ih hportions
    rw [supply, idxOf_drop (Nat.le_of_lt hlt)] at hle
    rw [List.flatten_cons, List.length_append]
    omega

theorem overflows_supply (h : given.length ≤ c.formals.idxOf variadicMark) :
    (c.supply given).Overflows count ↔ c.Overflows (given.length + count) := by
  have hle : c.formals.idxOf variadicMark ≤ c.formals.length := List.idxOf_le_length
  rw [Overflows, Overflows, supply, ← List.idxOf_lt_length_iff, ← List.idxOf_lt_length_iff,
    idxOf_drop h, List.length_drop]
  omega

theorem take_of_waits (h : c.Waits args.length) :
    c.take args = .ok ((c.supply args).formals, (c.supply args).bound) := by
  have hlt := waits_iff.mp h
  have hdrop : 0 < (c.formals.drop args.length).idxOf variadicMark := by
    rw [idxOf_drop (Nat.le_of_lt hlt)]
    exact Nat.sub_pos_of_lt hlt
  have happend := bindFormals_append (Nat.le_of_lt hlt)
    (.tooManyArguments args.length c.formals.length) [] c.bound
  rw [List.append_nil, bindFormals_nil hdrop] at happend
  exact happend

theorem take_of_overflows (h : c.Overflows args.length) :
    c.take args = .error (.tooManyArguments args.length c.formals.length) :=
  bindFormals_of_lt h.1 h.2 _ _

theorem take_supply (hle : given.length ≤ c.formals.idxOf variadicMark)
    (h : ¬c.Overflows (given ++ args).length) :
    (c.supply given).take args = c.take (given ++ args) := by
  rw [take, take, bindFormals_append hle]
  refine bindFormals_refusal ?_ _ _ _
  rw [List.length_append, ← overflows_supply hle, Overflows, not_and_or, not_not, Nat.not_lt] at h
  exact h

end Closure

/-! ## Applying in portions -/

/-- Applies what stands in the operator position to several portions of arguments, each in a scope
of its own, as nested forms do. -/
def Value.applyEach (library : Library) (evaluate : Evaluator) :
    Value → List (ScopeId × List Value) → Run Value
  | operator, [] => return operator
  | operator, (scope, args) :: portions =>
    match operator.toFunction? with
    | some function => do
      let value ← function.apply library evaluate scope args
      value.applyEach library evaluate portions
    | none => return (EvalError.notAFunction operator.kindName).toValue

variable {library : Library} {evaluate : Evaluator} {c : Closure}

theorem Closure.apply_of_waits {caller : ScopeId} (h : c.Waits args.length) :
    c.apply evaluate caller args = pure (Function.closure (c.supply args)).toValue := by
  have hlt : 0 < (c.supply args).formals.length := by
    rw [supply, List.length_drop]
    exact Nat.sub_pos_of_lt h.1
  obtain ⟨formal, formals, heq⟩ := List.exists_cons_of_length_pos hlt
  rw [apply, take_of_waits h, Function.toValue, heq]
  rfl

theorem Closure.apply_of_overflows {caller : ScopeId} (h : c.Overflows args.length) :
    c.apply evaluate caller args
      = pure (EvalError.tooManyArguments args.length c.formals.length).toValue := by
  rw [apply, take_of_overflows h]

/-- The last portion counts for itself only when it is refused. -/
theorem Closure.apply_supply {caller : ScopeId}
    (hle : given.length ≤ c.formals.idxOf variadicMark) :
    (c.supply given).apply evaluate caller args
      = if c.Overflows (given ++ args).length then
          pure (EvalError.tooManyArguments args.length
            (c.formals.length - given.length)).toValue
        else c.apply evaluate caller (given ++ args) := by
  split
  · rename_i h
    rw [List.length_append, ← overflows_supply hle] at h
    rw [apply_of_overflows h, supply, List.length_drop]
  · rename_i h
    rw [apply, apply, take_supply hle h]
    rfl

theorem Closure.applyEach_append {portions : List (ScopeId × List Value)}
    (h : c.WaitsEach (portions.map Prod.snd)) (others : List (ScopeId × List Value)) :
    (Function.closure c).toValue.applyEach library evaluate (portions ++ others)
      = (Function.closure (c.supply (portions.flatMap Prod.snd))).toValue.applyEach library
          evaluate others := by
  induction portions generalizing c with
  | nil => rw [List.flatMap_nil, supply_nil, List.nil_append]
  | cons portion portions ih =>
    obtain ⟨hargs, hportions⟩ := h
    rw [List.cons_append, Value.applyEach, Value.toFunction?_toValue, List.flatMap_cons,
      ← supply_supply, ← ih hportions]
    change c.apply evaluate portion.1 portion.2 >>= _ = _
    rw [apply_of_waits hargs, pure_bind]

/-- **Currying.** Arguments may be given to a closure in portions. An application that leaves it
waiting changes nothing and results in the closure that has taken the arguments. One more
application does exactly what giving all arguments at once does, with any evaluator: it has the same
effects and the same result, or the same want of one. The only exception is that when there is no
formal for an argument the failure counts what the application at hand was given and what was
expected of it. The same is true of any number of portions. -/
theorem Closure.apply_in_portions {caller : ScopeId} (hgiven : c.Waits given.length) :
    (Function.closure c).apply library evaluate caller given
        = pure (Function.closure (c.supply given)).toValue ∧
      (∀ scope args, (Function.closure (c.supply given)).apply library evaluate scope args
        = if c.Overflows (given ++ args).length then
            pure (EvalError.tooManyArguments args.length
              (c.formals.length - given.length)).toValue
          else (Function.closure c).apply library evaluate scope (given ++ args)) ∧
      (∀ scope args, c.Overflows args.length →
        (Function.closure c).apply library evaluate scope args
          = pure (EvalError.tooManyArguments args.length c.formals.length).toValue) ∧
      ∀ (portions : List (ScopeId × List Value)) (scope : ScopeId) (args : List Value),
        c.WaitsEach (portions.map Prod.snd) →
          (Function.closure c).toValue.applyEach library evaluate (portions ++ [(scope, args)])
            = if c.Overflows (portions.flatMap Prod.snd ++ args).length then
                pure (EvalError.tooManyArguments args.length
                  (c.formals.length - (portions.flatMap Prod.snd).length)).toValue
              else (Function.closure c).apply library evaluate scope
                (portions.flatMap Prod.snd ++ args) := by
  refine ⟨apply_of_waits hgiven, fun scope args ↦ apply_supply (Nat.le_of_lt (waits_iff.mp hgiven)),
    fun scope args ↦ apply_of_overflows, fun portions scope args hportions ↦ ?_⟩
  rw [applyEach_append hportions, Value.applyEach, Value.toFunction?_toValue]
  have hle := hportions.length_le
  rw [← List.flatMap_def] at hle
  exact (bind_pure _).trans (apply_supply hle)

/-- Three arguments in two portions, and the same with two more arguments than there are formals. -/
theorem Closure.apply_in_portions_of_three :
    ∃ c : Closure, c.Waits 2 ∧
      (Function.closure (c.supply [.number 1, .number 2])).apply ⟨fun _ ↦ none⟩
          (eval ⟨fun _ ↦ none⟩ 2) globalScope [.number 3] (Machine.start .empty)
        = .ok (.number 2, Machine.start .empty) ∧
      (Function.closure c).toValue.applyEach ⟨fun _ ↦ none⟩ (eval ⟨fun _ ↦ none⟩ 2)
          [(1, [.number 1]), (2, [.number 2]), (globalScope, [.number 3, .exit, .exit])]
        = pure (EvalError.tooManyArguments 3 1).toValue := by
  have hwaits : (⟨["x", "y", "z"], [.symbol "y"], []⟩ : Closure).Waits 2 := by decide
  obtain ⟨-, happly, -, heach⟩ := @apply_in_portions [.number 1, .number 2] ⟨fun _ ↦ none⟩
    (eval ⟨fun _ ↦ none⟩ 2) _ 1 hwaits
  refine ⟨⟨["x", "y", "z"], [.symbol "y"], []⟩, hwaits, ?_, ?_⟩
  · rw [happly, if_neg (by decide)]
    rfl
  · have hportions := heach [(1, [.number 1]), (2, [.number 2])] globalScope
      [.number 3, .exit, .exit] ⟨by decide, by decide, trivial⟩
    rw [if_pos (by decide)] at hportions
    exact hportions

end QuoteLisp
