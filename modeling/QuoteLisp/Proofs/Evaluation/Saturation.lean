import QuoteLisp.Proofs.Evaluation.Currying
import QuoteLisp.Proofs.Scope.Store

/-!
# When a closure has all its arguments

What comes of applying a closure depends on its formals and on the number of arguments, and on
nothing else. The closure may wait for more arguments. It may have one for each formal, or all that
a variadic formal needs, and then its body is evaluated. There may be an argument without a formal,
or a variadic mark that is not followed by one formal, and then the arguments are refused. These are
all the cases (`Closure.waits_or_completes_or_refuses`).

## The mark decides when it is reached

Formals before the first variadic mark are bound to arguments one by one, whatever comes after. The
mark is reached as soon as there is an argument for each of them, so with enough arguments it is
noticed that it is in the wrong place, and with fewer it is not (`bindFormals_of_idxOf_le`).
-/

namespace QuoteLisp

/-- Where a name is given several values, the last one counts. -/
theorem Bindings.find?_insertEach (bound : Bindings) (names : List String) (values : List Value)
    (name : String) :
    (bound.insertEach names values).find? name
      = ((names.zip values).reverse.lookup name).or (bound.find? name) :=
  find?_foldl_insert (names.zip values) bound name

/-- Names for which there is no value are not bound. -/
theorem Bindings.insertEach_take (bound : Bindings) (names : List String) (values : List Value) :
    bound.insertEach (names.take values.length) values = bound.insertEach names values := by
  have hlength : (names.zip values).length ≤ values.length := by
    rw [List.length_zip]
    exact Nat.min_le_right _ _
  have hzip : (names.take values.length).zip (values.take values.length)
      = (names.zip values).take values.length := List.take_zipWith.symm
  rw [List.take_length, List.take_of_length_le hlength] at hzip
  rw [insertEach, hzip, insertEach]

variable {formals : List String} {args : List Value}

/-- With an argument for each formal before the variadic mark, what follows the mark decides. -/
theorem bindFormals_of_idxOf_le (hmark : variadicMark ∈ formals)
    (hle : formals.idxOf variadicMark ≤ args.length) (refusal : EvalError) (bound : Bindings) :
    bindFormals refusal formals args bound
      = bindRest (args.drop (formals.idxOf variadicMark))
          (bound.insertEach (formals.take (formals.idxOf variadicMark))
            (args.take (formals.idxOf variadicMark)))
          (formals.drop (formals.idxOf variadicMark + 1)) := by
  have hlt := List.idxOf_lt_length_iff.mpr hmark
  have hlength : (args.take (formals.idxOf variadicMark)).length = formals.idxOf variadicMark := by
    rw [List.length_take, Nat.min_eq_left hle]
  have happend := bindFormals_append (Nat.le_of_eq hlength) refusal
    (args.drop (formals.idxOf variadicMark)) bound
  rw [List.take_append_drop, ← Bindings.insertEach_take, hlength, List.drop_eq_getElem_cons hlt,
    List.getElem_idxOf] at happend
  rw [happend, bindFormals.eq_def]
  exact if_pos rfl

namespace Closure

variable {c : Closure} {count : Nat}

/-! ## The cases -/

/-- There are that many formals, and none is the variadic mark. -/
def Fills (c : Closure) (count : Nat) : Prop :=
  variadicMark ∉ c.formals ∧ count = c.formals.length

/-- That many arguments reach the variadic mark, and one formal follows it. -/
def Gathers (c : Closure) (count : Nat) : Prop :=
  c.formals.idxOf variadicMark + 2 = c.formals.length ∧ c.formals.idxOf variadicMark ≤ count

/-- That many arguments reach the variadic mark, and it is not followed by one formal. -/
def Misplaces (c : Closure) (count : Nat) : Prop :=
  variadicMark ∈ c.formals ∧ c.formals.idxOf variadicMark + 2 ≠ c.formals.length ∧
    c.formals.idxOf variadicMark ≤ count

instance (c : Closure) (count : Nat) : Decidable (c.Fills count) :=
  inferInstanceAs (Decidable (_ ∧ _))

instance (c : Closure) (count : Nat) : Decidable (c.Gathers count) :=
  inferInstanceAs (Decidable (_ ∧ _))

instance (c : Closure) (count : Nat) : Decidable (c.Misplaces count) :=
  inferInstanceAs (Decidable (_ ∧ _ ∧ _))

theorem Gathers.mem (h : c.Gathers count) : variadicMark ∈ c.formals := by
  refine List.idxOf_lt_length_iff.mp ?_
  have := h.1
  omega

/-- Every number of arguments falls under one of the cases. -/
theorem waits_or_completes_or_refuses (c : Closure) (count : Nat) :
    c.Waits count ∨ (c.Fills count ∨ c.Gathers count) ∨ c.Overflows count ∨ c.Misplaces count := by
  rw [waits_iff, Fills, Gathers, Overflows, Misplaces]
  by_cases hmark : variadicMark ∈ c.formals
  · by_cases hlt : count < c.formals.idxOf variadicMark
    · exact Or.inl hlt
    · by_cases hlast : c.formals.idxOf variadicMark + 2 = c.formals.length
      · exact Or.inr (Or.inl (Or.inr ⟨hlast, Nat.not_lt.mp hlt⟩))
      · exact Or.inr (Or.inr (Or.inr ⟨hmark, hlast, Nat.not_lt.mp hlt⟩))
  · rw [List.idxOf_eq_length_iff.mpr hmark]
    rcases Nat.lt_trichotomy count c.formals.length with hlt | heq | hgt
    · exact Or.inl hlt
    · exact Or.inr (Or.inl (Or.inl ⟨hmark, heq⟩))
    · exact Or.inr (Or.inr (Or.inl ⟨hmark, hgt⟩))

/-! ## What is bound -/

theorem take_of_fills (h : c.Fills args.length) :
    c.take args = .ok ([], (c.supply args).bound) := by
  obtain ⟨hmark, hlength⟩ := h
  have hle : args.length ≤ c.formals.idxOf variadicMark := by
    rw [List.idxOf_eq_length_iff.mpr hmark]
    exact Nat.le_of_eq hlength
  have happend := bindFormals_append hle (.tooManyArguments args.length c.formals.length) []
    c.bound
  rw [List.append_nil, hlength, List.drop_length] at happend
  rw [take, hlength, happend]
  rfl

theorem take_of_gathers (h : c.Gathers args.length) :
    ∃ rest, c.formals.getLast? = some rest ∧
      c.take args = .ok ([],
        (Bindings.insertEach c.bound (c.formals.take (c.formals.idxOf variadicMark))
            (args.take (c.formals.idxOf variadicMark))).insert rest
          (.qexpr (args.drop (c.formals.idxOf variadicMark)))) := by
  obtain ⟨hlast, hle⟩ := h
  -- the formal after the mark is the last one
  have hlt : c.formals.idxOf variadicMark + 1 < c.formals.length := by omega
  have hdrop : c.formals.drop (c.formals.idxOf variadicMark + 1)
      = [c.formals[c.formals.idxOf variadicMark + 1]] := by
    rw [List.drop_eq_getElem_cons hlt, List.drop_eq_nil_of_le (by omega)]
  refine ⟨c.formals[c.formals.idxOf variadicMark + 1], ?_, ?_⟩
  · rw [List.getLast?_eq_getElem?, show c.formals.length - 1 = c.formals.idxOf variadicMark + 1
      from by omega, List.getElem?_eq_getElem hlt]
  · rw [take, bindFormals_of_idxOf_le (Gathers.mem ⟨hlast, hle⟩) hle, hdrop]
    rfl

theorem take_of_misplaces (h : c.Misplaces args.length) :
    c.take args = .error .invalidVariadic := by
  obtain ⟨hmark, hlast, hle⟩ := h
  have hlength : (c.formals.drop (c.formals.idxOf variadicMark + 1)).length ≠ 1 := by
    have hlt := List.idxOf_lt_length_iff.mpr hmark
    rw [List.length_drop]
    omega
  rw [take, bindFormals_of_idxOf_le hmark hle]
  generalize c.formals.drop (c.formals.idxOf variadicMark + 1) = after at hlength ⊢
  obtain _ | ⟨rest, _ | ⟨other, others⟩⟩ := after
  · rfl
  · exact absurd rfl hlength
  · rfl

/-! ## What comes of it -/

variable {library : Library} {evaluate : Evaluator} {caller : ScopeId}

theorem apply_of_take {bound : Bindings} (h : c.take args = .ok ([], bound)) :
    c.apply evaluate caller args
      = Run.withScope ⟨bound, some caller⟩ fun own ↦ evaluate own (.sexpr c.body) := by
  rw [apply, h]

/-- **The number of arguments decides.** A closure that waits for more arguments results in the
closure that has taken these. With an argument for each formal, the body is evaluated as a form in a
scope of its own around which is the scope of the caller, and each formal is bound to its argument
there. With an argument for each formal before the variadic mark and one formal after it, that
formal is bound to the list of the other arguments, which may be empty. If there are more arguments
than formals, or the variadic mark is reached and not followed by one formal, the result is a
failure and nothing else happens. One of these is always the case, and what is bound to a formal
that occurs several times is the last of its arguments. -/
theorem apply_decided_by_count (c : Closure) (args : List Value) :
    (c.Waits args.length →
      (Function.closure c).apply library evaluate caller args
        = pure (.closure (c.formals.drop args.length) c.body
            (Bindings.insertEach c.bound c.formals args))) ∧
    (c.Fills args.length →
      (Function.closure c).apply library evaluate caller args
        = Run.withScope ⟨Bindings.insertEach c.bound c.formals args, some caller⟩
            fun own ↦ evaluate own (.sexpr c.body)) ∧
    (c.Gathers args.length →
      ∃ rest, c.formals.getLast? = some rest ∧
        (Function.closure c).apply library evaluate caller args
          = Run.withScope
              ⟨(Bindings.insertEach c.bound (c.formals.take (c.formals.idxOf variadicMark))
                  (args.take (c.formals.idxOf variadicMark))).insert rest
                (.qexpr (args.drop (c.formals.idxOf variadicMark))), some caller⟩
              fun own ↦ evaluate own (.sexpr c.body)) ∧
    (c.Overflows args.length →
      (Function.closure c).apply library evaluate caller args
        = pure (EvalError.tooManyArguments args.length c.formals.length).toValue) ∧
    (c.Misplaces args.length →
      (Function.closure c).apply library evaluate caller args
        = pure EvalError.invalidVariadic.toValue) ∧
    (c.Waits args.length ∨ (c.Fills args.length ∨ c.Gathers args.length) ∨
      c.Overflows args.length ∨ c.Misplaces args.length) ∧
    ∀ (names : List String) (values : List Value) (name : String),
      (Bindings.insertEach c.bound names values).find? name
        = ((names.zip values).reverse.lookup name).or (Bindings.find? c.bound name) := by
  refine ⟨apply_of_waits, fun h ↦ apply_of_take (take_of_fills h), fun h ↦ ?_,
    apply_of_overflows, fun h ↦ ?_, c.waits_or_completes_or_refuses args.length,
    Bindings.find?_insertEach c.bound⟩
  · obtain ⟨rest, hrest, htake⟩ := take_of_gathers h
    exact ⟨rest, hrest, apply_of_take htake⟩
  · change c.apply evaluate caller args = _
    rw [apply, take_of_misplaces h]

/-- One closure for each case: `x` twice gets the second argument, the rest of no arguments is the
empty list, and a misplaced mark is noticed when it is reached. -/
theorem apply_decided_by_count_of_each_case :
    (Function.closure ⟨["x", "&"], [.symbol "x"], []⟩).apply ⟨fun _ ↦ none⟩
          (eval ⟨fun _ ↦ none⟩ 2) globalScope []
        = pure (.closure ["x", "&"] [.symbol "x"] []) ∧
      (Function.closure ⟨["x", "x"], [.symbol "x"], []⟩).apply ⟨fun _ ↦ none⟩
          (eval ⟨fun _ ↦ none⟩ 2) globalScope [.number 1, .number 2] (Machine.start .empty)
        = .ok (.number 2, Machine.start .empty) ∧
      (Function.closure ⟨["x", "&", "y"], [.symbol "y"], []⟩).apply ⟨fun _ ↦ none⟩
          (eval ⟨fun _ ↦ none⟩ 2) globalScope [.number 1] (Machine.start .empty)
        = .ok (.qexpr [], Machine.start .empty) ∧
      (Function.closure ⟨["x"], [.symbol "x"], []⟩).apply ⟨fun _ ↦ none⟩
          (eval ⟨fun _ ↦ none⟩ 2) globalScope [.number 1, .number 2]
        = pure (EvalError.tooManyArguments 2 1).toValue ∧
      (Function.closure ⟨["x", "&"], [.symbol "x"], []⟩).apply ⟨fun _ ↦ none⟩
          (eval ⟨fun _ ↦ none⟩ 2) globalScope [.number 1]
        = pure EvalError.invalidVariadic.toValue := by
  refine ⟨(apply_decided_by_count ⟨["x", "&"], [.symbol "x"], []⟩ []).1 (by decide), ?_, ?_,
    (apply_decided_by_count ⟨["x"], [.symbol "x"], []⟩ [.number 1, .number 2]).2.2.2.1 (by decide),
    (apply_decided_by_count ⟨["x", "&"], [.symbol "x"], []⟩ [.number 1]).2.2.2.2.1 (by decide)⟩
  · rw [(apply_decided_by_count ⟨["x", "x"], [.symbol "x"], []⟩
      [.number 1, .number 2]).2.1 (by decide)]
    rfl
  · obtain ⟨rest, hrest, happly⟩ := (apply_decided_by_count ⟨["x", "&", "y"], [.symbol "y"], []⟩
      [.number 1]).2.2.1 (by decide)
    obtain rfl := Option.some.inj hrest
    rw [happly]
    rfl

end Closure

end QuoteLisp
