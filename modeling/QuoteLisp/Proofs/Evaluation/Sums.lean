import Mathlib.Algebra.BigOperators.Group.List.Basic
import QuoteLisp.Proofs.Evaluation.Arithmetic
import QuoteLisp.Proofs.Evaluation.Rules
import QuoteLisp.Proofs.Number.Wrapping
import QuoteLisp.Proofs.Scope.Store

/-!
# Sums and products, however they are arranged

A fold of additions or multiplications wraps around at every step, and the result is the number that
the exact sum or product wraps around to. An overflow on the way is made good by what comes later.
So the arguments may be given in any order, and any of them may be put together in a form of their
own (`Grouped`): the result is the same.

Addition and multiplication differ in their exact results only. What they have in common is that
the exact result of several lists, one after another, follows from those of the lists
(`Accumulates`).
-/

namespace QuoteLisp

namespace Arithmetic

/-! ## Exact results -/

theorem foldl_add (i : Int) (ns : List Int64) :
    ns.foldl (fun i n ↦ i + n.toInt) i = i + (ns.map Int64.toInt).sum :=
  foldl_eq_op_foldr add_zero add_assoc Int64.toInt i ns

theorem foldl_mul (i : Int) (ns : List Int64) :
    ns.foldl (fun i n ↦ i * n.toInt) i = i * (ns.map Int64.toInt).prod :=
  foldl_eq_op_foldr mul_one mul_assoc Int64.toInt i ns

theorem foldl_sub (i : Int) (ns : List Int64) :
    ns.foldl (fun i n ↦ i - n.toInt) i = i - (ns.map Int64.toInt).sum :=
  foldl_eq_op_foldr sub_zero sub_sub Int64.toInt i ns

theorem fold_add (x : Int64) (rest : List Int64) :
    add.fold (x :: rest) = .ok (Int64.ofInt ((x :: rest).map Int64.toInt).sum) := by
  have hfold : rest.foldlM add.step x
      = .ok (Int64.ofInt (rest.foldl (fun i n ↦ i + n.toInt) x.toInt)) :=
    foldlM_step_eq_ofInt (fun y _ i x hx ↦ ⟨x + y, rfl, hx.add (wraps_toInt y)⟩) x
  rw [fold_cons (by decide), hfold, foldl_add, List.map_cons, List.sum_cons]

theorem fold_mul (x : Int64) (rest : List Int64) :
    mul.fold (x :: rest) = .ok (Int64.ofInt ((x :: rest).map Int64.toInt).prod) := by
  have hfold : rest.foldlM mul.step x
      = .ok (Int64.ofInt (rest.foldl (fun i n ↦ i * n.toInt) x.toInt)) :=
    foldlM_step_eq_ofInt (fun y _ i x hx ↦ ⟨x * y, rfl, hx.mul (wraps_toInt y)⟩) x
  rw [fold_cons (by decide), hfold, foldl_mul, List.map_cons, List.prod_cons]

/-- Subtraction takes the sum of the other numbers from the first, if there are others. -/
theorem fold_sub {rest : List Int64} (hrest : rest ≠ []) (x : Int64) :
    sub.fold (x :: rest) = .ok (Int64.ofInt (x.toInt - (rest.map Int64.toInt).sum)) := by
  have hfold : rest.foldlM sub.step x
      = .ok (Int64.ofInt (rest.foldl (fun i n ↦ i - n.toInt) x.toInt)) :=
    foldlM_step_eq_ofInt (fun y _ i x hx ↦ ⟨x - y, rfl, hx.sub (wraps_toInt y)⟩) x
  rw [foldl_sub] at hfold
  obtain ⟨y, ys, rfl⟩ := List.exists_cons_of_ne_nil hrest
  exact hfold

/-! ## What addition and multiplication have in common -/

/-- The operation gives the numbers that some exact totals wrap around to, and the total of several
lists, one after another, follows from those of the lists, whatever their order. -/
structure Accumulates (operation : Arithmetic) (total : List Int64 → Int) : Prop where
  fold_eq (x : Int64) (rest : List Int64) :
    operation.fold (x :: rest) = .ok (Int64.ofInt (total (x :: rest)))
  total_singleton (n : Int64) : total [n] = n.toInt
  total_perm {ms ns : List Int64} : ms.Perm ns → total ms = total ns
  total_append {ms ms' ns ns' : List Int64} : total ms ≡ total ms' [ZMOD 2 ^ 64] →
    total ns ≡ total ns' [ZMOD 2 ^ 64] → total (ms ++ ns) ≡ total (ms' ++ ns') [ZMOD 2 ^ 64]

theorem accumulates_add : Accumulates add fun ns ↦ (ns.map Int64.toInt).sum where
  fold_eq := fold_add
  total_singleton n := add_zero n.toInt
  total_perm hperm := (hperm.map Int64.toInt).sum_eq
  total_append hms hns := by
    rw [List.map_append, List.map_append, List.sum_append, List.sum_append]
    exact hms.add hns

theorem accumulates_mul : Accumulates mul fun ns ↦ (ns.map Int64.toInt).prod where
  fold_eq := fold_mul
  total_singleton n := mul_one n.toInt
  total_perm hperm := (hperm.map Int64.toInt).prod_eq
  total_append hms hns := by
    rw [List.map_append, List.map_append, List.prod_append, List.prod_append]
    exact hms.mul hns

/-! ## Arguments in groups -/

/-- Cells that are numbers or forms which apply the operation to one or more cells of this kind,
and all the numbers in them from left to right. -/
inductive Grouped (operation : Arithmetic) : List Value → List Int64 → Prop
  | nil : Grouped operation [] []
  | number {n : Int64} {vs : List Value} {ns : List Int64} :
      Grouped operation vs ns → Grouped operation (.number n :: vs) (n :: ns)
  | form {parts vs : List Value} {ms ns : List Int64} : parts ≠ [] →
      Grouped operation parts ms → Grouped operation vs ns →
      Grouped operation
        (.sexpr (.symbol (Primitive.arithmetic operation).name :: parts) :: vs) (ms ++ ns)

section

variable {operation : Arithmetic} {library : Library} {scope : ScopeId} {m m' : Machine}

/-- A form that applies the operation to cells whose values are numbers. -/
theorem derives_application
    (hbound : m.store.lookup? scope (Primitive.arithmetic operation).name
      = some (.primitive (.arithmetic operation)))
    {parts : List Value} {x n : Int64} {rest : List Int64}
    (hparts : Derives library scope (.cells parts) m ((x :: rest).map .number) m')
    (hfold : operation.fold (x :: rest) = .ok n) :
    Derives library scope (.value (.sexpr (.symbol (Primitive.arithmetic operation).name :: parts)))
      m [.number n] m' := by
  refine .give (.cell (.bound hbound) hparts) ?_
  have hnumbers : ∀ v ∈ (x :: rest).map Value.number, v.isError = false := by
    intro v hv
    obtain ⟨y, -, rfl⟩ := List.mem_map.mp hv
    rfl
  have hrequest : (Primitive.arithmetic operation).request ((x :: rest).map .number)
      = .ok (.give (.number n)) := by
    rw [Primitive.request, apply_map_number hfold]
    rfl
  have haction : actionOf ((Function.primitive (.arithmetic operation)).toValue ::
      (x :: rest).map .number) = _ := actionOf_application hnumbers
  exact haction.trans (Primitive.action_of_request hrequest)

variable {total : List Int64 → Int}

/-- The values of cells in groups have the total of all the numbers in them. -/
theorem Grouped.exists_derives (haccumulates : Accumulates operation total)
    (hbound : m.store.lookup? scope (Primitive.arithmetic operation).name
      = some (.primitive (.arithmetic operation)))
    {vs : List Value} {ns : List Int64} (h : Grouped operation vs ns) :
    ∃ rs : List Int64, Derives library scope (.cells vs) m (rs.map .number) m ∧
      (vs ≠ [] → rs ≠ []) ∧ total rs ≡ total ns [ZMOD 2 ^ 64] := by
  induction h with
  | nil => exact ⟨[], .noCells, fun h ↦ absurd rfl h, Int.ModEq.refl _⟩
  | @number n vs ns _ ih =>
    obtain ⟨rs, hvs, -, htotal⟩ := ih
    refine ⟨n :: rs, .cell (.inert trivial) hvs, fun _ ↦ List.cons_ne_nil _ _, ?_⟩
    exact haccumulates.total_append (Int.ModEq.refl (total [n])) htotal
  | @form parts vs ms ns hne _ _ ihparts ihvs =>
    obtain ⟨qs, hparts, hqs, hpartsTotal⟩ := ihparts
    obtain ⟨rs, hvs, -, htotal⟩ := ihvs
    obtain ⟨x, rest, rfl⟩ := List.exists_cons_of_ne_nil (hqs hne)
    refine ⟨Int64.ofInt (total (x :: rest)) :: rs,
      .cell (derives_application hbound hparts (haccumulates.fold_eq x rest)) hvs,
      fun _ ↦ List.cons_ne_nil _ _, ?_⟩
    have hvalue : total [Int64.ofInt (total (x :: rest))] ≡ total ms [ZMOD 2 ^ 64] := by
      rw [haccumulates.total_singleton]
      exact (wraps_ofInt _).trans hpartsTotal
    exact haccumulates.total_append hvalue htotal

end

/-- Cells in groups hold numbers unless there are no cells. -/
theorem Grouped.ne_nil {operation : Arithmetic} {vs : List Value} {ns : List Int64}
    (h : Grouped operation vs ns) (hns : ns ≠ []) : vs ≠ [] := by
  rintro rfl
  cases h
  exact hns rfl

/-! ## Any arrangement -/

/-- The operation results in the number, in whichever order the arguments are given and however
they are put together in groups. -/
def ReturnsHoweverArranged (operation : Arithmetic) (args : List Int64) (n : Int64) : Prop :=
  ∀ ns : List Int64, ns.Perm args →
    operation.Returns (ns.map .number) (.number n) ∧
    ∀ (library : Library) (scope : ScopeId) (m : Machine) (parts : List Value),
      m.store.lookup? scope (Primitive.arithmetic operation).name
        = some (.primitive (.arithmetic operation)) →
      Grouped operation parts ns →
      Evaluates library scope
        (.sexpr (.symbol (Primitive.arithmetic operation).name :: parts)) m (.number n) m

theorem Accumulates.returnsHoweverArranged {operation : Arithmetic} {total : List Int64 → Int}
    (h : Accumulates operation total) {args : List Int64} (hargs : args ≠ []) :
    operation.ReturnsHoweverArranged args (Int64.ofInt (total args)) := by
  intro ns hperm
  have hns : ns ≠ [] := fun heq ↦ hargs (List.nil_perm.mp (heq ▸ hperm))
  rw [← h.total_perm hperm]
  refine ⟨?_, fun library scope m parts hbound hparts ↦ ?_⟩
  · obtain ⟨x, rest, rfl⟩ := List.exists_cons_of_ne_nil hns
    exact returns_number (h.fold_eq x rest)
  · have hcells : ∃ rs : List Int64, Derives library scope (.cells parts) m (rs.map .number) m ∧
        (parts ≠ [] → rs ≠ []) ∧ total rs ≡ total ns [ZMOD 2 ^ 64] :=
      hparts.exists_derives h hbound
    obtain ⟨rs, hcells, hrs, htotal⟩ := hcells
    obtain ⟨x, rest, rfl⟩ := List.exists_cons_of_ne_nil (hrs (hparts.ne_nil hns))
    have hwraps : Wraps (total ns) (Int64.ofInt (total (x :: rest))) :=
      (wraps_ofInt _).trans htotal
    rw [← hwraps.eq_ofInt]
    exact evaluates_iff_derives.mpr (derives_application hbound hcells (h.fold_eq x rest))

/-- **Wrapping at every step is wrapping once.** The result of an addition or a multiplication is
the number that the exact sum or product wraps around to, in whichever order the arguments are given
and however they are put together in groups. A subtraction results in the number that the opposite
of the only argument wraps around to, or else the difference between the first argument and the sum
of the others, in whichever order those are given. Any of the six operations refuses arguments that
are not all numbers, on account of the leftmost that is none. -/
theorem wraps_once :
    (∀ (x : Int64) (rest : List Int64), ∃ n,
      Wraps ((x :: rest).map Int64.toInt).sum n ∧ add.ReturnsHoweverArranged (x :: rest) n) ∧
    (∀ (x : Int64) (rest : List Int64), ∃ n,
      Wraps ((x :: rest).map Int64.toInt).prod n ∧ mul.ReturnsHoweverArranged (x :: rest) n) ∧
    (∀ x : Int64, ∃ n, Wraps (-x.toInt) n ∧ sub.Returns [.number x] (.number n)) ∧
    (∀ (x y : Int64) (rest : List Int64), ∃ n,
      Wraps (x.toInt - ((y :: rest).map Int64.toInt).sum) n ∧
        ∀ others : List Int64, others.Perm (y :: rest) →
          sub.Returns ((x :: others).map .number) (.number n)) ∧
    ∀ (operation : Arithmetic) (args : List Value), (∃ v ∈ args, ∀ n, v ≠ .number n) →
      ∃ (ns : List Int64) (v : Value) (others : List Value),
        args = ns.map .number ++ v :: others ∧ (∀ n, v ≠ .number n) ∧
          operation.Returns args
            (EvalError.wrongType (Primitive.arithmetic operation).name ns.length v.kindName
              "Number").toValue := by
  refine ⟨fun x rest ↦ ?_, fun x rest ↦ ?_, fun x ↦ ?_, fun x y rest ↦ ?_,
    fun operation args hargs ↦ ?_⟩
  · exact ⟨_, wraps_ofInt _, accumulates_add.returnsHoweverArranged (List.cons_ne_nil x rest)⟩
  · exact ⟨_, wraps_ofInt _, accumulates_mul.returnsHoweverArranged (List.cons_ne_nil x rest)⟩
  · have hfold : sub.fold [x] = .ok (-x) := rfl
    exact ⟨-x, (wraps_toInt x).neg, returns_number hfold⟩
  · refine ⟨_, wraps_ofInt _, fun others hperm ↦ returns_number ?_⟩
    have hothers : others ≠ [] := fun heq ↦ List.cons_ne_nil y rest
      (List.nil_perm.mp (heq ▸ hperm))
    rw [fold_sub hothers, (hperm.map Int64.toInt).sum_eq]
  · obtain ⟨ns, v, others, rfl, hv⟩ := exists_append_of_not_number hargs
    exact ⟨ns, v, others, rfl, hv, returns_wrongType hv operation ns others⟩

/-- An overflow that is made good, in a form of its own and not, and a text after a divisor that is
zero. -/
theorem wraps_once_of_overflow :
    add.Returns [.number Int64.maxValue, .number 1, .number (-2)]
        (.number (Int64.maxValue - 1)) ∧
      Evaluates ⟨fun _ ↦ none⟩ globalScope
        (.sexpr [.symbol "+", .number (-2),
          .sexpr [.symbol "+", .number Int64.maxValue, .number 1]])
        (Machine.start .empty) (.number (Int64.maxValue - 1)) (Machine.start .empty) ∧
      mul.Returns [.number Int64.minValue, .number (-1), .number 2] (.number 0) ∧
      sub.Returns [.number Int64.minValue] (.number Int64.minValue) ∧
      sub.Returns [.number 1, .number Int64.maxValue, .number 3] (.number Int64.maxValue) ∧
      div.Returns [.number 1, .number 0, .string "a"]
        (EvalError.wrongType "/" 2 "String" "Number").toValue := by
  obtain ⟨hadd, hmul, hneg, hsub, hrefuse⟩ := wraps_once
  obtain ⟨n, hn, hsum⟩ := hadd Int64.maxValue [1, -2]
  obtain rfl := hn.unique (by decide : Wraps _ (Int64.maxValue - 1))
  refine ⟨(hsum [Int64.maxValue, 1, -2] (List.Perm.refl _)).1, ?_, ?_, ?_, ?_, ?_⟩
  · have hgrouped : Grouped add [.number (-2), .sexpr [.symbol "+", .number Int64.maxValue,
        .number 1]] [-2, Int64.maxValue, 1] :=
      .number (.form (List.cons_ne_nil _ _) (.number (.number .nil)) .nil)
    exact (hsum [-2, Int64.maxValue, 1] (by decide)).2 _ _ _ _ (lookup?_start _ .empty) hgrouped
  · obtain ⟨n, hn, hproduct⟩ := hmul Int64.minValue [-1, 2]
    obtain rfl := hn.unique (by decide : Wraps _ 0)
    exact (hproduct _ (List.Perm.refl _)).1
  · obtain ⟨n, hn, hresult⟩ := hneg Int64.minValue
    obtain rfl := hn.unique (by decide : Wraps _ Int64.minValue)
    exact hresult
  · obtain ⟨n, hn, hdifference⟩ := hsub 1 3 [Int64.maxValue]
    obtain rfl := hn.unique (by decide : Wraps _ Int64.maxValue)
    exact hdifference [Int64.maxValue, 3] (by decide)
  · obtain ⟨ns, v, others, heq, hv, hresult⟩ := hrefuse div [.number 1, .number 0, .string "a"]
      ⟨.string "a", by simp, fun n h ↦ Value.noConfusion h⟩
    -- the text is the only argument that can be the one refused
    obtain _ | ⟨i, _ | ⟨j, _ | ⟨k, ns⟩⟩⟩ := ns
    · obtain ⟨rfl, -⟩ := List.cons.inj heq
      exact absurd rfl (hv 1)
    · obtain ⟨-, rfl, -⟩ : _ ∧ Value.number 0 = v ∧ _ := by simpa using heq
      exact absurd rfl (hv 0)
    · obtain ⟨-, -, rfl, -⟩ : _ ∧ _ ∧ Value.string "a" = v ∧ _ := by simpa using heq
      exact hresult
    · simp at heq

end Arithmetic

end QuoteLisp
