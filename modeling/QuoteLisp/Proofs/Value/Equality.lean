import QuoteLisp.Proofs.Value.ReadBack
import QuoteLisp.Value.Equality

/-!
# What equality looks at

When closures are compared, the arguments that they already have take no part. So equality looks at
the skeleton of a value, in which no closure has bound anything, and values are equal exactly when
their skeletons are the same (`Value.beq_iff`). What does not depend on bindings is therefore the
same for equal values, and that goes for the text of a value and the name of its kind.

A value with another one put somewhere into it is a `Value.Context` that is filled. Its skeleton is
made from the skeleton of what it is filled with, so equal values can be put in place of one another
(`Value.Context.fill_beq_fill`).

The other way round a text does not tell a value, since all primitive operations have the same. It
does where the text can be read back (`Value.Readable.eq_of_display_eq`).
-/

namespace QuoteLisp.Value

/-! ## Other bindings -/

mutual

/-- The value with a change made to what its closures have bound, at whatever depth they are. -/
def rebind (change : List (String × Value) → List (String × Value)) : Value → Value
  | sexpr cells => sexpr (rebindAll change cells)
  | qexpr cells => qexpr (rebindAll change cells)
  | closure formals body bound => closure formals (rebindAll change body) (change bound)
  | v => v

/-- Several values with the change made to each. -/
def rebindAll (change : List (String × Value) → List (String × Value)) : List Value → List Value
  | [] => []
  | v :: vs => rebind change v :: rebindAll change vs

end

/-- The value without anything that its closures have bound. -/
def skeleton (v : Value) : Value :=
  v.rebind fun _ ↦ []

/-- Several values without anything that their closures have bound. -/
def skeletons (vs : List Value) : List Value :=
  rebindAll (fun _ ↦ []) vs

variable {v w : Value}

@[simp] theorem skeleton_sexpr (cells : List Value) :
    (sexpr cells).skeleton = sexpr (skeletons cells) := rfl

@[simp] theorem skeleton_qexpr (cells : List Value) :
    (qexpr cells).skeleton = qexpr (skeletons cells) := rfl

@[simp] theorem skeleton_closure (formals : List String) (body : List Value)
    (bound : List (String × Value)) :
    (closure formals body bound).skeleton = closure formals (skeletons body) [] := rfl

theorem rebindAll_eq_map (change : List (String × Value) → List (String × Value))
    (vs : List Value) : rebindAll change vs = vs.map (rebind change) := by
  induction vs with
  | nil => rfl
  | cons v vs ih => rw [rebindAll, ih, List.map_cons]

theorem skeletons_eq_map (vs : List Value) : skeletons vs = vs.map skeleton :=
  rebindAll_eq_map _ vs

mutual

/-- The skeleton does not depend on what is bound. -/
theorem skeleton_rebind (change : List (String × Value) → List (String × Value)) :
    ∀ v : Value, (v.rebind change).skeleton = v.skeleton
  | sexpr cells => congrArg sexpr (skeletons_rebindAll change cells)
  | qexpr cells => congrArg qexpr (skeletons_rebindAll change cells)
  | closure formals body _ => congrArg (closure formals · []) (skeletons_rebindAll change body)
  | number _ | error _ | symbol _ | string _ | primitive _ | exit => rfl

theorem skeletons_rebindAll (change : List (String × Value) → List (String × Value)) :
    ∀ vs : List Value, skeletons (rebindAll change vs) = skeletons vs
  | [] => rfl
  | v :: vs => List.cons_eq_cons.mpr ⟨skeleton_rebind change v, skeletons_rebindAll change vs⟩

end

mutual

/-- The text of a value does not depend on what is bound. -/
theorem chars_rebind (change : List (String × Value) → List (String × Value)) :
    ∀ v : Value, (v.rebind change).chars = v.chars
  | sexpr cells => by rw [rebind, chars_sexpr, chars_sexpr, charsAll_rebindAll change cells]
  | qexpr cells => by rw [rebind, chars_qexpr, chars_qexpr, charsAll_rebindAll change cells]
  | closure formals body _ => by
    rw [rebind, chars_closure, chars_closure, charsAll_rebindAll change body]
  | number _ | error _ | symbol _ | string _ | primitive _ | exit => by simp only [rebind]

theorem charsAll_rebindAll (change : List (String × Value) → List (String × Value)) :
    ∀ vs : List Value, charsAll (rebindAll change vs) = charsAll vs
  | [] => rfl
  | v :: vs => by
    rw [rebindAll, charsAll, charsAll, chars_rebind change v, charsAll_rebindAll change vs]

end

theorem kindName_rebind (change : List (String × Value) → List (String × Value)) (v : Value) :
    (v.rebind change).kindName = v.kindName := by
  cases v <;> rfl

/-! ## Skeletons are compared -/

mutual

theorem same_iff : ∀ v w : Value, same v w = true ↔ v.skeleton = w.skeleton
  | sexpr cells, w => by
    cases w with
    | sexpr cells' => simp [same, sameAll_iff cells cells']
    | _ => simp [same, skeleton, rebind]
  | qexpr cells, w => by
    cases w with
    | qexpr cells' => simp [same, sameAll_iff cells cells']
    | _ => simp [same, skeleton, rebind]
  | closure formals body _, w => by
    cases w with
    | closure formals' body' _ => simp [same, sameAll_iff body body']
    | _ => simp [same, skeleton, rebind]
  | number _, w | error _, w | symbol _, w | string _, w | primitive _, w | exit, w => by
    cases w <;> simp [same, skeleton, rebind]

theorem sameAll_iff : ∀ vs ws : List Value, sameAll vs ws = true ↔ skeletons vs = skeletons ws
  | [], [] => by simp [sameAll]
  | [], w :: ws => by simp [sameAll, skeletons, rebindAll]
  | v :: vs, [] => by simp [sameAll, skeletons, rebindAll]
  | v :: vs, w :: ws => by
    rw [sameAll, Bool.and_eq_true, same_iff v w, sameAll_iff vs ws, skeletons_eq_map,
      skeletons_eq_map, skeletons_eq_map, skeletons_eq_map, List.map_cons, List.map_cons,
      List.cons_eq_cons]

end

/-- Values are equal exactly when their skeletons are the same. -/
theorem beq_iff : (v == w) = true ↔ v.skeleton = w.skeleton :=
  same_iff v w

theorem display_eq_of_beq (h : (v == w) = true) : v.display = w.display := by
  rw [display, display, ← chars_rebind (fun _ ↦ []) v, ← chars_rebind (fun _ ↦ []) w]
  exact congrArg (String.ofList ·.chars) (beq_iff.mp h)

theorem kindName_eq_of_beq (h : (v == w) = true) : v.kindName = w.kindName := by
  rw [← kindName_rebind (fun _ ↦ []) v, ← kindName_rebind (fun _ ↦ []) w]
  exact congrArg kindName (beq_iff.mp h)

/-! ## One value in place of another -/

/-- A form or a closure with a place left open, among its cells or the cells of its body or deeper
in one of them. -/
inductive Context where
  | hole
  | sexpr (before : List Value) (inside : Context) (after : List Value)
  | qexpr (before : List Value) (inside : Context) (after : List Value)
  | body (formals : List String) (before : List Value) (inside : Context) (after : List Value)
      (bound : List (String × Value))

namespace Context

/-- The value with another one in the place left open. -/
def fill (v : Value) : Context → Value
  | hole => v
  | sexpr before inside after => .sexpr (before ++ inside.fill v :: after)
  | qexpr before inside after => .qexpr (before ++ inside.fill v :: after)
  | body formals before inside after bound =>
    .closure formals (before ++ inside.fill v :: after) bound

/-- Equal values can be put in place of one another. -/
theorem fill_beq_fill (h : (v == w) = true) (context : Context) :
    (context.fill v == context.fill w) = true := by
  rw [beq_iff] at h ⊢
  induction context with
  | hole => exact h
  | sexpr before inside after ih | qexpr before inside after ih
  | body formals before inside after bound ih => simp [fill, skeletons_eq_map, ih]

end Context

/-! ## Texts that tell values apart -/

/-- Values that can be read back from their text are the same if their text is. -/
theorem Readable.eq_of_display_eq (hv : v.Readable) (hw : w.Readable)
    (h : v.display = w.display) : v = w := by
  have hreads {u : Value} (hu : u.Readable) : ReadsAs u.display.toList [u] := by
    rw [display, String.toList_ofList]
    exact readsAs_chars hu
  obtain ⟨root, hparse, hroot⟩ := (hreads hv).exists_parse standardInput
  obtain ⟨root', hparse', hroot'⟩ := (hreads hw).exists_parse standardInput
  -- both values are what is read from the one text
  rw [h, hparse'] at hparse
  obtain rfl := Except.ok.inj hparse
  rw [hroot] at hroot'
  exact List.singleton_inj.mp (sexpr.inj hroot')

/-- **Equality is a congruence that printing respects.** Equality of values is reflexive, symmetric
and transitive, and a value is equal to any copy of it, whatever the closures in the copy have
bound. Equal values have the same text and the same kind, and one may be put in place of the other
anywhere in a form or in the body of a closure. A form in parentheses is never equal to one in
braces. Numbers, strings, symbols with a name that can be written and forms of these are the same
already when their texts are. -/
theorem beq_congruence_and_display :
    (∀ a : Value, (a == a) = true) ∧
    (∀ a b : Value, (a == b) = true → (b == a) = true) ∧
    (∀ a b c : Value, (a == b) = true → (b == c) = true → (a == c) = true) ∧
    (∀ (a : Value) (change : List (String × Value) → List (String × Value)),
      (a.rebind change == a) = true) ∧
    (∀ a b : Value, (a == b) = true → a.display = b.display ∧ a.kindName = b.kindName ∧
      ∀ context : Context, (context.fill a == context.fill b) = true) ∧
    (∀ cells cells' : List Value, (sexpr cells == qexpr cells') = false ∧
      (qexpr cells == sexpr cells') = false) ∧
    ∀ a b : Value, a.Readable → b.Readable → a.display = b.display → a = b := by
  refine ⟨same_self, fun a b h ↦ ?_, fun a b c h h' ↦ ?_, fun a change ↦ ?_, fun a b h ↦ ?_,
    fun _ _ ↦ ⟨rfl, rfl⟩, fun a b ha hb ↦ ha.eq_of_display_eq hb⟩
  · exact beq_iff.mpr (beq_iff.mp h).symm
  · exact beq_iff.mpr ((beq_iff.mp h).trans (beq_iff.mp h'))
  · exact beq_iff.mpr (skeleton_rebind change a)
  · exact ⟨display_eq_of_beq h, kindName_eq_of_beq h, Context.fill_beq_fill h⟩

/-- Two closures, one of which has bound a name, in the body of a third one, and a form whose text
has a minus sign before a negative number. -/
theorem beq_congruence_and_display_of_closures :
    (closure ["x"] [symbol "y"] [("y", number 1)] == closure ["x"] [symbol "y"] []) = true ∧
      (closure [] [qexpr [number 2, closure ["x"] [symbol "y"] [("y", number 1)]]] [] ==
        closure [] [qexpr [number 2, closure ["x"] [symbol "y"] []]] []) = true ∧
      sexpr [symbol "-", number (2 - 7), string "\""]
        = sexpr [symbol "-", number (-5), string "\""] := by
  have hclosures :
      (closure ["x"] [symbol "y"] [("y", number 1)] == closure ["x"] [symbol "y"] []) = true := by
    decide
  refine ⟨hclosures, ?_, ?_⟩
  · exact (beq_congruence_and_display.2.2.2.2.1 _ _ hclosures).2.2
      (.body [] [] (.qexpr [number 2] .hole []) [] [])
  · exact beq_congruence_and_display.2.2.2.2.2.2 _ _ (by simp +decide) (by simp +decide) rfl

end QuoteLisp.Value
