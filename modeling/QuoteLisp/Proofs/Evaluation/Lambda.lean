import QuoteLisp.Proofs.Evaluation.Rules
import QuoteLisp.Proofs.Scope.Store
import QuoteLisp.Proofs.Value.ReadBack

/-!
# Closures are printed as expressions that make them

The text of a closure is the text of an expression (`Closure.expression`): a form that applies the
symbol of the lambda operation to the formals that are left and to the body. So if the formals and
the body can be written in a source, the text reads back as that expression, and evaluating it makes
a closure with the same formals and the same body. The names that the closure has bound are not in
its text, and they take no part when closures are compared.
-/

namespace QuoteLisp

open Value

variable {library : Library} {scope : ScopeId} {m m' : Machine} {a : Value}

/-! ## Making a closure -/

/-- Symbols have the names that they were made from. -/
theorem Arguments.names_map_symbol (refuse : String → EvalError) (formals : List String) :
    Arguments.names refuse (formals.map symbol) = .ok formals := by
  induction formals with
  | nil => rfl
  | cons formal formals ih =>
    rw [Arguments.names] at ih ⊢
    rw [List.map_cons, List.mapM_cons, ih]
    rfl

theorem lambdaOf_map_symbol (formals : List String) (body : List Value) :
    lambdaOf [qexpr (formals.map symbol), qexpr body] = .ok (closure formals body []) := by
  change (do
    return .closure (← Arguments.names .nonSymbolFormal (formals.map symbol)) body [] :
      Checked Value) = _
  rw [Arguments.names_map_symbol]
  rfl

namespace Closure

/-- The expression that makes a closure with these formals and this body. -/
def expression (c : Closure) : Value :=
  sexpr [symbol Primitive.lambda.name, qexpr (c.formals.map symbol), qexpr c.body]

variable {c : Closure}

/-- Where the symbol of the lambda operation stands for it, the expression makes the closure and
does nothing else. -/
theorem evaluates_expression_iff
    (hlambda : m.store.lookup? scope Primitive.lambda.name = some (primitive .lambda)) :
    Evaluates library scope c.expression m a m' ↔ a = closure c.formals c.body [] ∧ m' = m := by
  have hrequest : Primitive.lambda.request [qexpr (c.formals.map symbol), qexpr c.body]
      = .ok (.give (closure c.formals c.body [])) := by
    rw [Primitive.request, lambdaOf_map_symbol]
    rfl
  have haction : actionOf [primitive .lambda, qexpr (c.formals.map symbol), qexpr c.body]
      = .request (.give (closure c.formals c.body [])) :=
    Primitive.action_of_request hrequest
  have hmakes : Evaluates library scope c.expression m (closure c.formals c.body []) m :=
    evaluates_iff_derives.mpr (.give (.cell (.bound hlambda)
      (.cell (.inert trivial) (.cell (.inert trivial) .noCells))) haction)
  constructor
  · exact fun h ↦ h.unique hmakes
  · rintro ⟨rfl, rfl⟩
    exact hmakes

/-! ## The text of a closure -/

/-- A closure is printed like its expression. -/
theorem chars_expression (c : Closure) :
    c.expression.chars = (Function.closure c).toValue.chars := by
  have hsymbol : (symbol Primitive.lambda.name).chars = ['\\'] := rfl
  have hformals : charsAll (c.formals.map symbol) = c.formals.map String.toList := by
    rw [charsAll_eq_map, List.map_map]
    exact List.map_congr_left fun _ _ ↦ rfl
  rw [expression, Function.toValue, chars_closure, chars_sexpr, charsAll, charsAll, charsAll,
    charsAll, spaced_cons_cons, spaced_cons_cons, spaced_singleton, hsymbol, chars_qexpr,
    chars_qexpr, hformals]
  simp only [List.cons_append, List.nil_append, List.append_assoc]

theorem readable_expression (hformals : ∀ name ∈ c.formals, IsName name.toList)
    (hbody : ∀ v ∈ c.body, v.Readable) : c.expression.Readable := by
  have hsymbols : ∀ v ∈ c.formals.map symbol, v.Readable := by
    intro v hv
    obtain ⟨name, hname, rfl⟩ := List.mem_map.mp hv
    exact .symbol (hformals name hname)
  refine .sexpr fun v hv ↦ ?_
  simp only [List.mem_cons, List.not_mem_nil, or_false] at hv
  rcases hv with rfl | rfl | rfl
  · exact .symbol (by decide)
  · exact .qexpr hsymbols
  · exact .qexpr hbody

/-- **A printed closure evaluates to an equal closure.** Let the formals that a closure waits for be
names and let its body be such that it can be written. Then the text of the closure parses and reads
as one form. Wherever `\` stands for the lambda operation, the evaluation of that form ends, changes
nothing and writes nothing. It results in the closure with the same formals and body that has
bound nothing, which is equal to the closure that was printed. -/
theorem evaluates_display (hformals : ∀ name ∈ c.formals, IsName name.toList)
    (hbody : ∀ v ∈ c.body, v.Readable) (file : String) :
    ∃ root form, Node.parse (Function.closure c).toValue.display file = .ok root ∧
      ofNode root = sexpr [form] ∧
      (∀ library scope m, m.store.lookup? scope "\\" = some (primitive .lambda) →
        ∀ a m', Evaluates library scope form m a m' ↔
          a = closure c.formals c.body [] ∧ m' = m) ∧
      (closure c.formals c.body [] == (Function.closure c).toValue) = true := by
  have hreads : ReadsAs (Function.closure c).toValue.display.toList [c.expression] := by
    rw [display, String.toList_ofList, ← chars_expression]
    exact readsAs_chars (readable_expression hformals hbody)
  obtain ⟨root, hparse, hroot⟩ := hreads.exists_parse file
  refine ⟨root, c.expression, hparse, hroot,
    fun library scope m hlambda a m' ↦ evaluates_expression_iff hlambda, ?_⟩
  exact same_self (closure c.formals c.body [])

/-- A closure that has taken one argument and waits for any number of others. -/
theorem evaluates_display_of_partial_application :
    ∃ root form, Node.parse (closure ["&", "--5"] [symbol "list", qexpr [number (-5)],
        string "\"\\\n"] [("x", number 1)]).display "a.lspy" = .ok root ∧
      ofNode root = sexpr [form] ∧
      Evaluates ⟨fun _ ↦ none⟩ globalScope form (Machine.start .empty)
        (closure ["&", "--5"] [symbol "list", qexpr [number (-5)], string "\"\\\n"] [])
        (Machine.start .empty) := by
  obtain ⟨root, form, hparse, hroot, heval, -⟩ := @evaluates_display
    ⟨["&", "--5"], [symbol "list", qexpr [number (-5)], string "\"\\\n"], [("x", number 1)]⟩
    (by decide) (by simp +decide) "a.lspy"
  refine ⟨root, form, hparse, hroot, ?_⟩
  exact (heval _ _ _ (lookup?_start .lambda .empty) _ _).mpr ⟨rfl, rfl⟩

end Closure

end QuoteLisp
