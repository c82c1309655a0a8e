import QuoteLisp.Proofs.Node.BracketMachine

/-!
# Reading by descent

The reader keeps no stack: a form that is open is a call that has not returned. The bracket machine
keeps its stack in plain sight and builds no tree. That the two agree is said call by call. A call
that returns has read a piece of the grammar, and a call that fails has found the failure that the
machine comes to on the same tokens, from whatever stack it starts. So both outcomes of a call can
be used within any form, and the trees and the errors come out of one induction along the descent.

From this `Node.ofTokens_refines_bracketMachine` says what becomes of a list of tokens: whether it
has a tree and which, and else what the report of the error is.
-/

namespace QuoteLisp

/-- An item begins with an atom or an opening bracket. -/
def Lexeme.BeginsItem : Lexeme → Prop
  | atom _ _ | opening _ => True
  | closing _ | endMark => False

namespace Node

open QuoteLisp.Bracket

/-! ## In step with the machine -/

section

variable {endToken : Token} {after : List Token}

/-- What reading an expression has to come to, of whose tokens `inner` come before the end mark: the
expression of the grammar, or the first failure of the machine from whatever stack it starts. -/
def ExpressionInStep (endToken : Token) (after : List Token) (token : Token) (inner : List Token) :
    Except SyntaxError (Node × Rest (inner ++ endToken :: after)) → Prop
  | .ok (node, rest) =>
    ∃ left, rest.val = left ++ endToken :: after ∧ Reads (token :: inner) [node] left
  | .error error => ∀ stack, syntaxError? endToken (run stack (token :: inner)) = some error

/-- The same for the rest of a form, whose bracket is on the stack of the machine. -/
def FormInStep (endToken : Token) (after : List Token) (bracket : Bracket) (opening : Span)
    (before : List Node) (inner : List Token) :
    Except SyntaxError (Node × Rest (inner ++ endToken :: after)) → Prop
  | .ok (node, rest) =>
    ∃ items closing left, rest.val = left ++ endToken :: after ∧
      Reads inner items (⟨.closing bracket, closing⟩ :: left) ∧
      node = form bracket opening closing (before.reverse ++ items)
  | .error error => ∀ stack, syntaxError? endToken (run (bracket :: stack) inner) = some error

/-- The same for the rest of a program, where the stack is empty. -/
def ProgramInStep (endToken : Token) (stop : Nat) (before : List Node) (inner : List Token) :
    Except SyntaxError Node → Prop
  | .ok root => ∃ items, Reads inner items [] ∧ root = program stop (before.reverse ++ items)
  | .error error => syntaxError? endToken (run [] inner) = some error

mutual

theorem readExpression_inStep (hend : endToken.lexeme = .endMark) (last token : Token)
    (inner : List Token) (htoken : token.lexeme.BeginsItem)
    (hinner : ∀ t ∈ inner, t.lexeme ≠ .endMark) :
    ExpressionInStep endToken after token inner
      (readExpression last token (inner ++ endToken :: after)) := by
  obtain ⟨lexeme, span⟩ := token
  rw [readExpression]
  cases lexeme with
  | closing | endMark => exact htoken.elim
  | atom kind text => exact ⟨inner, rfl, .atom kind text span (.done inner)⟩
  | opening bracket =>
    have hform := readForm_inStep hend last bracket span [] inner hinner
    dsimp only
    cases hresult : readForm last bracket span [] (inner ++ endToken :: after) with
    | error error =>
      rw [hresult] at hform
      exact fun stack ↦ hform stack
    | ok result =>
      rw [hresult] at hform
      obtain ⟨items, closing, left, hrest, hreads, hnode⟩ := hform
      refine ⟨left, hrest, ?_⟩
      rw [hnode]
      exact .form bracket span closing hreads (.done left)
termination_by 2 * inner.length + 1

theorem readForm_inStep (hend : endToken.lexeme = .endMark) (last : Token) (bracket : Bracket)
    (opening : Span) (before : List Node) (inner : List Token)
    (hinner : ∀ t ∈ inner, t.lexeme ≠ .endMark) :
    FormInStep endToken after bracket opening before inner
      (readForm last bracket opening before (inner ++ endToken :: after)) := by
  match inner with
  | [] =>
    obtain ⟨lexeme, span⟩ := endToken
    obtain rfl : lexeme = .endMark := hend
    change FormInStep _ _ _ _ _ [] (readForm last bracket opening before (_ :: after))
    rw [readForm]
    exact fun stack ↦ rfl
  | ⟨lexeme, span⟩ :: inner =>
    change FormInStep _ _ _ _ _ (_ :: inner)
      (readForm last bracket opening before (_ :: (inner ++ endToken :: after)))
    have hexpression (hitem : lexeme.BeginsItem) :=
      readExpression_inStep hend last ⟨lexeme, span⟩ inner hitem
        fun t ht ↦ hinner t (List.mem_cons_of_mem _ ht)
    rw [readForm]
    cases lexeme with
    | endMark => exact absurd rfl (hinner _ List.mem_cons_self)
    | closing closer =>
      dsimp only
      split
      · subst closer
        exact ⟨[], span, inner, rfl, .done _, by rw [List.append_nil]⟩
      · intro stack
        rw [run_cons, move]
        dsimp only
        rw [if_neg ‹_›]
        rfl
    | atom | opening =>
      have hexpression := hexpression trivial
      dsimp only
      cases hresult : readExpression last _ (inner ++ endToken :: after) with
      | error error =>
        rw [hresult] at hexpression
        exact fun stack ↦ hexpression (bracket :: stack)
      | ok result =>
        rw [hresult] at hexpression
        obtain ⟨item, middle, hmiddle⟩ := result
        obtain ⟨left, rfl, hitem⟩ := hexpression
        have hlt : left.length ≤ inner.length := by simpa using hmiddle
        -- the machine is back at this form's bracket, and so is the reader
        have hform := readForm_inStep hend last bracket opening (item :: before) left
          fun t ht ↦ hinner t (hitem.subset ht)
        dsimp only
        cases hrest : readForm last bracket opening (item :: before)
            (left ++ endToken :: after) with
        | error error =>
          rw [hrest] at hform
          intro stack
          rw [run_of_reads hitem]
          exact hform stack
        | ok result =>
          rw [hrest] at hform
          obtain ⟨items, closing, left', hleft, hreads, hnode⟩ := hform
          refine ⟨item :: items, closing, left', hleft, hitem.trans hreads, ?_⟩
          rw [hnode, List.reverse_cons, List.append_assoc, List.singleton_append]
termination_by 2 * inner.length

end

theorem readProgram_inStep (hend : endToken.lexeme = .endMark) (last : Token) (stop : Nat)
    (before : List Node) (inner : List Token) (hinner : ∀ t ∈ inner, t.lexeme ≠ .endMark) :
    ProgramInStep endToken stop before inner
      (readProgram last stop before (inner ++ endToken :: after)) := by
  match inner with
  | [] =>
    obtain ⟨lexeme, span⟩ := endToken
    obtain rfl : lexeme = .endMark := hend
    change ProgramInStep _ _ _ [] (readProgram last stop before (_ :: after))
    rw [readProgram]
    exact ⟨[], .done [], by rw [List.append_nil]⟩
  | ⟨lexeme, span⟩ :: inner =>
    change ProgramInStep _ _ _ (_ :: inner)
      (readProgram last stop before (_ :: (inner ++ endToken :: after)))
    have hexpression (hitem : lexeme.BeginsItem) :
        ExpressionInStep endToken after ⟨lexeme, span⟩ inner _ :=
      readExpression_inStep hend last ⟨lexeme, span⟩ inner hitem
        fun t ht ↦ hinner t (List.mem_cons_of_mem _ ht)
    rw [readProgram]
    cases lexeme with
    | endMark => exact absurd rfl (hinner _ List.mem_cons_self)
    | closing closer => exact rfl
    | atom | opening =>
      have hexpression := hexpression trivial
      dsimp only
      cases hresult : readExpression last _ (inner ++ endToken :: after) with
      | error error =>
        rw [hresult] at hexpression
        exact hexpression []
      | ok result =>
        rw [hresult] at hexpression
        obtain ⟨item, middle, hmiddle⟩ := result
        obtain ⟨left, rfl, hitem⟩ := hexpression
        have hlt : left.length ≤ inner.length := by simpa using hmiddle
        have hprogram := readProgram_inStep hend last stop (item :: before) left
          fun t ht ↦ hinner t (hitem.subset ht)
        dsimp only
        cases hrest : readProgram last stop (item :: before) (left ++ endToken :: after) with
        | error error =>
          rw [hrest] at hprogram
          rwa [ProgramInStep, run_of_reads hitem]
        | ok root =>
          rw [hrest] at hprogram
          obtain ⟨items, hreads, hroot⟩ := hprogram
          refine ⟨item :: items, hitem.trans hreads, ?_⟩
          rw [hroot, List.reverse_cons, List.append_assoc, List.singleton_append]
termination_by inner.length

/-- Reading a whole list is in step with the machine up to the first end mark. The tree ends where
the very last token does. -/
theorem ofTokens_inStep (hend : endToken.lexeme = .endMark) (inner : List Token)
    (hinner : ∀ t ∈ inner, t.lexeme ≠ .endMark) (after : List Token) :
    ProgramInStep endToken ((endToken :: after).getLast (List.cons_ne_nil _ _)).span.stop [] inner
      (ofTokens (inner ++ endToken :: after)) := by
  rw [ofTokens, List.getLast?_append, List.getLast?_eq_some_getLast (List.cons_ne_nil _ _)]
  exact readProgram_inStep hend _ _ [] inner hinner

end

/-- The trees of a list of tokens that has an end mark are those of the grammar. Only the tokens
before the first end mark are read, but the tree ends where the very last token does. -/
theorem ofTokens_eq_ok_iff {inner after : List Token} {endToken : Token}
    (hend : endToken.lexeme = .endMark) (hinner : ∀ t ∈ inner, t.lexeme ≠ .endMark) {root : Node} :
    ofTokens (inner ++ endToken :: after) = .ok root ↔
      ∃ items, Reads inner items [] ∧
        root = program ((endToken :: after).getLast (List.cons_ne_nil _ _)).span.stop items := by
  have hstep := ofTokens_inStep hend inner hinner after
  cases hresult : ofTokens (inner ++ endToken :: after) with
  | error error =>
    rw [hresult] at hstep
    refine iff_of_false (fun h ↦ by cases h) ?_
    rintro ⟨items, hreads, -⟩
    rw [ProgramInStep, run_of_reads hreads] at hstep
    cases hstep
  | ok root' =>
    rw [hresult] at hstep
    obtain ⟨items, hreads, rfl⟩ := hstep
    constructor
    · intro h
      exact ⟨items, hreads, (Except.ok.inj h).symm⟩
    · rintro ⟨items', hreads', rfl⟩
      obtain ⟨rfl, -⟩ := hreads.unique blocked_nil hreads' blocked_nil
      rfl

/-- The errors of a list of tokens that has an end mark are those of the machine. -/
theorem ofTokens_eq_error_iff {inner after : List Token} {endToken : Token}
    (hend : endToken.lexeme = .endMark) (hinner : ∀ t ∈ inner, t.lexeme ≠ .endMark)
    {error : SyntaxError} :
    ofTokens (inner ++ endToken :: after) = .error error ↔
      syntaxError? endToken (run [] inner) = some error := by
  have hstep := ofTokens_inStep hend inner hinner after
  cases hresult : ofTokens (inner ++ endToken :: after) with
  | error error' =>
    rw [hresult] at hstep
    rw [show syntaxError? endToken (run [] inner) = some error' from hstep]
    exact ⟨fun h ↦ congrArg some (Except.error.inj h), fun h ↦ congrArg _ (Option.some.inj h)⟩
  | ok root =>
    rw [hresult] at hstep
    obtain ⟨items, hreads, -⟩ := hstep
    rw [run_of_reads hreads]
    exact iff_of_false (fun h ↦ by cases h) (fun h ↦ by cases h)

/-- There is a tree when the machine comes to the end mark with nothing on its stack. -/
theorem exists_ofTokens_eq_ok_iff {inner : List Token} {endToken : Token}
    (hend : endToken.lexeme = .endMark) (hinner : ∀ t ∈ inner, t.lexeme ≠ .endMark)
    (after : List Token) :
    (∃ root, ofTokens (inner ++ endToken :: after) = .ok root) ↔ run [] inner = .ok [] := by
  rw [← syntaxError?_eq_none_iff endToken]
  cases hresult : ofTokens (inner ++ endToken :: after) with
  | error error =>
    rw [(ofTokens_eq_error_iff hend hinner).mp hresult]
    exact iff_of_false (fun ⟨_, h⟩ ↦ by cases h) (fun h ↦ by cases h)
  | ok root =>
    refine iff_of_true ⟨root, rfl⟩ ?_
    -- an error of the machine would have been the reader's
    refine Option.eq_none_iff_forall_ne_some.mpr fun error herror ↦ ?_
    cases hresult.symm.trans ((ofTokens_eq_error_iff hend hinner).mpr herror)

/-! ## Reports -/

/-- What the machine complains of is what the reader reports, on the line where the token that is
blamed begins. -/
theorem exists_syntaxError?_of_complaint? {source : List Char} {endToken token : Token}
    {text : String} {outcome : Except Clash (List Bracket)}
    (h : complaint? source endToken outcome = some (token, text)) (file : String) :
    ∃ error, syntaxError? endToken outcome = some error ∧ error.report? source file
      = (lineAt? source token.span.start).map fun line ↦ .parser text (some ⟨file, line⟩) := by
  match outcome with
  | .ok [] => simp [complaint?] at h
  | .ok (top :: _) | .error ⟨_, none⟩ | .error ⟨_, some top⟩ =>
    obtain ⟨rfl, rfl⟩ := Prod.mk.inj (Option.some.inj h)
    exact ⟨_, rfl, rfl⟩

/-- The machine never asks for an expression: where one could begin, it meets a token that begins
one, a closing bracket or the end. -/
theorem message_ne_expectedExpression {endToken : Token} {outcome : Except Clash (List Bracket)}
    {error : SyntaxError} (h : syntaxError? endToken outcome = some error) (source : List Char) :
    error.message source ≠ "Expected expression" := by
  intro hmessage
  have hchars := congrArg String.toList hmessage
  match outcome with
  | .ok [] => cases h
  | .ok (top :: _) | .error ⟨_, none⟩ | .error ⟨_, some top⟩ =>
    obtain rfl := Option.some.inj h
    simp [SyntaxError.message] at hchars

/-- **The reader refines the bracket machine.** Of a list of tokens whose first end mark is
`endToken`, a tree is made exactly when the machine comes to the end mark with an empty stack.
Otherwise the report is that of the machine's first failure, on the line of the token it is blamed
on, unless that token begins inside a character and so has no line. A tree is the one that the
grammar gives the tokens before the end mark. -/
theorem ofTokens_refines_bracketMachine (source : List Char) (file : String) {inner : List Token}
    {endToken : Token} (hend : endToken.lexeme = .endMark)
    (hinner : ∀ t ∈ inner, t.lexeme ≠ .endMark) (after : List Token) :
    ((∃ root, ofTokens (inner ++ endToken :: after) = .ok root) ↔ run [] inner = .ok []) ∧
      (∀ token text, complaint? source endToken (run [] inner) = some (token, text) →
        ∃ error, ofTokens (inner ++ endToken :: after) = .error error ∧
          error.report? source file = (lineAt? source token.span.start).map
            fun line ↦ .parser text (some ⟨file, line⟩)) ∧
      (∀ error, ofTokens (inner ++ endToken :: after) = .error error →
        error.message source ≠ "Expected expression") ∧
      (∀ root, ofTokens (inner ++ endToken :: after) = .ok root → ∃ items, Reads inner items [] ∧
        root = program ((endToken :: after).getLast (List.cons_ne_nil _ _)).span.stop items) := by
  refine ⟨exists_ofTokens_eq_ok_iff hend hinner after, fun token text hcomplaint ↦ ?_,
    fun error herror ↦ ?_, fun root ↦ (ofTokens_eq_ok_iff hend hinner).mp⟩
  · obtain ⟨error, herror, hreport⟩ := exists_syntaxError?_of_complaint? hcomplaint file
    exact ⟨error, (ofTokens_eq_error_iff hend hinner).mpr herror, hreport⟩
  · exact message_ne_expectedExpression ((ofTokens_eq_error_iff hend hinner).mp herror) source

/-- A form that is closed by the wrong bracket, with another closing bracket after the end mark. -/
theorem report?_wrong_closer :
    ∃ error, ofTokens [⟨.opening .paren, ⟨0, 1⟩⟩, ⟨.atom .number "7", ⟨1, 2⟩⟩,
        ⟨.closing .brace, ⟨3, 4⟩⟩, ⟨.endMark, ⟨4, 4⟩⟩, ⟨.closing .paren, ⟨0, 0⟩⟩] = .error error ∧
      error.report? "(7\n\x7d".toList "a.lspy"
        = some (.parser "Unexpected '\x7d', expected ')'" (some ⟨"a.lspy", 2⟩)) :=
  (ofTokens_refines_bracketMachine "(7\n\x7d".toList "a.lspy"
    (show (⟨.endMark, ⟨4, 4⟩⟩ : Token).lexeme = .endMark from rfl)
    (show ∀ t ∈ ([⟨.opening .paren, ⟨0, 1⟩⟩, ⟨.atom .number "7", ⟨1, 2⟩⟩,
      ⟨.closing .brace, ⟨3, 4⟩⟩] : List Token), t.lexeme ≠ .endMark by decide)
    [⟨.closing .paren, ⟨0, 0⟩⟩]).2.1 ⟨.closing .brace, ⟨3, 4⟩⟩ _ rfl

end Node

end QuoteLisp
