import QuoteLisp.Node.OfTokens
import QuoteLisp.Proofs.Node.Grammar

/-!
# The bracket machine

Whether a list of tokens has a tree depends on its brackets alone. The bracket machine keeps a stack
of brackets: an opening bracket is pushed, a closing bracket pops the one it matches, and everything
else is passed over. It stops at the first closing bracket that does not match the top of the stack.

A sequence of items leaves the machine where it was, whatever is on its stack (`run_of_reads`). This
is all that the grammar and the machine have to do with each other.
-/

namespace QuoteLisp

namespace Bracket

/-- A closing bracket that the machine cannot take, and the bracket that the top of the stack waits
for; there is none when the stack is empty. -/
structure Clash where
  token : Token
  expected : Option Bracket

/-- One move of the machine. -/
def move (stack : List Bracket) (token : Token) : Except Clash (List Bracket) :=
  match token.lexeme with
  | .atom _ _ | .endMark => .ok stack
  | .opening bracket => .ok (bracket :: stack)
  | .closing bracket =>
    match stack with
    | [] => .error ⟨token, none⟩
    | top :: below => if bracket = top then .ok below else .error ⟨token, some top⟩

/-- A run of the machine, from a given stack. -/
def run (stack : List Bracket) (tokens : List Token) : Except Clash (List Bracket) :=
  tokens.foldlM move stack

/-- What is to be said of the end of a run, and of which token. Nothing is, when the stack is empty.
A closing bracket is quoted as it is written in the source, and a bracket that is left open is
blamed on the end mark. -/
def complaint? (source : List Char) (endToken : Token) :
    Except Clash (List Bracket) → Option (Token × String)
  | .ok [] => none
  | .ok (top :: _) =>
    some (endToken, "Unclosed '" ++ top.opener.toString ++ "', expected '" ++
      top.closer.toString ++ "'")
  | .error ⟨token, none⟩ => some (token, "Unexpected '" ++ quote token ++ "'")
  | .error ⟨token, some top⟩ =>
    some (token, "Unexpected '" ++ quote token ++ "', expected '" ++ top.closer.toString ++ "'")
where
  /-- The source text of a token, or nothing when its span is no part of the source. -/
  quote (token : Token) : String :=
    String.ofList ((slice? source token.span).getD [])

/-- The error of the reader at the end of a run, if there is one. -/
def syntaxError? (endToken : Token) : Except Clash (List Bracket) → Option SyntaxError
  | .ok [] => none
  | .ok (top :: _) => some ⟨.unclosed top, endToken, false⟩
  | .error ⟨token, none⟩ => some ⟨.unexpected, token, false⟩
  | .error ⟨token, some top⟩ => some ⟨.mismatched top, token, false⟩

theorem syntaxError?_eq_none_iff (endToken : Token) {outcome : Except Clash (List Bracket)} :
    syntaxError? endToken outcome = none ↔ outcome = .ok [] := by
  match outcome with
  | .ok [] => exact iff_of_true rfl rfl
  | .ok (_ :: _) | .error ⟨_, none⟩ | .error ⟨_, some _⟩ =>
    exact iff_of_false (fun h ↦ by cases h) (fun h ↦ by cases h)

theorem run_cons (stack : List Bracket) (token : Token) (tokens : List Token) :
    run stack (token :: tokens) = (move stack token).bind fun stack ↦ run stack tokens := by
  rw [run, List.foldlM_cons]
  rfl

theorem run_append (stack : List Bracket) (front back : List Token) :
    run stack (front ++ back) = (run stack front).bind fun stack ↦ run stack back := by
  rw [run, List.foldlM_append]
  rfl

/-- A closing bracket that the stack does not wait for ends a run, whatever comes after it. -/
theorem run_append_closing {stack left : List Bracket} {passed : List Token} {bracket : Bracket}
    (hpassed : run stack passed = .ok left) (hleft : left.head? ≠ some bracket) (span : Span)
    (later : List Token) : run stack (passed ++ ⟨.closing bracket, span⟩ :: later)
      = .error ⟨⟨.closing bracket, span⟩, left.head?⟩ := by
  rw [run_append, hpassed]
  change run left _ = _
  rw [run_cons, move]
  match left with
  | [] => rfl
  | top :: below =>
    dsimp only
    rw [if_neg fun heq ↦ hleft (congrArg some heq.symm)]
    rfl

/-- The machine stops at a closing bracket that the top of the stack does not wait for, and up to
there it has met none. -/
theorem exists_of_run_eq_error {stack : List Bracket} {tokens : List Token} {clash : Clash}
    (h : run stack tokens = .error clash) :
    ∃ passed bracket span later left, tokens = passed ++ ⟨.closing bracket, span⟩ :: later ∧
      run stack passed = .ok left ∧ clash = ⟨⟨.closing bracket, span⟩, left.head?⟩ ∧
      left.head? ≠ some bracket := by
  induction tokens generalizing stack with
  | nil => cases h
  | cons token tokens ih =>
    rw [run_cons] at h
    match hmove : move stack token with
    | .ok next =>
      rw [hmove] at h
      obtain ⟨passed, bracket, span, later, left, rfl, hrun, hclash⟩ := ih h
      refine ⟨token :: passed, bracket, span, later, left, rfl, ?_, hclash⟩
      rw [run_cons, hmove]
      exact hrun
    | .error other =>
      rw [hmove] at h
      obtain rfl := Except.error.inj h
      obtain ⟨lexeme, span⟩ := token
      match lexeme, stack with
      | .atom _ _, _ | .opening _, _ | .endMark, _ => cases hmove
      | .closing bracket, [] =>
        cases hmove
        exact ⟨[], bracket, span, tokens, [], rfl, rfl, rfl, nofun⟩
      | .closing bracket, top :: below =>
        rw [move] at hmove
        dsimp only at hmove
        split at hmove
        · cases hmove
        · rename_i hne
          obtain rfl := Except.error.inj hmove
          refine ⟨[], bracket, span, tokens, top :: below, rfl, rfl, rfl, fun htop ↦ hne ?_⟩
          exact (Option.some.inj htop).symm

/-- The machine stops at a token that it was given. -/
theorem mem_of_run_eq_error {stack : List Bracket} {tokens : List Token} {clash : Clash}
    (h : run stack tokens = .error clash) : clash.token ∈ tokens := by
  obtain ⟨passed, bracket, span, later, left, rfl, -, rfl, -⟩ := exists_of_run_eq_error h
  exact List.mem_append_right passed List.mem_cons_self

end Bracket

namespace Node

open QuoteLisp.Bracket

/-- A sequence of items leaves the machine where it was. -/
theorem run_of_reads {tokens rest : List Token} {items : List Node} (h : Reads tokens items rest)
    (stack : List Bracket) : run stack tokens = run stack rest := by
  induction h generalizing stack with
  | done => rfl
  | atom kind text span _ ih =>
    rw [run_cons]
    exact ih stack
  | form bracket opening closing _ _ ihinner ih =>
    rw [run_cons]
    change run (bracket :: stack) _ = _
    rw [ihinner, run_cons, move]
    dsimp only
    rw [if_pos rfl]
    exact ih stack

end Node

end QuoteLisp
