import QuoteLisp.Failure.Host
import QuoteLisp.Node.Basic
import QuoteLisp.Token.Scan

/-!
# Grouping tokens into a tree

The tokens are read by descent. Reading an expression passes one token, and if that is an opening
bracket, then expressions until a closing bracket of the same kind comes. A program is expressions
until the end mark comes. What is left after an expression is never more than there was after its
first token, and it comes with the proof of that (`Rest`), which is why reading ends.

## Lists without an end mark

A list that a scanner made ends in an end mark, and reading stops at the first one. Any other list
is read as if its last token were repeated without end. If that token is a closing bracket, each
repetition closes one more form or is an error. If it is anything else, reading never comes to an
end, and that is an error of its own.
-/

namespace QuoteLisp

/-! ## Errors -/

/-- Why a list of tokens has no tree. -/
inductive SyntaxCause where
  /-- A closing bracket outside all forms. -/
  | unexpected
  /-- A closing bracket of the other kind than the innermost open form needs. -/
  | mismatched (expected : Bracket)
  /-- The end of the tokens inside a form. -/
  | unclosed (bracket : Bracket)
  /-- An expression begins with a closing bracket or an end mark. -/
  | noExpression
  /-- A list that has neither an end mark nor a closing bracket to stop at. -/
  | endless
  deriving DecidableEq, Repr

/-- A syntax error, with the token it is blamed on. `overrun` tells that the token is the last of a
list that was already used up. -/
structure SyntaxError where
  cause : SyntaxCause
  token : Token
  overrun : Bool
  deriving DecidableEq, Repr

namespace SyntaxError

/-- The error that is blamed on the first of the tokens that are left, or on the last token of the
list when none is. -/
def ofRest (cause : SyntaxCause) (last : Token) : (rest : List Token) → SyntaxError
  | [] => ⟨cause, last, true⟩
  | token :: _ => ⟨cause, token, false⟩

/-- The byte offset that a syntax error is about: where the blamed token starts, or where it stops
when the list was used up. -/
def offset (error : SyntaxError) : Nat :=
  if error.overrun then error.token.span.stop else error.token.span.start

/-- The source text of the blamed token; nothing when its span is no part of the source. -/
def quoted (source : List Char) (error : SyntaxError) : String :=
  String.ofList ((slice? source error.token.span).getD [])

/-- The wording of a syntax error. -/
def message (source : List Char) (error : SyntaxError) : String :=
  match error.cause with
  | .unexpected => "Unexpected '" ++ error.quoted source ++ "'"
  | .mismatched expected =>
    "Unexpected '" ++ error.quoted source ++ "', expected '" ++ expected.closer.toString ++ "'"
  | .unclosed bracket =>
    "Unclosed '" ++ bracket.opener.toString ++ "', expected '" ++ bracket.closer.toString ++ "'"
  | .noExpression => "Expected expression"
  | .endless => "Endless list of tokens"

/-- The report of a syntax error in a source file. There is none when the offset to blame cuts a
character of the source, because then it is on no line. -/
def report? (source : List Char) (file : String) (error : SyntaxError) : Option HostError :=
  (lineAt? source error.offset).map fun line ↦
    .parser (error.message source) (some ⟨file, line⟩)

end SyntaxError

/-! ## The reader -/

namespace Node

/-- What may be left of some tokens when reading goes on. -/
abbrev Rest (tokens : List Token) : Type :=
  {rest : List Token // rest.length ≤ tokens.length}

mutual

/-- Reads the expression that begins with a token, from the tokens after it. `last` is the last
token of the whole list. -/
def readExpression (last token : Token) (tokens : List Token) :
    Except SyntaxError (Node × Rest tokens) :=
  match token.lexeme with
  | .atom kind text => .ok (leaf (atomTag kind) text token.span, ⟨tokens, Nat.le_refl _⟩)
  | .opening bracket => readForm last bracket token.span [] tokens
  | .closing _ => .error (.ofRest .noExpression last tokens)
  | .endMark => .error ⟨.noExpression, token, false⟩
termination_by 2 * tokens.length + 1

/-- Reads the items of a form and its closing bracket, when its opening bracket and some items, the
latest first, have been read. -/
def readForm (last : Token) (bracket : Bracket) (opening : Span) (items : List Node)
    (tokens : List Token) : Except SyntaxError (Node × Rest tokens) :=
  match tokens with
  | [] =>
    match last.lexeme with
    | .endMark => .error ⟨.unclosed bracket, last, true⟩
    | .closing closer =>
      if closer = bracket then
        .ok (form bracket opening last.span items.reverse, ⟨[], Nat.le_refl _⟩)
      else .error ⟨.mismatched bracket, last, true⟩
    | .atom _ _ | .opening _ => .error ⟨.endless, last, true⟩
  | token :: tokens =>
    match token.lexeme with
    | .endMark => .error ⟨.unclosed bracket, token, false⟩
    | .closing closer =>
      if closer = bracket then
        .ok (form bracket opening token.span items.reverse, ⟨tokens, Nat.le_succ _⟩)
      else .error ⟨.mismatched bracket, token, false⟩
    | .atom _ _ | .opening _ =>
      match readExpression last token tokens with
      | .error error => .error error
      | .ok (item, ⟨middle, hmiddle⟩) =>
        match readForm last bracket opening (item :: items) middle with
        | .error error => .error error
        | .ok (node, ⟨rest, hrest⟩) =>
          .ok (node, ⟨rest, Nat.le_succ_of_le (Nat.le_trans hrest hmiddle)⟩)
termination_by 2 * tokens.length
decreasing_by all_goals simp only [List.length_cons]; omega

end

/-- Reads the rest of a program of which some items, the latest first, have been read. `stop` is the
offset at which the program ends. -/
def readProgram (last : Token) (stop : Nat) (items : List Node) (tokens : List Token) :
    Except SyntaxError Node :=
  match tokens with
  | [] =>
    match last.lexeme with
    | .endMark => .ok (program stop items.reverse)
    | .closing _ => .error ⟨.unexpected, last, true⟩
    | .atom _ _ | .opening _ => .error ⟨.endless, last, true⟩
  | token :: tokens =>
    match token.lexeme with
    | .endMark => .ok (program stop items.reverse)
    | .closing _ => .error ⟨.unexpected, token, false⟩
    | .atom _ _ | .opening _ =>
      match readExpression last token tokens with
      | .error error => .error error
      | .ok (item, ⟨rest, _⟩) => readProgram last stop (item :: items) rest
termination_by tokens.length
decreasing_by all_goals exact Nat.lt_succ_of_le ‹_›

/-- The tree of a list of tokens. The program ends where the very last token does. -/
def ofTokens (tokens : List Token) : Except SyntaxError Node :=
  match tokens.getLast? with
  | none => .ok (program 0 [])
  | some last => readProgram last last.span.stop [] tokens

end Node

end QuoteLisp
