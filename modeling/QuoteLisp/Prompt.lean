import QuoteLisp.Evaluation.Eval
import QuoteLisp.Text.Blank
import QuoteLisp.Text.Split

/-!
# The prompt

The prompt evaluates one line of input after another, each as a single form in the global scope, and
writes the result or the failure. Blank lines are passed over. A line whose result is the request to
exit ends the session once its result is written, and so does the end of the input.

Lines are handed over by a line editor, which may refuse to start and may fail in the middle. The
plain one takes the lines of the input as they are.
-/

namespace QuoteLisp

/-! ## Lines of input -/

/-- A line without the carriage return that ends it, if there is one. -/
def chompReturn (line : List Char) : List Char :=
  if line.getLast? = some '\r' then line.dropLast else line

/-- The lines of an input. A line is ended by a line feed, with or without a carriage return before
it; the text after the last line feed is a line too, taken as it is, unless it is empty. -/
def inputLines (input : String) : List String :=
  let parts := splitAt '\n' input.toList
  (parts.dropLast.map chompReturn ++ parts.getLast?.toList.filter (!·.isEmpty)).map String.ofList

/-- How the reading of lines comes to an end. -/
inductive Ending where
  | endOfInput
  | interrupted
  | failed (reason : String)

/-- What is written about the end of the lines: only a failure is worth a word. -/
def Ending.complaint : Ending → List String
  | endOfInput | interrupted => []
  | failed reason => ["Error: " ++ reason]

/-- The lines that an editor hands over, and how reading them ends. -/
structure EditedInput where
  lines : List String
  ending : Ending

/-- A line editor: what comes of its work on the standard input, or why it does not start. -/
abbrev LineEditor := (stdin : String) → Except String EditedInput

/-- The editor that hands over the lines of the input as they are. -/
def plainEditor : LineEditor := fun stdin ↦ .ok ⟨inputLines stdin, .endOfInput⟩

/-! ## Evaluating lines -/

/-- What is written when the prompt starts. -/
def banner : List String :=
  ["Lisperer Version 0.1.0", "Type exit() to quit", ""]

/-- Whether a value is the request to end the session. -/
def Value.isExit : Value → Bool
  | exit => true
  | _ => false

/-- Evaluates a line of input and writes the outcome. The answer tells whether the session goes
on. -/
def promptLine (library : Library) (fuel : Nat) (line : String) : Run Bool := do
  if isBlankText line then return true
  match ← evalSource library fuel line with
  | .error failure =>
    Run.emit failure.message
    return true
  | .ok value =>
    Run.emit value.display
    return !value.isExit

/-- Evaluates lines of input until the session ends. The answer tells whether they came to their end
before. -/
def promptLines (library : Library) (fuel : Nat) : List String → Run Bool
  | [] => return true
  | line :: lines => do
    if ← promptLine library fuel line then promptLines library fuel lines else return false

/-- How the program ends: its exit code, and what it writes about it. -/
structure Conclusion where
  exitCode : Nat
  stderr : List String

/-- Starts the prompt on what came of a line editor. Without an editor there is no prompt and the
program has failed. -/
def promptOn (library : Library) (fuel : Nat) : Except String EditedInput → Run Conclusion
  | .error reason => return ⟨1, ["Failed to initialize line editor: " ++ reason]⟩
  | .ok input => do
    banner.forM Run.emit
    if ← promptLines library fuel input.lines then return ⟨0, input.ending.complaint⟩
    else return ⟨0, []⟩

end QuoteLisp
