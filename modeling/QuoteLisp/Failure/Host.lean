import QuoteLisp.File.Path
import QuoteLisp.File.ReadError

/-!
# Failures outside evaluation

A program that cannot be read, cut into tokens or parsed, and a command line that makes no sense,
are reported to whoever runs the program. They are no values of the language: evaluation never sees
one, except as the text of a failed `load`.
-/

namespace QuoteLisp

/-- A line of a source file. -/
structure Location where
  file : String
  line : Nat
  deriving DecidableEq, Repr

/-- The wording of a location. It names the file without its directories; a path that ends in no
name is given whole. -/
def Location.text (location : Location) : String :=
  "File: " ++ (Path.fileName? location.file).getD location.file ++ " line " ++ location.line.repr

/-- A failure outside evaluation. -/
inductive HostError where
  | io (cause : ReadError)
  | lexer (text : String) (location : Option Location)
  | parser (text : String) (location : Option Location)
  | config (text : String)
  deriving DecidableEq, Repr

namespace HostError

/-- A location goes on a line of its own. -/
private def locationSuffix : Option Location → String
  | none => ""
  | some location => "\n" ++ location.text

/-- The wording of a failure. -/
def message : HostError → String
  | io cause => "I/O error: " ++ cause.message
  | lexer text location => "Lex error: " ++ text ++ locationSuffix location
  | parser text location => "Parse error: " ++ text ++ locationSuffix location
  | config text => "Configuration error: " ++ text

end HostError

end QuoteLisp
