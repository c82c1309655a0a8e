import QuoteLisp.Node.OfTokens

/-!
# The tree of a source

A source is cut into tokens and the tokens are grouped into a tree. An error of either stage is
reported with the file it was found in and the line of the offending offset.
-/

namespace QuoteLisp

/-- The name that errors give to a source that comes from no file. -/
def standardInput : String := "<stdin>"

/-- The report of a lexical error in a source file. -/
def LexError.report (source : List Char) (file : String) (error : LexError) : HostError :=
  .lexer error.message ((lineAt? source error.offset).map (⟨file, ·⟩))

/-- The report of a syntax error, without a location when the blamed offset is on no line. -/
def SyntaxError.report (source : List Char) (file : String) (error : SyntaxError) : HostError :=
  (error.report? source file).getD (.parser (error.message source) none)

/-- The tree of a source, whose errors name the given file. -/
def Node.parse (source file : String) : Except HostError Node :=
  match tokens source.toList with
  | .error error => .error (error.report source.toList file)
  | .ok tokens =>
    match Node.ofTokens tokens with
    | .error error => .error (error.report source.toList file)
    | .ok root => .ok root

/-- The tree of the file at a path, given what reading the file came to. -/
def Node.parseFile (path : String) : Except ReadError String → Except HostError Node
  | .error cause => .error (.io cause)
  | .ok source => Node.parse source path

end QuoteLisp
