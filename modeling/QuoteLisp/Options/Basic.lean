import QuoteLisp.Failure.Host

/-!
# Command line options

The words of a command line say which prelude to load, which files to load after it, and whether to
start the prompt. Options and paths may be mixed in any order; only a request for help or for the
version has to come first. An environment variable may name the prelude where the command line does
not.
-/

namespace QuoteLisp

/-- The file to load before all others. -/
inductive Prelude where
  /-- The fallback, which may be absent. -/
  | standard (path : String)
  /-- A file asked for by name, which has to be there. -/
  | explicit (path : String)
  | disabled
  deriving DecidableEq, Repr

/-- What to load and whether to start the prompt. -/
structure Options where
  prelude : Prelude
  paths : List String
  interactive : Bool
  deriving DecidableEq, Repr

/-- What a command line asks for. -/
inductive Command where
  | help
  | version
  | run (options : Options)
  deriving DecidableEq, Repr

/-- Why a command line makes no sense. -/
inductive OptionError where
  | preludeWithoutFile
  | unknown (option : String)
  | preludeConflict
  deriving DecidableEq, Repr

/-- The wording of a refusal. -/
def OptionError.message : OptionError → String
  | preludeWithoutFile => "'--prelude' requires a file argument"
  | unknown option => "Unknown option '" ++ option ++ "'"
  | preludeConflict => "'--prelude' and '--no-prelude' cannot be combined"

namespace Options

/-- The prelude that is loaded when nothing else is said. -/
def standardPrelude : String := "stlib.lspy"

/-- The environment variable that may name a prelude. -/
def preludeVariable : String := "LISPERER_PRELUDE"

/-- The words of a command line, sorted by what they say. -/
structure Words where
  prelude : Option String
  noPrelude : Bool
  interactive : Bool
  paths : List String

/-- Whether a word is meant as an option: it begins with two dashes. A single dash begins a path,
except in `-i`. -/
def looksLikeOption (word : String) : Bool :=
  ['-', '-'].isPrefixOf word.toList

/-- Sorts the words of a command line, on top of those already sorted; paths are collected the
latest first. The word after `--prelude` is its file, whatever it looks like. -/
def sortWords (sorted : Words) : List String → Except OptionError Words
  | [] => .ok sorted
  | "--prelude" :: [] => .error .preludeWithoutFile
  | "--prelude" :: path :: words => sortWords { sorted with prelude := some path } words
  | word :: words =>
    if word = "--no-prelude" then sortWords { sorted with noPrelude := true } words
    else if word = "--interactive" ∨ word = "-i" then
      sortWords { sorted with interactive := true } words
    else if looksLikeOption word then .error (.unknown word)
    else sortWords { sorted with paths := word :: sorted.paths } words

/-- The prelude to load: the one named on the command line, else none if it says so, else the one
that the environment names, else the standard one. -/
def choosePrelude (words : Words) (named : Option String) : Except OptionError Prelude :=
  match words.prelude, words.noPrelude with
  | some _, true => .error .preludeConflict
  | some path, false => .ok (.explicit path)
  | none, true => .ok .disabled
  | none, false => .ok (named.elim (.standard standardPrelude) .explicit)

/-- The options on a command line that asks for neither help nor the version. -/
def ofWords (words : List String) (named : Option String) : Except OptionError Options := do
  let sorted ← sortWords ⟨none, false, false, []⟩ words
  let prelude ← choosePrelude sorted named
  return ⟨prelude, sorted.paths.reverse, sorted.interactive⟩

/-- Whether to start the prompt: when asked to, or when there is nothing to load. -/
def runsInteractive (options : Options) : Bool :=
  options.interactive || options.paths.isEmpty

end Options

/-- What a command line asks for, given the prelude that the environment names. -/
def Command.ofWords (words : List String) (named : Option String) :
    Except HostError Command :=
  match words.head? with
  | some "help" | some "--help" | some "-h" => .ok .help
  | some "version" | some "--version" | some "-v" => .ok .version
  | _ =>
    match Options.ofWords words named with
    | .error cause => .error (.config cause.message)
    | .ok options => .ok (.run options)

end QuoteLisp
