import QuoteLisp.Options.Sources
import QuoteLisp.Prompt

/-!
# The program

The command line program loads the prelude, then the files that the command line names, and then
starts the prompt if it is to. Nothing that a loaded file does keeps the rest from running: a
failure to load is written among the output, and a request to exit counts only at the prompt.
-/

namespace QuoteLisp

/-- What is written about the use of the program. -/
def usage : List String :=
  ["Lisperer, a small Lisp",
    "",
    "Usage:",
    "  lisperer [options] [paths...]",
    "",
    "Options:",
    "  --prelude <file>   Load <file> before anything else (default: stlib.lspy)",
    "  --no-prelude       Do not load a prelude",
    "  -i, --interactive  Start the prompt after loading the given paths",
    "  help               Show this help message",
    "  version            Show version information",
    "",
    "Directories load every .lspy file beneath them. The prelude can also be",
    "set with LISPERER_PRELUDE."]

/-- What is written when the version is asked for. -/
def versionLine : String := "lisperer 0.1.0"

/-- The prelude to load, if any: the standard one only where there is such a file. -/
def Prelude.path? (isFile : String → Bool) : Prelude → Option String
  | standard path => if isFile path then some path else none
  | explicit path => some path
  | disabled => none

/-- Loads a file into the global scope, and reports it when it cannot be loaded. -/
def loadAndReport (library : Library) (fuel : Nat) (path : String) : Run Unit := do
  let result ← load library fuel globalScope path
  if result.isError then Run.emit result.display

/-- The library of all files in a tree. -/
def FileTree.library (tree : FileTree) : Library :=
  ⟨fun path ↦ some (tree.readText path)⟩

/-- The files that options ask for, the prelude first, as found by a way to walk through
directories. -/
def Options.loads (walk : Walk) (tree : FileTree) (options : Options) : List String :=
  (options.prelude.path? tree.isFile).toList ++ options.sourcesBy walk tree

/-- What the program relies on: a way to walk through directories, and a line editor. -/
structure Host where
  walk : Walk
  editor : LineEditor

/-- The host that looks into directories entry by entry and takes lines as they are. -/
def Host.plain : Host :=
  ⟨FileTree.walk, plainEditor⟩

/-- Loads what the options ask for, and starts the prompt on the standard input if it is to. -/
def Options.run (host : Host) (fuel : Nat) (tree : FileTree) (stdin : String) (options : Options) :
    Run Conclusion := do
  (options.loads host.walk tree).forM (loadAndReport tree.library fuel)
  if options.runsInteractive then promptOn tree.library fuel (host.editor stdin)
  else return ⟨0, []⟩

/-- What a run of the program leaves behind. -/
structure Transcript where
  exitCode : Nat
  stdout : List String
  stderr : List String

/-- The command line with what the program finds around it: the words, the value of the variable
that may name a prelude, the files and the standard input. -/
structure Invocation where
  words : List String
  preludeVariable : Option String
  tree : FileTree
  stdin : String

/-- What the command line asks for. A variable that is empty counts as not set. -/
def Invocation.command (invocation : Invocation) : Except HostError Command :=
  Command.ofWords invocation.words (invocation.preludeVariable.filter (· != ""))

/-- Runs the program on a host. -/
def Invocation.runOn (host : Host) (fuel : Nat) (invocation : Invocation) :
    Except Stop Transcript :=
  match invocation.command with
  | .error failure => .ok ⟨1, [], ("Error: " ++ failure.message) :: usage⟩
  | .ok .help => .ok ⟨0, [], usage⟩
  | .ok .version => .ok ⟨0, [versionLine], []⟩
  | .ok (.run options) => do
    let (conclusion, machine) ←
      (options.run host fuel invocation.tree invocation.stdin).run (Machine.start .empty)
    return ⟨conclusion.exitCode, machine.output.lines.toList, conclusion.stderr⟩

/-- Runs the program. -/
def Invocation.run (fuel : Nat) (invocation : Invocation) : Except Stop Transcript :=
  invocation.runOn .plain fuel

end QuoteLisp
