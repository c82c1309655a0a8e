import QuoteLisp.Program

/-!
# The command line

The program on a real machine. Everything that is decided, is decided by the definitions of the
other modules; here words, files and lines of input are fetched and lines of output are written.

Evaluation cannot reach out for a file. A run that needs one which was not fetched yet stops and
names it; the file is fetched and the run is started again from where it began, now knowing more. As
output is written only when a run is complete, starting again cannot be seen.
-/

namespace QuoteLisp

/-! ## The file system -/

/-- The entry of the file system at a path. -/
def diskEntry (path : String) : IO.FS.DirEntry :=
  ⟨path, ""⟩

/-- Whether a path leads to a thing of the given kind. -/
def isKind (kind : IO.FS.FileType) (path : String) : IO Bool := do
  try
    return (← (diskEntry path).root.metadata).type == kind
  catch _ => return false

/-- The error number of the operating system in a code that may be its negative in 32 bits. -/
def errorNumber (code : UInt32) : Nat :=
  if code.toNat < 0x80000000 then code.toNat else 0x100000000 - code.toNat

/-- Why the file system refused to read a file. -/
def refusalOf (failure : IO.Error) : ReadError :=
  match failure with
  | .noFileOrDirectory _ code reason
  | .inappropriateType _ code reason
  | .invalidArgument _ code reason
  | .permissionDenied _ code reason => .ofCode (errorNumber code) reason
  | failure => .refused failure.toString 0

/-- The text of a file. -/
def readDisk (path : String) : IO (Except ReadError String) := do
  if path.toList.contains '\x00' then return .error .nullInPath
  try
    match String.fromUTF8? (← IO.FS.readBinFile path) with
    | some text => return .ok text
    | none => return .error .notText
  catch failure => return .error (refusalOf failure)

/-- All that is come upon in the directory at a path. What has a path that is too long to ask about
counts as a file, because nothing can be found beneath it. -/
partial def walkDisk (path : String) : IO (List (Except ReadError Found)) := do
  if ← isKind .dir path then
    try
      let entries ← (diskEntry path).root.readDir
      let below ← entries.toList.mapM fun entry ↦ walkDisk (Path.join path entry.fileName)
      return .ok ⟨path, false⟩ :: below.flatten
    catch failure => return [.ok ⟨path, false⟩, .error (refusalOf failure)]
  else
    let isFile := (← isKind .file path) || path.utf8ByteSize > FileTree.maxPathLength
    return [.ok ⟨path, isFile⟩]

/-- The files that a path on the command line stands for. -/
def sourcesAt (path : String) : IO (List String) := do
  if ← isKind .dir path then
    return expandPath path (some (← walkDisk path))
  else
    return expandPath path none

/-! ## Running -/

/-- A bound on the depth of evaluation that no run can reach. -/
def ampleFuel : Nat := 0x4000000000000000

/-- Runs a computation on a machine, writes its output and answers with its result. -/
partial def perform {α : Type} (machine : Machine) (computation : Library → Run α)
    (fetched : List (String × Except ReadError String)) : IO (α × Machine) := do
  match (computation ⟨(fetched.lookup ·)⟩).run { machine with output := .empty } with
  | .ok (result, machine) =>
    machine.output.lines.forM IO.println
    (← IO.getStdout).flush
    return (result, machine)
  | .error (.unread path) => perform machine computation ((path, ← readDisk path) :: fetched)
  | .error .outOfFuel => throw (IO.userError "evaluation is nested too deeply")

/-- Reads and evaluates lines until the session or the input ends. -/
partial def prompt (machine : Machine) : IO Unit := do
  let input ← (← IO.getStdin).getLine
  match inputLines input with
  | [] => return ()
  | line :: _ =>
    let (goesOn, machine) ← perform machine (promptLine · ampleFuel line) []
    if goesOn then prompt machine

/-- Loads files one after another. -/
def loadAll (machine : Machine) (paths : List String) : IO Machine :=
  paths.foldlM
    (fun machine path ↦ return (← perform machine (loadAndReport · ampleFuel path) []).2) machine

/-- Does what the options ask for. -/
def runOptions (options : Options) : IO Unit := do
  let standardThere ← isKind .file Options.standardPrelude
  let prelude := options.prelude.path? fun _ ↦ standardThere
  let machine ← loadAll (Machine.start .empty) prelude.toList
  let machine ← loadAll machine (← options.paths.mapM sourcesAt).flatten
  if options.runsInteractive then
    let (_, machine) ← perform machine (fun _ ↦ banner.forM Run.emit) []
    prompt machine

end QuoteLisp

open QuoteLisp in
/-- Runs the program with the words of its command line. -/
def main (words : List String) : IO UInt32 := do
  let named := (← IO.getEnv Options.preludeVariable).filter (· != "")
  match Command.ofWords words named with
  | .error failure =>
    (("Error: " ++ failure.message) :: usage).forM fun line ↦ IO.eprintln line
    return 1
  | .ok .help =>
    usage.forM fun line ↦ IO.eprintln line
    return 0
  | .ok .version =>
    IO.println versionLine
    return 0
  | .ok (.run options) =>
    runOptions options
    return 0
