import QuoteLisp.File.ReadError
import QuoteLisp.Scope.Store

/-!
# The machine

What evaluation works on: the store of scopes and the output written so far. Files are not part of
it, because no program can change one: what the files hold is given beforehand, as a library.

## How a run ends

A run ends with a result and a new machine, or it stops early. It stops when its fuel is spent, so
that every run is a total function, and it stops when it needs a file that the library says nothing
about. A library that knows every path never causes the second, and for a run that ends at all there
is enough fuel to avoid the first.
-/

namespace QuoteLisp

/-- The lines written by a program. A broken output takes no lines, and no program can tell. -/
structure Output where
  accepts : Bool
  lines : Array String

namespace Output

/-- An output that nothing has been written to. -/
def empty : Output := ⟨true, #[]⟩

/-- An output on which every attempt to write fails. -/
def broken : Output := ⟨false, #[]⟩

/-- Writes a line, if the output takes it. -/
def write (output : Output) (line : String) : Output :=
  if output.accepts then { output with lines := output.lines.push line } else output

/-- The text of some lines, each ended by a line feed. -/
def textOf (lines : List String) : String :=
  String.join (lines.map (· ++ "\n"))

end Output

/-- The scopes and the output of a running program. -/
structure Machine where
  store : Store
  output : Output

/-- The place of the global scope, which every machine starts with. -/
def globalScope : ScopeId := 0

/-- The bindings of a fresh global scope: every primitive operation under its symbol. -/
def initialBindings : Bindings :=
  Bindings.ofList (Primitive.all.map fun operation ↦ (operation.name, .primitive operation))

/-- A machine with the primitive operations in its only scope. -/
def Machine.start (output : Output) : Machine :=
  ⟨⟨#[some ⟨initialBindings, none⟩]⟩, output⟩

/-- What is known of the files that a program may load: the text of the file at a path or the
reason why it has none. `none` says that nothing is known of the path. -/
structure Library where
  read? : String → Option (Except ReadError String)

/-- Why a run stopped before it had a result. -/
inductive Stop where
  | outOfFuel
  /-- The library says nothing about a file. -/
  | unread (path : String)

/-- A computation on a machine. -/
abbrev Run := StateT Machine (Except Stop)

namespace Run

/-- Runs a function on the store of scopes. -/
def modifyStore (change : Store → Store) : Run Unit :=
  modify fun machine ↦ { machine with store := change machine.store }

/-- Writes a line to the output. -/
def emit (line : String) : Run Unit :=
  modify fun machine ↦ { machine with output := machine.output.write line }

/-- Runs a computation in a scope of its own, which exists only for that long: it is put at the next
place before and taken back after. -/
def withScope {α : Type} (scope : Scope) (body : ScopeId → Run α) : Run α := do
  let id := (← get).store.nextId
  modifyStore (·.push scope)
  let result ← body id
  modifyStore Store.pop
  return result

end Run

end QuoteLisp
