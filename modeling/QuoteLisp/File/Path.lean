import QuoteLisp.Text.Split

/-!
# Paths

A path is a text whose parts between slashes name directories and files. Empty parts and parts that
are a single dot stay where they are, so `d//a` and `d/./a` lead to the same place as `d/a`.

Paths are ordered by the steps that they take, their components, and not as texts: a slash separates
components and takes no part in the comparison. So `d/a/b` comes before `d/a-b`, although as texts
they are the other way round.
-/

namespace QuoteLisp.Path

/-- The parts of a path between its slashes, empty ones included. -/
def parts (path : String) : List String :=
  (splitAt '/' path.toList).map String.ofList

/-- Whether a part of a path stays in the directory it is looked up in. -/
def staysPut (part : String) : Bool :=
  part == "" || part == "."

/-- The name of the file or directory that a path leads to, when its last step is a name. A path
that ends by going up, or that takes no step at all, has none. -/
def fileName? (path : String) : Option String :=
  ((parts path).filter (!staysPut ·)).getLast?.filter (· != "..")

/-- The extension of a file name: what follows its last dot. A name without a dot has none, and
neither has a hidden file whose only dot is its first character. -/
def extension? (name : String) : Option String :=
  match name.toList.reverse.dropWhile (· != '.') with
  | [] | [_] => none
  | _ :: _ => some (String.ofList (name.toList.reverse.takeWhile (· != '.')).reverse)

/-- The path of an entry of a directory: the two are joined by a slash unless the directory's path
ends in one already or is empty. -/
def join (directory name : String) : String :=
  match directory.toList.getLast? with
  | none | some '/' => directory ++ name
  | some _ => directory ++ "/" ++ name

/-- The name of a directory entry. -/
structure IsName (name : String) : Prop where
  ne_empty : name ≠ ""
  ne_dot : name ≠ "."
  ne_dots : name ≠ ".."
  slash_not_mem : '/' ∉ name.toList

instance (name : String) : Decidable (IsName name) :=
  decidable_of_iff (name ≠ "" ∧ name ≠ "." ∧ name ≠ ".." ∧ '/' ∉ name.toList)
    ⟨fun ⟨hempty, hdot, hdots, hslash⟩ ↦ ⟨hempty, hdot, hdots, hslash⟩,
      fun ⟨hempty, hdot, hdots, hslash⟩ ↦ ⟨hempty, hdot, hdots, hslash⟩⟩

/-! ## The order of paths -/

/-- A step that a path takes: to the root, nowhere, up, or to an entry. -/
inductive Component where
  | root
  | here
  | up
  | entry (name : String)
deriving DecidableEq

namespace Component

/-- The place of a component among those of other kinds. -/
def rank : Component → Nat
  | root => 0
  | here => 1
  | up => 2
  | entry _ => 3

/-- Whether a component comes before another: kinds by their place, and entries by their names. -/
def precedes : Component → Component → Bool
  | entry name, entry name' => name < name'
  | component, component' => component.rank < component'.rank

end Component

/-- The component that a part of a path is, unless it stays in its directory. -/
def component? (part : String) : Option Component :=
  if staysPut part then none else if part = ".." then some .up else some (.entry part)

/-- What the beginning of a path says: it starts at the root, or with a dot. -/
def leading? (path : String) : Option Component :=
  if path.toList.head? = some '/' then some .root
  else if (parts path).head? = some "." then some .here else none

/-- The components of a path. Empty parts are none, and a dot is one at the beginning only. -/
def components (path : String) : List Component :=
  (leading? path).toList ++ (parts path).filterMap component?

/-- Whether some components come before others or are the same: the first in which they differ
decides, and components come before any that continue them. -/
def componentsLe : List Component → List Component → Bool
  | [], _ => true
  | _ :: _, [] => false
  | component :: rest, component' :: rest' =>
    if component = component' then componentsLe rest rest' else component.precedes component'

/-- Whether a path comes before another or has the same components. -/
def le (path path' : String) : Bool :=
  componentsLe (components path) (components path')

end QuoteLisp.Path
