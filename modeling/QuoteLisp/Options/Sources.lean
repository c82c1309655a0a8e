import QuoteLisp.File.Walk
import QuoteLisp.Options.Basic

/-!
# Source files

A path on the command line is a file to load, unless it leads to a directory: a directory stands for
all source files that a walk through it comes upon, at any depth. They are loaded in the order of
their paths, compared component by component, which is not the order of the paths as texts.
-/

namespace QuoteLisp

/-- The extension of source files. -/
def sourceExtension : String := "lspy"

/-- Whether a path ends in the name of a source file. -/
def isSourcePath (path : String) : Bool :=
  (Path.fileName? path).bind Path.extension? == some sourceExtension

/-- The source files among what a walk came upon, in the order of their paths. Failures of the walk
are passed over. -/
def sourcesAmong (found : List (Except ReadError Found)) : List String :=
  ((((found.filterMap Except.toOption).filter Found.isFile).map Found.path).filter
    isSourcePath).mergeSort Path.le

/-- The files that an argument stands for, given what a walk came upon if it leads to a
directory. -/
def expandPath (path : String) : Option (List (Except ReadError Found)) → List String
  | some found => sourcesAmong found
  | none => [path]

/-- The files to load, in order, as found by a way to walk through directories. -/
def Options.sourcesBy (walk : Walk) (tree : FileTree) (options : Options) : List String :=
  options.paths.flatMap fun path ↦
    expandPath path (if tree.isDirectory path then some (walk tree path) else none)

/-- The files to load, in order. -/
def Options.sources (tree : FileTree) (options : Options) : List String :=
  options.sourcesBy FileTree.walk tree

end QuoteLisp
