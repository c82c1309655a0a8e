import QuoteLisp.File.Tree

/-!
# Walks through a directory

A walk comes upon a directory, the entries in it, the entries of these and so on, in an order of its
own. Of each it tells the path, which is that of the directory joined with the names on the way. In
the place of what it cannot look into, it reports a failure.

The one here looks into directories by their paths, in the order in which they list their entries. A
directory whose path is longer than the operating system takes cannot be looked into; a file is come
upon when its directory is looked into, however long its own path is.
-/

namespace QuoteLisp

/-- What a walk comes upon: a file, or something else. -/
structure Found where
  path : String
  isFile : Bool
deriving DecidableEq

/-- A way to walk through the directory at a path. -/
abbrev Walk := FileTree → String → List (Except ReadError Found)

namespace FileNode

mutual

/-- All that a walk comes upon from a node at a path. -/
def walk (path : String) : FileNode → List (Except ReadError Found)
  | file _ => [.ok ⟨path, true⟩]
  | directory entries =>
    .ok ⟨path, false⟩ ::
      if path.utf8ByteSize > FileTree.maxPathLength then [.error .nameTooLong]
      else walkIn path entries

/-- All that a walk comes upon from some entries of the directory at a path. -/
def walkIn (path : String) : List (String × FileNode) → List (Except ReadError Found)
  | [] => []
  | (name, node) :: rest => walk (Path.join path name) node ++ walkIn path rest

end

end FileNode

/-- Walks through directories in the order of their entries. -/
def FileTree.walk : Walk := fun tree path ↦
  match tree.resolve path with
  | .error cause => [.error cause]
  | .ok node => node.walk path

end QuoteLisp
