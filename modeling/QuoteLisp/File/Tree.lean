import QuoteLisp.File.Path
import QuoteLisp.File.ReadError

/-!
# Directories and files

A directory is a list of named entries, each a file or another directory. A file system is one
directory, its root, with a place in it where relative paths start. A path is followed part by part:
every part but the last has to lead to a directory, and so does the last one if a slash follows it.
Going up from the root stays at the root.
-/

namespace QuoteLisp

/-- A file or a directory. -/
inductive FileNode where
  | file (contents : ByteArray)
  | directory (entries : List (String × FileNode))

namespace FileNode

/-- Every directory lists names of entries, each name once. -/
inductive WellFormed : FileNode → Prop
  | file (contents : ByteArray) : WellFormed (file contents)
  | directory {entries : List (String × FileNode)}
      (names : ∀ name ∈ entries.map Prod.fst, Path.IsName name)
      (nodup : (entries.map Prod.fst).Nodup)
      (subtrees : ∀ name node, (name, node) ∈ entries → WellFormed node) :
      WellFormed (directory entries)

/-- A directory without entries. -/
def empty : FileNode := directory []

theorem wellFormed_empty : empty.WellFormed :=
  .directory nofun List.nodup_nil nofun

/-- The files and directories in a directory; a file has none. -/
def entries : FileNode → List (String × FileNode)
  | file _ => []
  | directory entries => entries

/-- Whether it is a file. -/
def isFile : FileNode → Bool
  | file _ => true
  | directory _ => false

/-! ## Building -/

/-- Gives a name in a list of entries a new meaning, at the end of the list if it had none. -/
def setEntry (name : String) (node : FileNode) : List (String × FileNode) → List (String × FileNode)
  | [] => [(name, node)]
  | (other, held) :: rest =>
    if name = other then (name, node) :: rest else (other, held) :: setEntry name node rest

/-- Puts a file, or an empty directory when there is no contents, at the end of some steps.
Directories on the way are made as needed, and a directory that is there already is kept. -/
def put (contents : Option ByteArray) : List String → FileNode → FileNode
  | [], node =>
    match contents with
    | some bytes => file bytes
    | none => directory node.entries
  | name :: names, node =>
    directory (setEntry name (put contents names ((node.entries.lookup name).getD empty))
      node.entries)

theorem WellFormed.entries (h : WellFormed node) : WellFormed (.directory node.entries) := by
  cases h with
  | file => exact wellFormed_empty
  | directory names nodup subtrees => exact .directory names nodup subtrees

theorem mem_setEntry {name other : String} {node held : FileNode}
    {entries : List (String × FileNode)} (h : (other, held) ∈ setEntry name node entries) :
    other = name ∧ held = node ∨ (other, held) ∈ entries := by
  induction entries with
  | nil => exact .inl (Prod.mk.inj (List.mem_singleton.mp h))
  | cons entry entries ih =>
    rw [setEntry] at h
    split at h
    · rcases List.mem_cons.mp h with heq | hmem
      · exact .inl (Prod.mk.inj heq)
      · exact .inr (List.mem_cons_of_mem _ hmem)
    · rcases List.mem_cons.mp h with heq | hmem
      · exact .inr (heq ▸ List.mem_cons_self)
      · exact (ih hmem).imp_right (List.mem_cons_of_mem _)

theorem map_fst_setEntry (name : String) (node : FileNode) (entries : List (String × FileNode)) :
    (setEntry name node entries).map Prod.fst =
      if name ∈ entries.map Prod.fst then entries.map Prod.fst
      else entries.map Prod.fst ++ [name] := by
  induction entries with
  | nil => rfl
  | cons entry entries ih =>
    rw [setEntry]
    by_cases h : name = entry.1
    · rw [if_pos h, if_pos (h ▸ List.mem_cons_self), List.map_cons, List.map_cons, h]
    · have hmem : name ∈ (entry :: entries).map Prod.fst ↔ name ∈ entries.map Prod.fst := by
        rw [List.map_cons, List.mem_cons, or_iff_right h]
      simp only [if_neg h, List.map_cons, ih, ← hmem]
      split <;> rfl

theorem WellFormed.setEntry {name : String} {node : FileNode} {entries : List (String × FileNode)}
    (h : WellFormed (.directory entries)) (hname : Path.IsName name) (hnode : node.WellFormed) :
    WellFormed (.directory (setEntry name node entries)) := by
  obtain _ | ⟨hnames, hnodup, hsubtrees⟩ := h
  refine .directory (fun other hother ↦ ?_) ?_ fun other held hmem ↦ ?_
  · rw [map_fst_setEntry] at hother
    split at hother
    · exact hnames other hother
    · rcases List.mem_append.mp hother with hmem | hmem
      · exact hnames other hmem
      · exact List.mem_singleton.mp hmem ▸ hname
  · rw [map_fst_setEntry]
    split
    · exact hnodup
    · refine List.nodup_append.mpr ⟨hnodup, by simp, fun other hother last hlast heq ↦ ?_⟩
      obtain rfl := List.mem_singleton.mp hlast
      exact ‹¬_› (heq ▸ hother)
  · rcases mem_setEntry hmem with ⟨-, rfl⟩ | hmem
    · exact hnode
    · exact hsubtrees other held hmem

theorem WellFormed.lookup {name : String} {entries : List (String × FileNode)}
    (h : WellFormed (.directory entries)) : ((entries.lookup name).getD empty).WellFormed := by
  obtain _ | ⟨-, -, hsubtrees⟩ := h
  match hlookup : entries.lookup name with
  | none => exact wellFormed_empty
  | some node =>
    obtain ⟨front, back, rfl, -⟩ := List.lookup_eq_some_iff.mp hlookup
    exact hsubtrees name node (List.mem_append_right _ List.mem_cons_self)

theorem WellFormed.put {contents : Option ByteArray} {names : List String} {node : FileNode}
    (h : node.WellFormed) (hnames : ∀ name ∈ names, Path.IsName name) :
    (put contents names node).WellFormed := by
  induction names generalizing node with
  | nil =>
    match contents with
    | some bytes => exact .file bytes
    | none => exact h.entries
  | cons name names ih =>
    obtain ⟨hname, hnames⟩ := List.forall_mem_cons.mp hnames
    exact h.entries.setEntry hname (ih h.entries.lookup hnames)

/-- The directory that holds files with the given paths and contents; a path without contents is
that of a directory. -/
def ofFiles (files : List (String × Option ByteArray)) : FileNode :=
  files.foldl
    (fun node (path, contents) ↦ node.put contents ((Path.parts path).filter (Path.IsName ·))) empty

theorem wellFormed_ofFiles (files : List (String × Option ByteArray)) :
    (ofFiles files).WellFormed :=
  List.foldlRecOn files _ wellFormed_empty fun _ hnode _ _ ↦
    hnode.put fun _ hname ↦ of_decide_eq_true (List.mem_filter.mp hname).2

end FileNode

/-- A file system without links, and the steps from its root to the working directory. -/
structure FileTree where
  root : FileNode
  workingDirectory : List String
  wellFormed : root.WellFormed

namespace FileTree

/-- The file system whose working directory, beneath the root, holds the given files. -/
def ofFiles (files : List (String × Option ByteArray)) : FileTree where
  root := .directory [("work", .ofFiles files)]
  workingDirectory := ["work"]
  wellFormed := FileNode.wellFormed_empty.setEntry (by decide) (FileNode.wellFormed_ofFiles files)

/-- A file system whose working directory is empty. -/
def empty : FileTree := ofFiles []

/-! ## Following a path -/

/-- The longest name, in bytes, that a directory entry can have. -/
def maxNameLength : Nat := 255

/-- The longest path, in bytes, that the operating system takes. -/
def maxPathLength : Nat := 4095

/-- Follows the parts of a path. `above` holds the directories that going up leads to, the nearest
first. -/
def follow (above : List FileNode) (here : FileNode) : List String → Except ReadError FileNode
  | [] => .ok here
  | part :: parts =>
    match here with
    | .file _ => .error .notDirectory
    | .directory entries =>
      if Path.staysPut part then follow above here parts
      else if part = ".." then
        match above with
        | [] => follow [] here parts
        | parent :: above => follow above parent parts
      else if part.utf8ByteSize > maxNameLength then .error .nameTooLong
      else
        match entries.lookup part with
        | none => .error .missing
        | some child => follow (here :: above) child parts

/-- The steps from the root that a path starts after. -/
def start (tree : FileTree) (path : String) : List String :=
  if path.toList.head? = some '/' then [] else tree.workingDirectory

/-- What a path leads to. -/
def resolve (tree : FileTree) (path : String) : Except ReadError FileNode :=
  if path.toList.contains '\x00' then .error .nullInPath
  else if path = "" then .error .missing
  else if path.utf8ByteSize > maxPathLength then .error .nameTooLong
  else follow [] tree.root (tree.start path ++ Path.parts path)

/-- The text of the file that a path leads to. -/
def readText (tree : FileTree) (path : String) : Except ReadError String :=
  match tree.resolve path with
  | .error cause => .error cause
  | .ok (.directory _) => .error .isDirectory
  | .ok (.file contents) =>
    match String.fromUTF8? contents with
    | some text => .ok text
    | none => .error .notText

/-- Whether a path leads to a file. -/
def isFile (tree : FileTree) (path : String) : Bool :=
  match tree.resolve path with
  | .ok (.file _) => true
  | _ => false

/-- Whether a path leads to a directory. -/
def isDirectory (tree : FileTree) (path : String) : Bool :=
  match tree.resolve path with
  | .ok (.directory _) => true
  | _ => false

end FileTree

end QuoteLisp
