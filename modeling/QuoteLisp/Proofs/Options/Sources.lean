import Mathlib.Data.List.Forall2
import QuoteLisp.Options.Sources
import QuoteLisp.Proofs.File.Walk

/-!
# The files that arguments stand for

An argument that leads to a directory stands for the source files beneath it in the order of their
paths, any other for itself (`Expands`). This says of every path whether it is among the files and
where, so there is one list of files for each argument, in whatever order a walk comes upon them.

Of the walk nothing is known but what is asked of every walk (`Walk.Yields`). In particular it may
meet the entries of different directories in turn, and fail at what it cannot look into.
-/

namespace QuoteLisp

variable {tree : FileTree} {path file : String} {files files' : List String}
  {found : List (Except ReadError Found)} {walk : Walk} {readable : String → List String → Prop}

/-! ## The files among what a walk came upon -/

theorem isSourcePath_iff : isSourcePath file = true ↔ Path.HasExtension file sourceExtension := by
  rw [isSourcePath, beq_iff_eq, Path.hasExtension_iff]

/-- The source files among what a walk came upon are the files it came upon that have the
extension. -/
theorem mem_sourcesAmong_iff :
    file ∈ sourcesAmong found ↔
      .ok ⟨file, true⟩ ∈ found ∧ Path.HasExtension file sourceExtension := by
  rw [sourcesAmong, List.mem_mergeSort, List.mem_filter, isSourcePath_iff, List.mem_map]
  refine and_congr_left fun _ ↦ ⟨?_, fun hmem ↦ ⟨⟨file, true⟩, ?_, rfl⟩⟩
  · rintro ⟨⟨path, isFile⟩, hmem, rfl⟩
    obtain ⟨hmem, hfile⟩ := List.mem_filter.mp hmem
    obtain rfl : isFile = true := hfile
    exact mem_filterMap_toOption_iff.mp hmem
  · exact List.mem_filter.mpr ⟨mem_filterMap_toOption_iff.mpr hmem, rfl⟩

/-- What a walk came upon once, at paths that take different steps, is put in strictly increasing
order. -/
theorem pairwise_sourcesAmong (hnodup : (found.filterMap Except.toOption).Nodup)
    (hsteps : ∀ file ∈ sourcesAmong found, ∀ file' ∈ sourcesAmong found,
      Path.components file = Path.components file' → file = file') :
    (sourcesAmong found).Pairwise Path.Before := by
  have hfiles : (sourcesAmong found).Nodup := by
    refine (List.mergeSort_perm _ _).nodup_iff.mpr (.filter _ (.map_on ?_ (hnodup.filter _)))
    rintro ⟨path, isFile⟩ hmem ⟨path', isFile'⟩ hmem' rfl
    obtain rfl : isFile = true := (List.mem_filter.mp hmem).2
    obtain rfl : isFile' = true := (List.mem_filter.mp hmem').2
    rfl
  have hle : (sourcesAmong found).Pairwise fun file file' ↦ Path.le file file' :=
    @List.pairwise_mergeSort _ Path.le (fun _ _ _ ↦ Path.le_trans) Path.le_total _
  refine (hle.and hfiles).imp_of_mem fun hmem hmem' hboth ↦ ?_
  exact (Path.le_iff.mp hboth.1).resolve_left fun heq ↦ hboth.2 (hsteps _ hmem _ hmem' heq)

/-! ## Expansion -/

/-- The path of a source file beneath a directory, as far as it can be read. -/
def SourceBeneath (readable : String → List String → Prop) (directory : FileNode)
    (path file : String) : Prop :=
  ∃ steps contents, directory.Leads steps (.file contents) ∧ readable path steps ∧
    file = steps.foldl Path.join path ∧ Path.HasExtension file sourceExtension

/-- The files that an argument stands for: those beneath the directory that it leads to, in strictly
increasing order, or the argument itself. -/
inductive Expands (readable : String → List String → Prop) (tree : FileTree) (path : String) :
    List String → Prop
  | directory {entries : List (String × FileNode)} {files : List String}
      (resolve : tree.resolve path = .ok (.directory entries))
      (mem_iff : ∀ file, file ∈ files ↔ SourceBeneath readable (.directory entries) path file)
      (ordered : files.Pairwise Path.Before) : Expands readable tree path files
  | self (resolve : ∀ entries, tree.resolve path ≠ .ok (.directory entries)) :
      Expands readable tree path [path]

namespace Expands

theorem pairwise (h : Expands readable tree path files) : files.Pairwise Path.Before := by
  cases h with
  | directory _ _ hordered => exact hordered
  | self => exact List.pairwise_singleton _ _

theorem nodup (h : Expands readable tree path files) : files.Nodup :=
  h.pairwise.imp fun {file file'} hbefore heq ↦ by
    subst heq
    exact hbefore.asymm hbefore

theorem unique (h : Expands readable tree path files) (h' : Expands readable tree path files') :
    files = files' := by
  cases h with
  | directory hresolve hmem hordered =>
    cases h' with
    | directory hresolve' hmem' hordered' =>
      cases hresolve.symm.trans hresolve'
      exact eq_of_pairwise_of_mem_iff (fun _ _ hbefore ↦ hbefore.asymm) hordered hordered'
        fun file ↦ (hmem file).trans (hmem' file).symm
    | self hnot => exact absurd hresolve (hnot _)
  | self hnot =>
    cases h' with
    | directory hresolve => exact absurd hresolve (hnot _)
    | self => rfl

end Expands

/-- The files that a walk comes upon beneath a directory are the files beneath it. -/
theorem Walk.Yields.ok_file_mem_iff (h : walk.Yields readable tree)
    {entries : List (String × FileNode)} (hresolve : tree.resolve path = .ok (.directory entries)) :
    .ok ⟨file, true⟩ ∈ walk tree path ↔ ∃ steps contents,
      (FileNode.directory entries).Leads steps (.file contents) ∧ readable path steps ∧
        file = steps.foldl Path.join path := by
  rw [h.ok_mem_iff hresolve]
  constructor
  · rintro ⟨steps, found, hleads, hreadable, heq⟩
    obtain ⟨rfl, hfile⟩ := Found.mk.inj heq
    cases found with
    | file contents => exact ⟨steps, contents, hleads, hreadable, rfl⟩
    | directory => cases hfile
  · rintro ⟨steps, contents, hleads, hreadable, rfl⟩
    exact ⟨steps, _, hleads, hreadable, rfl⟩

/-- Whatever walk it is that looks for files, an argument stands for what it is expanded to. -/
theorem Walk.Yields.expands (h : walk.Yields readable tree) (path : String) :
    Expands readable tree path
      (expandPath path (if tree.isDirectory path then some (walk tree path) else none)) := by
  by_cases hdirectory : tree.isDirectory path = true
  · rw [if_pos hdirectory]
    obtain ⟨entries, hresolve⟩ := FileTree.isDirectory_iff.mp hdirectory
    have hpath := FileTree.ne_empty_of_resolve hresolve
    have hentries := FileTree.wellFormed_of_resolve hresolve
    have hmem (file : String) : file ∈ sourcesAmong (walk tree path) ↔
        SourceBeneath readable (.directory entries) path file := by
      rw [mem_sourcesAmong_iff, h.ok_file_mem_iff hresolve]
      simp only [SourceBeneath, ← exists_and_right, and_assoc]
    refine .directory hresolve hmem (pairwise_sourcesAmong (h.nodup hresolve) ?_)
    intro file hfile file' hfile' heq
    obtain ⟨steps, _, hleads, -, rfl, -⟩ := (hmem file).mp hfile
    obtain ⟨steps', _, hleads', -, rfl, -⟩ := (hmem file').mp hfile'
    rw [Path.foldl_join_injective hpath (hleads.isName hentries) (hleads'.isName hentries) heq]
  · rw [if_neg hdirectory]
    exact .self fun entries hresolve ↦ hdirectory (FileTree.isDirectory_iff.mpr ⟨entries, hresolve⟩)

/-- **Arguments stand for all source files beneath them, in order.** Let a walk come upon every
entry that can be read once. The files to load are then those that the arguments stand for, in the
order of the arguments. An argument that leads to a directory stands for all source files beneath
it, each once, in strictly increasing order of their paths component by component; any other stands
for itself. Every walk that comes upon the same entries finds the same files, in whatever order it
meets them. -/
theorem Options.sources_expand (h : walk.Yields readable tree) (options : Options) :
    (∃ lists, options.sourcesBy walk tree = lists.flatten ∧
      List.Forall₂ (Expands readable tree) options.paths lists ∧ ∀ files ∈ lists, files.Nodup) ∧
    ∀ walk' : Walk, walk'.Yields readable tree →
      options.sourcesBy walk' tree = options.sourcesBy walk tree := by
  refine ⟨⟨_, List.flatMap_def, ?_, fun files hfiles ↦ ?_⟩, fun walk' h' ↦ ?_⟩
  · exact List.forall₂_map_right_iff.mpr (List.forall₂_same.mpr fun path _ ↦ h.expands path)
  · obtain ⟨path, -, rfl⟩ := List.mem_map.mp hfiles
    exact (h.expands path).nodup
  · rw [sourcesBy, sourcesBy]
    congr 1
    funext path
    exact (h'.expands path).unique (h.expands path)

/-- An argument that leads nowhere stands for itself. A directory given from the root stands for two
of its files: the one in a directory of its own comes before the one with a hyphen, though not as a
text, and neither the hidden file nor the directory `x.lspy` is a source file. A directory above the
working directory is reached by going up. A walk that ends where the other begins finds the same. -/
theorem Options.sources_expand_of_nested :
    let file : FileNode := .file .empty
    let below : FileNode := .directory [("b.lspy", file), ("notes", file)]
    let lib : FileNode := .directory
      [("a", below), ("a-b.lspy", file), (".lspy", file), ("x.lspy", .directory [])]
    let root : FileNode := .directory [("lib", lib), ("work", .directory [])]
    let backwards : Walk := fun tree path ↦ (FileTree.walk tree path).reverse
    let options : Options := ⟨.disabled, ["none.lsp", "/lib", "../lib/a"], false⟩
    ∃ tree : FileTree, tree.root = root ∧ tree.workingDirectory = ["work"] ∧
      FileTree.walk.Yields FileNode.Readable tree ∧ backwards.Yields FileNode.Readable tree ∧
      options.sources tree
        = ["none.lsp", "/lib/a/b.lspy", "/lib/a-b.lspy", "../lib/a/b.lspy"] ∧
      options.sourcesBy backwards tree = options.sources tree ∧
      Path.Before "/lib/a/b.lspy" "/lib/a-b.lspy" ∧ "/lib/a-b.lspy" < "/lib/a/b.lspy" := by
  intro file below lib root backwards options
  have hbelow : below.WellFormed := .directory (by decide) (by decide) fun name node hmem ↦ by
    simp only [List.mem_cons, Prod.mk.injEq, List.not_mem_nil, or_false] at hmem
    obtain ⟨-, rfl⟩ | ⟨-, rfl⟩ := hmem <;> exact .file _
  have hlib : lib.WellFormed := .directory (by decide) (by decide) fun name node hmem ↦ by
    simp only [List.mem_cons, Prod.mk.injEq, List.not_mem_nil, or_false] at hmem
    obtain ⟨-, rfl⟩ | ⟨-, rfl⟩ | ⟨-, rfl⟩ | ⟨-, rfl⟩ := hmem
    · exact hbelow
    · exact .file _
    · exact .file _
    · exact FileNode.wellFormed_empty
  have hroot : root.WellFormed := .directory (by decide) (by decide) fun name node hmem ↦ by
    simp only [List.mem_cons, Prod.mk.injEq, List.not_mem_nil, or_false] at hmem
    obtain ⟨-, rfl⟩ | ⟨-, rfl⟩ := hmem
    · exact hlib
    · exact FileNode.wellFormed_empty
  let tree : FileTree := ⟨root, ["work"], hroot⟩
  have hwalk := tree.walk_yields
  have hbackwards : backwards.Yields FileNode.Readable tree :=
    ⟨fun hresolve ↦ List.mem_reverse.trans (hwalk.ok_mem_iff hresolve), fun hresolve ↦ by
      rw [List.filterMap_reverse]
      exact List.nodup_reverse.mpr (hwalk.nodup hresolve)⟩
  have hsorted : ["/lib/a/b.lspy", "/lib/a-b.lspy"].mergeSort Path.le
      = ["/lib/a/b.lspy", "/lib/a-b.lspy"] := List.mergeSort_of_pairwise (by decide)
  have hsources : options.sources tree
      = ["none.lsp", "/lib/a/b.lspy", "/lib/a-b.lspy", "../lib/a/b.lspy"] := by
    change "none.lsp" :: (["/lib/a/b.lspy", "/lib/a-b.lspy"].mergeSort Path.le ++
      (["../lib/a/b.lspy"].mergeSort Path.le ++ [])) = _
    rw [hsorted, List.mergeSort_singleton]
    rfl
  obtain ⟨⟨lists, -, hlists, -⟩, hsame⟩ := sources_expand hwalk options
  refine ⟨tree, rfl, rfl, hwalk, hbackwards, hsources, hsame backwards hbackwards, ?_, by decide⟩
  obtain _ | ⟨-, _ | ⟨hsecond, -⟩⟩ := hlists
  rw [hsecond.unique (hwalk.expands "/lib")] at hsecond
  change Expands _ tree "/lib" (["/lib/a/b.lspy", "/lib/a-b.lspy"].mergeSort Path.le) at hsecond
  rw [hsorted] at hsecond
  exact List.rel_of_pairwise_cons hsecond.pairwise List.mem_cons_self

end QuoteLisp
