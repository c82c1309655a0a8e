import Mathlib.Data.List.Nodup
import QuoteLisp.File.Walk
import QuoteLisp.Proofs.File.Path
import QuoteLisp.Proofs.Listing

/-!
# What walks come upon

Names of entries lead from a directory to all that is beneath it. What is asked of a walk is that it
comes upon each entry that can be read once, by the path of the directory joined with the names that
lead to the entry, in whatever order (`Walk.Yields`). Which entries can be read is left open.

The walk in the order of the entries is one such walk (`FileTree.walk_yields`). It can read what it
is led to through directories whose paths are not too long for the operating system.
-/

namespace QuoteLisp

namespace FileNode

variable {node found : FileNode} {entries : List (String × FileNode)} {path name : String}
  {steps : List String}

/-- Names of entries lead from a node to what is found beneath it. -/
inductive Leads : FileNode → List String → FileNode → Prop
  | here (node : FileNode) : Leads node [] node
  | step {name : String} {node found : FileNode} {entries : List (String × FileNode)}
      {steps : List String} : (name, node) ∈ entries → Leads node steps found →
      Leads (directory entries) (name :: steps) found

theorem Leads.isName (h : node.Leads steps found) (hnode : node.WellFormed) :
    ∀ name ∈ steps, Path.IsName name := by
  induction h with
  | here => exact nofun
  | step hmem _ ih =>
    obtain _ | ⟨hnames, -, hsubtrees⟩ := hnode
    exact List.forall_mem_cons.mpr ⟨hnames _ (List.mem_map.mpr ⟨_, hmem, rfl⟩),
      ih (hsubtrees _ _ hmem)⟩

/-! ## The walk in the order of the entries -/

/-- All directories on the way from a path can be looked into: their own paths are not too long. -/
def Readable (path : String) (steps : List String) : Prop :=
  ∀ way, way <+: steps → way ≠ steps →
    (way.foldl Path.join path).utf8ByteSize ≤ FileTree.maxPathLength

theorem readable_nil (path : String) : Readable path [] :=
  fun _ hway hne ↦ absurd (List.prefix_nil.mp hway) hne

theorem readable_cons_iff :
    Readable path (name :: steps) ↔
      path.utf8ByteSize ≤ FileTree.maxPathLength ∧ Readable (Path.join path name) steps := by
  constructor
  · refine fun h ↦ ⟨h [] List.nil_prefix (List.cons_ne_nil _ _).symm, fun way hway hne ↦ ?_⟩
    exact h (name :: way) (List.cons_prefix_cons.mpr ⟨rfl, hway⟩)
      fun heq ↦ hne (List.cons.inj heq).2
  · rintro ⟨hpath, hsteps⟩ (_ | ⟨first, way⟩) hprefix hne
    · exact hpath
    · obtain ⟨rfl, hway⟩ := List.cons_prefix_cons.mp hprefix
      exact hsteps way hway fun heq ↦ hne (congrArg (first :: ·) heq)

theorem walkIn_eq_flatMap (path : String) (entries : List (String × FileNode)) :
    walkIn path entries = entries.flatMap fun entry ↦ walk (Path.join path entry.1) entry.2 := by
  induction entries with
  | nil => rw [walkIn, List.flatMap_nil]
  | cons entry entries ih => rw [walkIn, List.flatMap_cons, ih]

/-- The walk comes upon what names lead to through directories that can be looked into. -/
theorem WellFormed.ok_mem_walk_iff (h : node.WellFormed) {thing : Found} :
    .ok thing ∈ node.walk path ↔ ∃ steps found, node.Leads steps found ∧ Readable path steps ∧
      thing = ⟨steps.foldl Path.join path, found.isFile⟩ := by
  constructor
  · intro hmem
    induction h generalizing path with
    | file contents =>
      obtain rfl := Except.ok.inj (List.mem_singleton.mp hmem)
      exact ⟨[], _, .here _, readable_nil path, rfl⟩
    | @directory entries _ _ _ ih =>
      rw [walk] at hmem
      rcases List.mem_cons.mp hmem with heq | hmem
      · obtain rfl := Except.ok.inj heq
        exact ⟨[], _, .here _, readable_nil path, rfl⟩
      · split at hmem
        · cases List.mem_singleton.mp hmem
        · rw [walkIn_eq_flatMap] at hmem
          obtain ⟨⟨name, node⟩, hentry, hmem⟩ := List.mem_flatMap.mp hmem
          obtain ⟨steps, found, hleads, hreadable, rfl⟩ := ih name node hentry hmem
          exact ⟨name :: steps, found, .step hentry hleads,
            readable_cons_iff.mpr ⟨not_lt.mp ‹_›, hreadable⟩, rfl⟩
  · rintro ⟨steps, found, hleads, hreadable, rfl⟩
    clear h
    induction hleads generalizing path with
    | here node => cases node <;> exact List.mem_cons_self
    | step hentry _ ih =>
      obtain ⟨hpath, hreadable⟩ := readable_cons_iff.mp hreadable
      rw [walk, if_neg (not_lt.mpr hpath), walkIn_eq_flatMap]
      exact List.mem_cons_of_mem _ (List.mem_flatMap.mpr ⟨_, hentry, ih hreadable⟩)

/-- The walk comes upon nothing twice: different names lead to paths with different components. -/
theorem WellFormed.nodup_walk (h : node.WellFormed) (hpath : path ≠ "") :
    ((node.walk path).filterMap Except.toOption).Nodup := by
  induction h generalizing path with
  | file contents => exact List.nodup_singleton _
  | @directory entries hnames hnodup hsubtrees ih =>
    have hname {name : String} {node : FileNode} (hentry : (name, node) ∈ entries) :
        Path.IsName name := hnames name (List.mem_map.mpr ⟨_, hentry, rfl⟩)
    -- what is met beneath an entry is one of the paths that begin with its name
    have hsteps {name : String} {node : FileNode} {thing : Found} (hentry : (name, node) ∈ entries)
        (h : thing ∈ (node.walk (Path.join path name)).filterMap Except.toOption) :
        ∃ steps, (∀ name ∈ steps, Path.IsName name) ∧
          thing.path = (name :: steps).foldl Path.join path := by
      have hnode := hsubtrees name node hentry
      obtain ⟨steps, found, hleads, -, rfl⟩ :=
        hnode.ok_mem_walk_iff.mp (mem_filterMap_toOption_iff.mp h)
      exact ⟨steps, hleads.isName hnode, rfl⟩
    rw [walk]
    change ((⟨path, false⟩ : Found) :: List.filterMap Except.toOption _).Nodup
    rw [List.nodup_cons]
    split
    · exact ⟨List.not_mem_nil, List.nodup_nil⟩
    · rw [walkIn_eq_flatMap, List.filterMap_flatMap, List.nodup_flatMap]
      refine ⟨fun hself ↦ ?_, fun entry hentry ↦ ?_,
        (List.pairwise_map.mp hnodup).imp_of_mem fun {first second} hfirst hsecond hne ↦ ?_⟩
      · obtain ⟨entry, hentry, hself⟩ := List.mem_flatMap.mp hself
        obtain ⟨steps, hsteps, heq⟩ := hsteps hentry hself
        exact List.cons_ne_nil _ _ (Path.foldl_join_injective hpath
          (List.forall_mem_cons.mpr ⟨hname hentry, hsteps⟩) nofun (congrArg _ heq.symm))
      · exact ih entry.1 entry.2 hentry (Path.join_ne_empty hpath _)
      · intro thing hthing hthing'
        obtain ⟨steps, hsteps₁, heq₁⟩ := hsteps hfirst hthing
        obtain ⟨steps', hsteps₂, heq₂⟩ := hsteps hsecond hthing'
        have heq := Path.foldl_join_injective hpath
          (List.forall_mem_cons.mpr ⟨hname hfirst, hsteps₁⟩)
          (List.forall_mem_cons.mpr ⟨hname hsecond, hsteps₂⟩)
          (congrArg Path.components (heq₁.symm.trans heq₂))
        exact hne (List.cons.inj heq).1

end FileNode

namespace FileTree

variable {tree : FileTree} {found : FileNode} {path : String}

/-! ## Following a path -/

/-- One part of a path is followed. Going up from the root stays there. -/
theorem follow_directory_cons (above : List FileNode) (entries : List (String × FileNode))
    (part : String) (parts : List String) :
    follow above (.directory entries) (part :: parts)
      = if Path.staysPut part then follow above (.directory entries) parts
        else if part = ".." then follow above.tail (above.headD (.directory entries)) parts
        else if part.utf8ByteSize > maxNameLength then .error .nameTooLong
        else
          match entries.lookup part with
          | none => .error .missing
          | some child => follow (.directory entries :: above) child parts := by
  cases above <;> rw [follow] <;> rfl

theorem wellFormed_of_follow {above : List FileNode} {here : FileNode} {parts : List String}
    (habove : ∀ node ∈ above, node.WellFormed) (hhere : here.WellFormed)
    (h : follow above here parts = .ok found) : found.WellFormed := by
  induction parts generalizing above here with
  | nil => exact Except.ok.inj h ▸ hhere
  | cons part parts ih =>
    cases here with
    | file => cases h
    | directory entries =>
      rw [follow_directory_cons] at h
      split at h
      · exact ih habove hhere h
      split at h
      · cases above with
        | nil => exact ih habove hhere h
        | cons parent above =>
          obtain ⟨hparent, habove⟩ := List.forall_mem_cons.mp habove
          exact ih habove hparent h
      split at h
      · cases h
      · split at h
        · cases h
        · obtain _ | ⟨-, hnodup, hsubtrees⟩ := id hhere
          exact ih (List.forall_mem_cons.mpr ⟨hhere, habove⟩)
            (hsubtrees _ _ ((lookup_eq_some_iff_mem hnodup).mp ‹_›)) h

theorem wellFormed_of_resolve (h : tree.resolve path = .ok found) : found.WellFormed := by
  rw [resolve] at h
  split at h
  · cases h
  split at h
  · cases h
  split at h
  · cases h
  · exact wellFormed_of_follow (List.forall_mem_nil _) tree.wellFormed h

theorem ne_empty_of_resolve (h : tree.resolve path = .ok found) : path ≠ "" := by
  rintro rfl
  cases h

theorem isDirectory_iff : tree.isDirectory path = true ↔
    ∃ entries, tree.resolve path = .ok (.directory entries) := by
  rw [isDirectory]
  cases hresolve : tree.resolve path with
  | error => exact iff_of_false Bool.false_ne_true fun h ↦ by cases h.choose_spec
  | ok node =>
    cases node with
    | file => exact iff_of_false Bool.false_ne_true fun h ↦ by cases h.choose_spec
    | directory entries => exact iff_of_true rfl ⟨entries, rfl⟩

end FileTree

/-! ## What is asked of a walk -/

/-- A walk through the directories of a file system comes upon every entry beneath a directory that
can be read, exactly once, by the path of the directory joined with the names that lead to the
entry. -/
structure Walk.Yields (walk : Walk) (readable : String → List String → Prop) (tree : FileTree) :
    Prop where
  ok_mem_iff {path : String} {entries : List (String × FileNode)} {thing : Found} :
    tree.resolve path = .ok (.directory entries) → (.ok thing ∈ walk tree path ↔
      ∃ steps found, (FileNode.directory entries).Leads steps found ∧ readable path steps ∧
        thing = ⟨steps.foldl Path.join path, found.isFile⟩)
  nodup {path : String} {entries : List (String × FileNode)} :
    tree.resolve path = .ok (.directory entries) →
      ((walk tree path).filterMap Except.toOption).Nodup

/-- The walk in the order of the entries comes upon all that is beneath a directory, as far as the
paths of the directories on the way are not too long. -/
theorem FileTree.walk_yields (tree : FileTree) :
    FileTree.walk.Yields FileNode.Readable tree where
  ok_mem_iff h := by
    rw [walk, h]
    exact (wellFormed_of_resolve h).ok_mem_walk_iff
  nodup h := by
    rw [walk, h]
    exact (wellFormed_of_resolve h).nodup_walk (ne_empty_of_resolve h)

end QuoteLisp
