import Mathlib.Data.List.Lex
import QuoteLisp.File.Path
import QuoteLisp.Proofs.Text.ByteOrder
import QuoteLisp.Proofs.Text.Runs

/-!
# Paths in the order of their components

Paths are compared component by component, and names by their bytes (`Before`). This is the strict
part of the order that files are sorted in (`le_iff`).

A name that is joined to a path is one more component of it (`components_join`). So the paths
beneath a directory tell the names that lead there from the directory (`foldl_join_injective`).
-/

namespace QuoteLisp.Path

variable {path path' name extension : String} {names names' : List String}

/-! ## The order of components -/

namespace Component

variable {component component' third : Component}

/-- A component comes before another: kinds by their place, and entries by the bytes of their
names. -/
inductive Before : Component → Component → Prop
  | rank {component component' : Component} :
      component.rank < component'.rank → Before component component'
  | entry {name name' : String} : BytesBefore name name' → Before (entry name) (entry name')

theorem precedes_iff : component.precedes component' = true ↔ component.Before component' := by
  constructor
  · intro h
    match component, component' with
    | entry _, entry _ => exact .entry (bytesBefore_iff.mpr (of_decide_eq_true h))
    | root, _ | here, _ | up, _ | entry _, root | entry _, here | entry _, up =>
      exact .rank (of_decide_eq_true h)
  · rintro (hrank | hbytes)
    · match component, component' with
      | entry _, entry _ => exact absurd hrank (Nat.lt_irrefl _)
      | root, _ | here, _ | up, _ | entry _, root | entry _, here | entry _, up =>
        exact decide_eq_true hrank
    · exact decide_eq_true (bytesBefore_iff.mp hbytes)

theorem Before.asymm (h : component.Before component') : ¬component'.Before component := by
  rintro (hrank | hbytes)
  · cases h with
    | rank hrank' => exact Nat.lt_asymm hrank hrank'
    | entry => exact Nat.lt_irrefl _ hrank
  · cases h with
    | rank hrank => exact Nat.lt_irrefl _ hrank
    | entry hbytes' => exact hbytes.asymm hbytes'

theorem Before.trans (h : component.Before component') (h' : component'.Before third) :
    component.Before third := by
  rcases h with hrank | hbytes
  · cases h' with
    | rank hrank' => exact .rank (Nat.lt_trans hrank hrank')
    | entry => exact .rank hrank
  · cases h' with
    | rank hrank => exact .rank hrank
    | entry hbytes' => exact .entry (hbytes.trans hbytes')

/-- Of two components, one comes before the other. -/
theorem before_total (h : component ≠ component') :
    component.Before component' ∨ component'.Before component := by
  rcases Nat.lt_trichotomy component.rank component'.rank with hrank | hrank | hrank
  · exact .inl (.rank hrank)
  · match component, component' with
    | root, root | here, here | up, up => exact absurd rfl h
    | entry name, entry name' =>
      by_cases hlt : name < name'
      · exact .inl (.entry (bytesBefore_iff.mpr hlt))
      · refine .inr (.entry (bytesBefore_iff.mpr (String.not_le.mp fun hle ↦ ?_)))
        exact h (congrArg entry (String.le_antisymm hle (String.not_lt.mp hlt)))
  · exact .inr (.rank hrank)

end Component

/-- A path comes before another: the first component in which they differ decides, and a path comes
before all that continue it. -/
def Before (path path' : String) : Prop :=
  List.Lex Component.Before (components path) (components path')

theorem Before.asymm (h : Before path path') : ¬Before path' path :=
  List.lex_asymm Component.Before.asymm h

theorem componentsLe_iff {components components' : List Component} :
    componentsLe components components' = true ↔
      components = components' ∨ List.Lex Component.Before components components' := by
  induction components generalizing components' with
  | nil =>
    cases components' with
    | nil => exact iff_of_true rfl (.inl rfl)
    | cons => exact iff_of_true rfl (.inr .nil)
  | cons component components ih =>
    cases components' with
    | nil => exact iff_of_false Bool.false_ne_true (by simp)
    | cons component' components' =>
      rw [componentsLe, List.cons_lex_cons_iff, List.cons.injEq]
      by_cases h : component = component'
      · subst h
        have hirrefl : ¬component.Before component := fun hbefore ↦ hbefore.asymm hbefore
        simp only [if_true, ih, true_and, hirrefl, false_or]
      · simp only [h, if_false, Component.precedes_iff, false_and, false_or, or_false]

/-- The order that files are sorted in: a path comes before another or has the same components. -/
theorem le_iff : le path path' = true ↔ components path = components path' ∨ Before path path' :=
  componentsLe_iff

theorem le_trans {third : String} (h : le path path' = true) (h' : le path' third = true) :
    le path third = true := by
  rw [le_iff] at h h' ⊢
  rw [Before] at h h' ⊢
  rcases h with heq | hlex
  · rwa [heq]
  · rcases h' with heq' | hlex'
    · exact .inr (heq' ▸ hlex)
    · exact .inr (List.lex_trans Component.Before.trans hlex hlex')

theorem componentsLe_total (components components' : List Component) :
    (componentsLe components components' || componentsLe components' components) = true := by
  induction components generalizing components' with
  | nil => rfl
  | cons component components ih =>
    cases components' with
    | nil => rfl
    | cons component' components' =>
      rw [componentsLe, componentsLe]
      by_cases h : component = component'
      · rw [if_pos h, if_pos h.symm]
        exact ih components'
      · rw [if_neg h, if_neg (Ne.symm h), Bool.or_eq_true, Component.precedes_iff,
          Component.precedes_iff]
        exact Component.before_total h

theorem le_total (path path' : String) : (le path path' || le path' path) = true :=
  componentsLe_total _ _

/-! ## Components -/

theorem IsName.component?_eq (h : IsName name) : component? name = some (.entry name) := by
  have hstays : staysPut name = false := by
    rw [staysPut, beq_false_of_ne h.ne_empty, beq_false_of_ne h.ne_dot]
    rfl
  rw [component?, hstays, if_neg Bool.false_ne_true, if_neg h.ne_dots]

/-! ## Joining -/

/-- A name that is joined to a path becomes its last part. If the path ends in a slash, the name
takes the place of the empty part after it. -/
theorem exists_parts_join (hpath : path ≠ "") (hname : '/' ∉ name.toList) :
    ∃ front, front ≠ [] ∧ (parts path = front ∨ parts path = front ++ [""]) ∧
      parts (join path name) = front ++ [name] := by
  have hlast : path.toList.getLast? ≠ none := fun h ↦
    hpath (String.toList_eq_nil_iff.mp (List.getLast?_eq_none_iff.mp h))
  have hsplit (front : List Char) :
      (splitAt '/' (front ++ '/' :: name.toList)).map String.ofList
        = (splitAt '/' front).map String.ofList ++ [name] := by
    rw [splitAt_append_cons, splitAt_of_not_mem hname, List.map_append, List.map_singleton,
      String.ofList_toList]
  rw [join]
  split
  · exact absurd ‹_› hlast
  · obtain ⟨front, hfront⟩ := List.getLast?_eq_some_iff.mp ‹_›
    refine ⟨(splitAt '/' front).map String.ofList, ?_, .inr ?_, ?_⟩
    · exact mt List.map_eq_nil_iff.mp (splitAt_ne_nil _ _)
    · rw [parts, hfront, splitAt_append_cons, List.map_append]
      rfl
    · rw [parts, String.toList_append, hfront, List.append_assoc]
      exact hsplit front
  · refine ⟨parts path, mt List.map_eq_nil_iff.mp (splitAt_ne_nil _ _), .inl rfl, ?_⟩
    rw [parts, String.toList_append, String.toList_append, List.append_assoc]
    exact hsplit path.toList

theorem head?_join (hpath : path ≠ "") (name : String) :
    (join path name).toList.head? = path.toList.head? := by
  obtain ⟨c, cs, hcs⟩ := List.exists_cons_of_ne_nil (mt String.toList_eq_nil_iff.mp hpath)
  rw [join]
  split <;> simp only [String.toList_append, hcs, List.cons_append, List.head?_cons]

theorem join_ne_empty (hpath : path ≠ "") (name : String) : join path name ≠ "" := fun h ↦ by
  have hhead := head?_join hpath name
  rw [h] at hhead
  exact hpath (String.toList_eq_nil_iff.mp (List.head?_eq_none_iff.mp hhead.symm))

/-- A name that is joined to a path is one more component. -/
theorem components_join (hpath : path ≠ "") (hname : IsName name) :
    components (join path name) = components path ++ [.entry name] := by
  obtain ⟨front, hfront, hparts, hjoin⟩ := exists_parts_join hpath hname.slash_not_mem
  have hhead : (parts (join path name)).head? = (parts path).head? := by
    rw [hjoin, List.head?_append_of_ne_nil _ hfront]
    rcases hparts with h | h
    · rw [h]
    · rw [h, List.head?_append_of_ne_nil _ hfront]
  have hcomponents : (parts path).filterMap component? = front.filterMap component? := by
    rcases hparts with h | h
    · rw [h]
    · rw [h, List.filterMap_append]
      exact List.append_nil _
  rw [components, components, leading?, leading?, head?_join hpath, hhead, hjoin, hcomponents,
    List.filterMap_append, List.append_assoc]
  congr 2
  rw [List.filterMap_cons, hname.component?_eq]
  rfl

theorem components_foldl_join (hpath : path ≠ "") (hnames : ∀ name ∈ names, IsName name) :
    components (names.foldl join path) = components path ++ names.map .entry := by
  induction names generalizing path with
  | nil => exact (List.append_nil _).symm
  | cons name names ih =>
    obtain ⟨hname, hnames⟩ := List.forall_mem_cons.mp hnames
    rw [List.foldl_cons, ih (join_ne_empty hpath name) hnames, components_join hpath hname,
      List.append_assoc]
    rfl

/-- Beneath a directory, different names lead to paths with different components. -/
theorem foldl_join_injective (hpath : path ≠ "") (hnames : ∀ name ∈ names, IsName name)
    (hnames' : ∀ name ∈ names', IsName name)
    (h : components (names.foldl join path) = components (names'.foldl join path)) :
    names = names' := by
  rw [components_foldl_join hpath hnames, components_foldl_join hpath hnames'] at h
  exact (List.map_inj_right fun _ _ ↦ Component.entry.inj).mp (List.append_cancel_left h)

/-! ## Extensions -/

/-- The extension of a name follows its last dot, and something stands before the dot. -/
theorem extension?_eq_some_iff :
    extension? name = some extension ↔
      ∃ stem, name = stem ++ "." ++ extension ∧ stem ≠ "" ∧ '.' ∉ extension.toList := by
  have hbefore (stem : String) : (stem ++ "." ++ extension).toList.reverse
      = extension.toList.reverse ++ '.' :: stem.toList.reverse := by
    rw [String.toList_append, String.toList_append, List.reverse_append, List.reverse_append]
    rfl
  constructor
  · intro h
    rw [extension?] at h
    obtain ⟨dot, c, cs, hdrop⟩ :
        ∃ dot c cs, name.toList.reverse.dropWhile (· != '.') = dot :: c :: cs := by
      cases hdrop : name.toList.reverse.dropWhile (· != '.') with
      | nil => simp only [hdrop, reduceCtorEq] at h
      | cons dot stem =>
        cases stem with
        | nil => simp only [hdrop, reduceCtorEq] at h
        | cons c cs => exact ⟨dot, c, cs, rfl⟩
    rw [hdrop] at h
    obtain rfl := Option.some.inj h
    obtain ⟨hsplit, hrun, hhead⟩ := takeWhile_eq_and_dropWhile_eq_iff.mp ⟨rfl, hdrop⟩
    obtain rfl : dot = '.' := by simpa using hhead dot rfl
    refine ⟨String.ofList (c :: cs).reverse, ?_, fun hempty ↦ ?_, fun hmem ↦ ?_⟩
    · rw [← String.toList_inj, ← List.reverse_inj, hbefore, String.toList_ofList,
        String.toList_ofList, List.reverse_reverse, List.reverse_reverse, hsplit]
    · exact List.cons_ne_nil _ _ (List.reverse_eq_nil_iff.mp (String.ofList_eq_empty_iff.mp hempty))
    · rw [String.toList_ofList, List.mem_reverse] at hmem
      exact bne_iff_ne.mp (hrun '.' hmem) rfl
  · rintro ⟨stem, rfl, hstem, hdot⟩
    have hrun : ∀ c ∈ extension.toList.reverse, (c != '.') = true := fun c hc ↦
      bne_iff_ne.mpr (ne_of_mem_of_not_mem (List.mem_reverse.mp hc) hdot)
    have hhead : ∀ c ∈ ('.' :: stem.toList.reverse).head?, (c != '.') = false := by
      rintro _ ⟨⟩
      rfl
    obtain ⟨htake, hdrop⟩ := takeWhile_eq_and_dropWhile_eq_iff.mpr
      ⟨(hbefore stem).symm, hrun, hhead⟩
    obtain ⟨c, cs, hcs⟩ := List.exists_cons_of_ne_nil
      (mt List.reverse_eq_nil_iff.mp (mt String.toList_eq_nil_iff.mp hstem))
    rw [extension?, hdrop, htake, hcs, List.reverse_reverse, String.ofList_toList]

/-- A path leads to an entry with an extension. -/
def HasExtension (path extension : String) : Prop :=
  ∃ front stem, components path = front ++ [.entry (stem ++ "." ++ extension)] ∧ stem ≠ "" ∧
    '.' ∉ extension.toList

/-- The components of a path after its beginning are the parts that do not stay in place. -/
theorem filterMap_component? (parts : List String) :
    parts.filterMap component? = (parts.filter (!staysPut ·)).map
      fun part ↦ if part = ".." then .up else .entry part := by
  induction parts with
  | nil => rfl
  | cons part parts ih =>
    rw [List.filterMap_cons, List.filter_cons, component?, ih]
    cases staysPut part with
    | true => rfl
    | false =>
      have hsome : (if part = ".." then some Component.up else some (.entry part))
          = some (if part = ".." then .up else .entry part) := by split <;> rfl
      rw [if_neg Bool.false_ne_true, hsome]
      rfl

/-- The name of a file is the entry that its path ends with. -/
theorem getLast?_components_eq_entry_iff :
    (components path).getLast? = some (.entry name) ↔ fileName? path = some name := by
  have hleading : leading? path ≠ some (.entry name) := by
    rw [leading?]
    split
    · nofun
    · split <;> nofun
  rw [components, filterMap_component?, fileName?]
  rcases List.eq_nil_or_concat' ((parts path).filter (!staysPut ·)) with hnil | ⟨front, last, hlast⟩
  · rw [hnil, List.map_nil, List.append_nil]
    refine iff_of_false (fun h ↦ hleading ?_) nofun
    cases hfirst : leading? path with
    | none => rw [hfirst] at h; cases h
    | some first => rw [hfirst] at h; exact h
  · rw [hlast, List.map_append, List.map_singleton, ← List.append_assoc, List.getLast?_concat,
      List.getLast?_concat, Option.some_inj]
    by_cases hdots : last = ".."
    · rw [if_pos hdots, Option.filter_some, if_neg (by simpa using hdots)]
      exact iff_of_false nofun nofun
    · rw [if_neg hdots, Component.entry.injEq, Option.filter_some, if_pos (by simpa using hdots),
        Option.some_inj]

/-- Whether a path leads to an entry with an extension is told by the name of the file. -/
theorem hasExtension_iff :
    HasExtension path extension ↔ (fileName? path).bind extension? = some extension := by
  rw [Option.bind_eq_some_iff]
  constructor
  · rintro ⟨front, stem, hcomponents, hstem, hdot⟩
    refine ⟨_, getLast?_components_eq_entry_iff.mp ?_,
      extension?_eq_some_iff.mpr ⟨stem, rfl, hstem, hdot⟩⟩
    rw [hcomponents, List.getLast?_concat]
  · rintro ⟨name, hname, hextension⟩
    obtain ⟨stem, rfl, hstem, hdot⟩ := extension?_eq_some_iff.mp hextension
    obtain ⟨front, hfront⟩ :=
      List.getLast?_eq_some_iff.mp (getLast?_components_eq_entry_iff.mpr hname)
    exact ⟨front, stem, hfront, hstem, hdot⟩

end QuoteLisp.Path
