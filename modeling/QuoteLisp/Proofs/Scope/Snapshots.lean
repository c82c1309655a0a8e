import Mathlib.Data.List.Forall2
import QuoteLisp.Proofs.Evaluation.History
import QuoteLisp.Proofs.Listing
import QuoteLisp.Proofs.Scope.Writes
import QuoteLisp.Proofs.Text.ByteOrder

/-!
# Snapshots of scopes

What a scope holds depends on what was written to it and on nothing else: under each name that was
ever written the value that was written last. How the names came in, how often they were written
and through which scopes does not show, because the entries are in the order of their names.

A table that is filled by the same writes may list its entries in any order. Sorted by name they
are the snapshot (`Bindings.sortByName_eq`), so this order does not show either.

## Records of writes

`Store.Recorded` is a store together with what was written to each of its scopes. Scopes are put up
empty or as copies, linked and given up in between, and a copy takes over what was written to the
original so far. The bindings of a scope are those that its record makes (`Recorded.bindings_eq`).
-/

namespace QuoteLisp

/-- The value that was written last under a name. -/
def lastWritten? (writes : List (String × Value)) (name : String) : Option Value :=
  writes.reverse.lookup name

/-! ## Bindings in order -/

namespace Bindings

variable {bindings bindings' : Bindings} {name : String} {value : Value}

/-- The entries are in strictly increasing order of name. -/
def Ordered (bindings : Bindings) : Prop :=
  bindings.Pairwise fun entry entry' ↦ entry.1 < entry'.1

theorem Ordered.insert (h : bindings.Ordered) (name : String) (value : Value) :
    (bindings.insert name value).Ordered := by
  induction bindings with
  | nil => exact List.pairwise_singleton _ _
  | cons entry rest ih =>
    obtain ⟨hentry, hrest⟩ := List.pairwise_cons.mp h
    rw [Bindings.insert]
    split
    · rename_i heq
      subst heq
      exact List.pairwise_cons.mpr ⟨hentry, hrest⟩
    · split
      · rename_i hlt
        refine List.pairwise_cons.mpr ⟨List.forall_mem_cons.mpr ⟨hlt, fun other hother ↦ ?_⟩, h⟩
        exact String.lt_trans hlt (hentry other hother)
      · have hlt : entry.1 < name := by grind
        exact List.pairwise_cons.mpr ⟨forall_mem_insert hlt hentry, ih hrest⟩

theorem ordered_ofList (entries : List (String × Value)) : (ofList entries).Ordered := by
  have hfold (bindings : Bindings) (h : bindings.Ordered) :
      (entries.foldl (fun bindings bound ↦ bindings.insert bound.1 bound.2) bindings).Ordered := by
    induction entries generalizing bindings with
    | nil => exact h
    | cons entry entries ih => exact ih _ (h.insert entry.1 entry.2)
  exact hfold [] List.Pairwise.nil

theorem Ordered.nodup (h : bindings.Ordered) : (bindings.map Prod.fst).Nodup :=
  List.pairwise_map.mpr (h.imp fun hlt ↦ String.ne_of_lt hlt)

/-- In order, an entry is found under its name. -/
theorem Ordered.mem_iff (h : bindings.Ordered) :
    (name, value) ∈ bindings ↔ bindings.find? name = some value :=
  (lookup_eq_some_iff_mem h.nodup).symm

/-- Bindings in order are determined by what is found in them. -/
theorem Ordered.ext (h : bindings.Ordered) (h' : bindings'.Ordered)
    (hfind : ∀ name, bindings.find? name = bindings'.find? name) : bindings = bindings' := by
  refine eq_of_pairwise_of_mem_iff (fun _ _ hlt ↦ String.lt_asymm hlt) h h' fun entry ↦ ?_
  exact h.mem_iff.trans ((hfind entry.1) ▸ h'.mem_iff.symm)

/-- The entries of a table, sorted by name. -/
def sortByName (entries : List (String × Value)) : Bindings :=
  entries.mergeSort fun entry entry' ↦ !decide (entry'.1 < entry.1)

theorem pairwise_sortByName (entries : List (String × Value)) :
    (sortByName entries).Pairwise fun entry entry' ↦ !decide (entry'.1 < entry.1) := by
  refine List.pairwise_mergeSort (fun first second third hle hle' ↦ ?_) (fun first second ↦ ?_)
    entries
  · simp only [Bool.not_eq_true', decide_eq_false_iff_not, String.not_lt] at hle hle' ⊢
    exact String.le_trans hle hle'
  · simp only [Bool.or_eq_true, Bool.not_eq_true', decide_eq_false_iff_not, String.not_lt]
    exact String.le_total first.1 second.1

/-- In whatever order a table lists its entries, sorting them by name gives the bindings in
order. -/
theorem Ordered.sortByName_eq (h : bindings.Ordered) {entries : List (String × Value)}
    (hnodup : (entries.map Prod.fst).Nodup)
    (hmem : ∀ name value, (name, value) ∈ entries ↔ bindings.find? name = some value) :
    sortByName entries = bindings := by
  have hperm : (sortByName entries).Perm bindings :=
    (List.mergeSort_perm entries _).trans <|
      (List.perm_ext_iff_of_nodup (.of_map _ hnodup) (.of_map _ h.nodup)).mpr fun entry ↦
        (hmem entry.1 entry.2).trans h.mem_iff.symm
  have hsorted : bindings.Pairwise fun entry entry' ↦ !decide (entry'.1 < entry.1) :=
    h.imp fun {first second} hlt ↦ by
      rw [Bool.not_eq_true', decide_eq_false_iff_not]
      exact String.lt_asymm hlt
  refine List.Perm.eq_of_pairwise (fun first second hfirst hsecond hle hle' ↦ ?_)
    (pairwise_sortByName entries) hsorted hperm
  simp only [Bool.not_eq_true', decide_eq_false_iff_not, String.not_lt] at hle hle'
  have hname : first.1 = second.1 := String.le_antisymm hle hle'
  have hfind := h.mem_iff.mp (hperm.mem_iff.mp hfirst)
  rw [hname, h.mem_iff.mp hsecond] at hfind
  exact Prod.ext hname (Option.some.inj hfind).symm

end Bindings

/-! ## Records -/

namespace Store

/-- What was written to each scope, in order. -/
abbrev WriteRecord := ScopeId → List (String × Value)

/-- The record with other writes to one scope. -/
def WriteRecord.set (record : WriteRecord) (id : ScopeId) (writes : List (String × Value)) :
    WriteRecord :=
  fun other ↦ if other = id then writes else record other

variable {store store' : Store} {id id' : ScopeId} {record record' : WriteRecord}

theorem scope?_copy (store : Store) (id other : ScopeId) :
    (store.copy id).scope? other
      = if other = store.nextId then store.scope? id else store.scope? other := by
  rw [scope?, copy, Array.getElem?_push, nextId]
  split <;> rfl

/-- The store came about by changes of which the writes were recorded. What was written to the
original of a copy before it was made counts as written to the copy. -/
inductive Recorded : Store → WriteRecord → Prop
  | empty : Recorded ⟨#[]⟩ fun _ ↦ []
  | create {store : Store} {record : WriteRecord} (parent : Option ScopeId) :
      Recorded store record → Recorded (store.push ⟨[], parent⟩) (record.set store.nextId [])
  | link {store : Store} {record : WriteRecord} (id parent : ScopeId) :
      Recorded store record → Recorded (store.setParent id parent) record
  | write {store : Store} {record : WriteRecord} (target : Target) (id : ScopeId) (name : String)
      (value : Value) : Recorded store record →
      Recorded (store.write target id name value)
        (record.set (store.target id target) (record (store.target id target) ++ [(name, value)]))
  | copy {store : Store} {record : WriteRecord} (id : ScopeId) :
      Recorded store record → Recorded (store.copy id) (record.set store.nextId (record id))
  | drop {store : Store} {record : WriteRecord} (id : ScopeId) :
      Recorded store record → Recorded (store.drop id) record

namespace Recorded

theorem bindings_of_scope? (h : Recorded store record) {scope : Scope}
    (hscope : store.scope? id = some scope) : scope.bindings = .ofList (record id) := by
  induction h generalizing id scope with
  | empty =>
    rw [scope?, Array.getElem?_empty] at hscope
    cases hscope
  | create parent _ ih =>
    rw [scope?_push] at hscope
    rw [WriteRecord.set]
    split at hscope
    · obtain rfl := Option.some.inj hscope
      rw [if_pos ‹_›]
      rfl
    · rw [if_neg ‹_›]
      exact ih hscope
  | link other parent _ ih =>
    rw [scope?_setParent] at hscope
    split at hscope
    · obtain ⟨before, hbefore, rfl⟩ := Option.map_eq_some_iff.mp hscope
      rw [← ih hbefore]
    · exact ih hscope
  | @write store record target writer name value _ ih =>
    rw [write_eq_setLocal, scope?_setLocal] at hscope
    rw [WriteRecord.set]
    split at hscope
    · rename_i hid
      obtain ⟨before, hbefore, rfl⟩ := Option.map_eq_some_iff.mp hscope
      rw [if_pos hid.symm, hid, Bindings.ofList, List.foldl_append]
      exact congrArg (Bindings.insert name value) (ih hbefore)
    · rename_i hid
      rw [if_neg (Ne.symm hid)]
      exact ih hscope
  | copy original _ ih =>
    rw [scope?_copy] at hscope
    rw [WriteRecord.set]
    split at hscope
    · rw [if_pos ‹_›]
      exact ih hscope
    · rw [if_neg ‹_›]
      exact ih hscope
  | drop other _ ih =>
    rw [scope?_drop] at hscope
    split at hscope
    · cases hscope
    · exact ih hscope

/-- A scope holds the bindings that its record makes. -/
theorem bindings_eq (h : Recorded store record) (hid : (store.scope? id).isSome) :
    store.bindings id = .ofList (record id) := by
  obtain ⟨scope, hscope⟩ := Option.isSome_iff_exists.mp hid
  rw [bindings_eq_of_scope?_eq_some hscope, h.bindings_of_scope? hscope]

/-- What is found in a scope is what was written last. -/
theorem find?_bindings (h : Recorded store record) (hid : (store.scope? id).isSome)
    (name : String) : (store.bindings id).find? name = lastWritten? (record id) name := by
  rw [h.bindings_eq hid, Bindings.find?_ofList, lastWritten?]

theorem ordered_bindings (h : Recorded store record) (hid : (store.scope? id).isSome) :
    (store.bindings id).Ordered := by
  rw [h.bindings_eq hid]
  exact Bindings.ordered_ofList _

/-- Scopes to which the same was written last have the same bindings. -/
theorem bindings_eq_bindings (h : Recorded store record) (h' : Recorded store' record')
    (hid : (store.scope? id).isSome) (hid' : (store'.scope? id').isSome)
    (hlast : ∀ name, lastWritten? (record id) name = lastWritten? (record' id') name) :
    store.bindings id = store'.bindings id' :=
  (h.ordered_bindings hid).ext (h'.ordered_bindings hid') fun name ↦ by
    rw [h.find?_bindings hid, h'.find?_bindings hid', hlast]

/-- Along chains to whose scopes the same was written last, all lookups have the same result. -/
theorem lookup?_eq_lookup? (h : Recorded store record) (h' : Recorded store' record')
    {ids ids' : List ScopeId} (hchain : store.HasLiveChain id ids)
    (hchain' : store'.HasLiveChain id' ids')
    (hlast : List.Forall₂
      (fun i i' ↦ ∀ name, lastWritten? (record i) name = lastWritten? (record' i') name) ids ids')
    (name : String) : store.lookup? id name = store'.lookup? id' name := by
  have hlive {store : Store} {id other : ScopeId} {ids : List ScopeId}
      (hchain : store.HasLiveChain id ids) (hmem : other ∈ ids) :
      (store.scope? other).isSome := by
    obtain ⟨_, _, _, hother⟩ := hchain.exists_of_mem hmem
    exact hother.isSome_scope?
  have hids := fun i (hi : i ∈ ids) ↦ hlive hchain hi
  have hids' := fun i (hi : i ∈ ids') ↦ hlive hchain' hi
  rw [hchain.lookup?_eq, hchain'.lookup?_eq]
  clear hchain hchain'
  induction hlast with
  | nil => rfl
  | cons hi _ ih =>
    obtain ⟨hfirst, hrest⟩ := List.forall_mem_cons.mp hids
    obtain ⟨hfirst', hrest'⟩ := List.forall_mem_cons.mp hids'
    rw [findSome?_cons_eq_or, findSome?_cons_eq_or, h.find?_bindings hfirst,
      h'.find?_bindings hfirst', hi, ih hrest hrest']

/-- Listing a scope writes its bindings, one line for each. -/
theorem ends_printScope (library : Library) (id : ScopeId) (args : List Value) (store : Store)
    (output : Output) :
    (Activity.call .printScope args).Ends library id ⟨store, output⟩ .unit
      ⟨store, output.writeAll (store.bindings id).lines⟩ :=
  Activity.ends_printScope_iff.mpr
    ⟨rfl, (Machine.emitAll_eq_after ⟨store, output⟩ (store.bindings id).lines).symm⟩

/-- **Snapshots are canonical.** Let a scope be there in a store of which all writes were recorded.
Its bindings are strictly increasing by name in the order of bytes. They have one entry for each
name that was ever written, with the value written last, and are what comes of sorting a table with
these entries, in whatever order it lists them. A scope of any store to which the same was written
last, by whatever other writes, has the same bindings, and listing either writes their lines. If
this holds all along the chains of two scopes, all names are looked up with the same result. -/
theorem snapshot_canonical (h : Recorded store record) (h' : Recorded store' record')
    (hid : (store.scope? id).isSome) (hid' : (store'.scope? id').isSome) :
    (store.bindings id).Pairwise (fun entry entry' ↦ BytesBefore entry.1 entry'.1) ∧
    (∀ name value, (name, value) ∈ store.bindings id ↔
      lastWritten? (record id) name = some value) ∧
    (∀ name, name ∈ (store.bindings id).map Prod.fst ↔ name ∈ (record id).map Prod.fst) ∧
    (∀ entries : List (String × Value), (entries.map Prod.fst).Nodup →
      (∀ name value, (name, value) ∈ entries ↔ lastWritten? (record id) name = some value) →
      Bindings.sortByName entries = store.bindings id) ∧
    ((∀ name, lastWritten? (record id) name = lastWritten? (record' id') name) →
      store.bindings id = store'.bindings id' ∧
      ∀ library args output,
        (Activity.call .printScope args).Ends library id ⟨store, output⟩ .unit
          ⟨store, output.writeAll (store.bindings id).lines⟩ ∧
        (Activity.call .printScope args).Ends library id' ⟨store', output⟩ .unit
          ⟨store', output.writeAll (store.bindings id).lines⟩) ∧
    (∀ ids ids', store.HasLiveChain id ids → store'.HasLiveChain id' ids' →
      List.Forall₂ (fun i i' ↦
        ∀ name, lastWritten? (record i) name = lastWritten? (record' i') name) ids ids' →
      ∀ name, store.lookup? id name = store'.lookup? id' name) := by
  have hmem (name : String) (value : Value) : (name, value) ∈ store.bindings id ↔
      lastWritten? (record id) name = some value := by
    rw [(h.ordered_bindings hid).mem_iff, h.find?_bindings hid]
  refine ⟨(h.ordered_bindings hid).imp bytesBefore_of_lt, hmem, fun name ↦ ?_,
    fun entries hnodup hentries ↦ ?_, fun hlast ↦ ?_,
    fun ids ids' hchain hchain' hlast name ↦ h.lookup?_eq_lookup? h' hchain hchain' hlast name⟩
  · rw [mem_map_fst_iff, ← List.mem_reverse, ← List.map_reverse, mem_map_fst_iff]
    exact Eq.to_iff (congrArg (·.isSome = true) (h.find?_bindings hid name))
  · refine (h.ordered_bindings hid).sortByName_eq hnodup fun name value ↦ ?_
    rw [hentries, h.find?_bindings hid]
  · have hbindings := h.bindings_eq_bindings h' hid hid' hlast
    refine ⟨hbindings, fun library args output ↦ ⟨ends_printScope library id args store output, ?_⟩⟩
    rw [hbindings]
    exact ends_printScope library id' args store' output

/-- One scope is written to twice under a name, once through the scope within. Another is a copy of
one to which the values that remain were written in the opposite order, and is written to itself.
Both list `z` before `é`, which has the greater first byte. -/
theorem snapshot_of_overwritten_and_copied :
    let root : Store := (⟨#[]⟩ : Store).push ⟨[], none⟩
    let overwritten := ((((root.write .locally 0 "é" (.number 1)).push ⟨[], some 0⟩).write
      .locally 0 "z" (.number 2)).write .globally 1 "é" (.number 3))
    let copied := ((root.write .locally 0 "é" (.number 3)).copy 0).write .locally 1 "z" (.number 2)
    overwritten.bindings 0 = copied.bindings 1 ∧
    (copied.bindings 1).map Prod.fst = ["z", "é"] ∧
    BytesBefore "z" "é" ∧
    ("é", Value.number 3) ∈ copied.bindings 1 ∧
    "é" ∈ (copied.bindings 1).map Prod.fst ∧
    Bindings.sortByName [("é", .number 3), ("z", .number 2)] = copied.bindings 1 ∧
    overwritten.lookup? 0 "é" = copied.lookup? 1 "é" := by
  intro root overwritten copied
  have hroot : Recorded root _ := .create none .empty
  have h : Recorded overwritten _ :=
    .write .globally 1 "é" (.number 3) <| .write .locally 0 "z" (.number 2) <|
      .create (some 0) <| .write .locally 0 "é" (.number 1) hroot
  have h' : Recorded copied _ :=
    .write .locally 1 "z" (.number 2) <| .copy 0 <| .write .locally 0 "é" (.number 3) hroot
  have hchain : overwritten.HasLiveChain 0 [0] := .root ⟨_, rfl, fun _ ↦ nofun⟩
  have hchain' : copied.HasLiveChain 1 [1] := .root ⟨_, rfl, fun _ ↦ nofun⟩
  have hlast (name : String) :
      lastWritten? [("é", .number 1), ("z", .number 2), ("é", .number 3)] name
        = lastWritten? [("é", .number 3), ("z", .number 2)] name := by
    simp only [lastWritten?, List.reverse_cons, List.reverse_nil, List.nil_append,
      List.cons_append, List.lookup_cons, List.lookup_nil]
    grind
  have hentries (name : String) (value : Value) :
      (name, value) ∈ [("é", Value.number 3), ("z", .number 2)] ↔
        lastWritten? [("é", .number 3), ("z", .number 2)] name = some value := by
    simp only [lastWritten?, List.reverse_cons, List.reverse_nil, List.nil_append,
      List.cons_append, List.lookup_cons, List.lookup_nil]
    grind
  have hid : (overwritten.scope? 0).isSome := rfl
  have hid' : (copied.scope? 1).isSome := rfl
  obtain ⟨-, -, -, -, hsame, hlookup⟩ := snapshot_canonical h h' hid hid'
  obtain ⟨-, hmem, hnames, htable, -⟩ := snapshot_canonical h' h' hid' hid'
  exact ⟨(hsame hlast).1, rfl, bytesBefore_iff.mpr (by decide), (hmem _ _).mpr rfl,
    (hnames _).mpr List.mem_cons_self, htable _ (by decide) hentries,
    hlookup _ _ hchain hchain' (.cons hlast .nil) _⟩

end Recorded

end Store

end QuoteLisp
