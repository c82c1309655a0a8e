import Mathlib.Data.List.Nodup

/-!
# Listings

A scope lists names with their values, a directory names with what they lead to. If each name is
listed once, an entry is what is found under its name, wherever in the list it stands. A list in
strictly increasing order is determined by its members, so it does not show in which order they were
collected. A list of outcomes may hold failures, which are passed over.
-/

namespace QuoteLisp

section Entries

variable {α : Type} {entries : List (String × α)} {name : String} {value : α}

theorem mem_map_fst_iff : name ∈ entries.map Prod.fst ↔ (entries.lookup name).isSome := by
  rw [List.lookup_isSome_iff, List.mem_map]
  exact exists_congr fun entry ↦ and_congr_right fun _ ↦ eq_comm.trans beq_iff_eq.symm

/-- Of names that are listed once each, an entry is what is found under its name. -/
theorem lookup_eq_some_iff_mem (h : (entries.map Prod.fst).Nodup) :
    entries.lookup name = some value ↔ (name, value) ∈ entries := by
  induction entries with
  | nil => exact ⟨nofun, nofun⟩
  | cons entry entries ih =>
    obtain ⟨head, held⟩ := entry
    obtain ⟨hhead, hentries⟩ := List.nodup_cons.mp h
    rw [List.mem_cons, Prod.mk.injEq]
    by_cases hname : name = head
    · subst hname
      have hother : (name, value) ∉ entries := fun hmem ↦
        hhead (List.mem_map.mpr ⟨_, hmem, rfl⟩)
      rw [List.lookup_cons_self, Option.some_inj, or_iff_left hother, eq_comm]
      exact (and_iff_right rfl).symm
    · rw [List.lookup_cons, beq_false_of_ne hname]
      exact (ih hentries).trans (or_iff_right fun hboth ↦ hname hboth.1).symm

end Entries

/-- What is left of a list of outcomes without its failures. -/
theorem mem_filterMap_toOption_iff {ε α : Type} {outcomes : List (Except ε α)} {a : α} :
    a ∈ outcomes.filterMap Except.toOption ↔ .ok a ∈ outcomes := by
  rw [List.mem_filterMap]
  constructor
  · rintro ⟨outcome, hmem, ha⟩
    cases outcome with
    | error => cases ha
    | ok => exact Option.some.inj ha ▸ hmem
  · exact fun hmem ↦ ⟨.ok a, hmem, rfl⟩

/-- Two lists in strictly increasing order with the same members are the same. -/
theorem eq_of_pairwise_of_mem_iff {α : Type} {before : α → α → Prop}
    (hasymm : ∀ a b, before a b → ¬before b a) {as bs : List α} (has : as.Pairwise before)
    (hbs : bs.Pairwise before) (hmem : ∀ a, a ∈ as ↔ a ∈ bs) : as = bs := by
  have hnodup {cs : List α} (hcs : cs.Pairwise before) : cs.Nodup :=
    hcs.imp fun {a b} hab heq ↦ by
      subst heq
      exact hasymm a a hab hab
  have hperm := (List.perm_ext_iff_of_nodup (hnodup has) (hnodup hbs)).mpr hmem
  exact hperm.eq_of_pairwise (fun a b _ _ hab hba ↦ (hasymm a b hab hba).elim) has hbs

end QuoteLisp
