import Mathlib.Data.List.TakeWhile

/-!
# Runs of characters

A text begins with a run of characters of a class, and what follows does not prolong the run. Atoms
are read off a text by such runs from its beginning, and extensions off a name from its end.
`takeWhile_eq_and_dropWhile_eq_iff` says what the run and the rest are without the walk that finds
them.
-/

namespace QuoteLisp

theorem eq_false_of_mem_head?_dropWhile (p : Char → Bool) (cs : List Char) :
    ∀ c ∈ (cs.dropWhile p).head?, p c = false := by
  intro c hc
  have hstop := List.head?_dropWhile_not p cs
  rwa [Option.mem_def.mp hc] at hstop

/-- The longest run at the beginning of a text is the one that the rest does not prolong. -/
theorem takeWhile_eq_and_dropWhile_eq_iff {p : Char → Bool} {cs run rest : List Char} :
    cs.takeWhile p = run ∧ cs.dropWhile p = rest ↔
      run ++ rest = cs ∧ (∀ c ∈ run, p c = true) ∧ ∀ c ∈ rest.head?, p c = false := by
  constructor
  · rintro ⟨rfl, rfl⟩
    exact ⟨List.takeWhile_append_dropWhile, fun c hc ↦ List.mem_takeWhile_imp hc,
      eq_false_of_mem_head?_dropWhile p cs⟩
  · rintro ⟨rfl, hrun, hrest⟩
    rw [List.takeWhile_append_of_pos hrun, List.dropWhile_append_of_pos hrun]
    cases rest with
    | nil => exact ⟨by rw [List.takeWhile_nil, List.append_nil], rfl⟩
    | cons c rest =>
      have hc : ¬p c = true := by rw [hrest c rfl]; decide
      rw [List.takeWhile_cons_of_neg hc, List.dropWhile_cons_of_neg hc, List.append_nil]
      exact ⟨rfl, rfl⟩

end QuoteLisp
