/-!
# Splitting a text

A text with `n` separators has `n + 1` parts, some of them possibly empty. Paths are split at
slashes and standard input at line feeds.
-/

namespace QuoteLisp

/-- The parts of a text between the occurrences of a separator. -/
def splitAt (separator : Char) : List Char → List (List Char)
  | [] => [[]]
  | c :: cs =>
    if c = separator then [] :: splitAt separator cs
    else
      match splitAt separator cs with
      | [] => [[c]]
      | part :: parts => (c :: part) :: parts

theorem splitAt_ne_nil (separator : Char) (cs : List Char) : splitAt separator cs ≠ [] := by
  cases cs with
  | nil => simp [splitAt]
  | cons c cs =>
    rw [splitAt]
    split
    · simp
    · split <;> simp

/-- A text without separators is one part. -/
theorem splitAt_of_not_mem {separator : Char} {cs : List Char} (h : separator ∉ cs) :
    splitAt separator cs = [cs] := by
  induction cs with
  | nil => rfl
  | cons c cs ih =>
    rw [List.mem_cons, not_or] at h
    rw [splitAt, if_neg (Ne.symm h.1), ih h.2]

/-- What stands before a separator is split apart from what follows it. -/
theorem splitAt_append_cons (separator : Char) (front rest : List Char) :
    splitAt separator (front ++ separator :: rest)
      = splitAt separator front ++ splitAt separator rest := by
  induction front with
  | nil =>
    rw [splitAt, List.nil_append, splitAt.eq_def]
    exact if_pos rfl
  | cons c front ih =>
    obtain ⟨part, parts, h⟩ := List.exists_cons_of_ne_nil (splitAt_ne_nil separator front)
    rw [List.cons_append, splitAt, splitAt, ih, h]
    split <;> rfl

end QuoteLisp
