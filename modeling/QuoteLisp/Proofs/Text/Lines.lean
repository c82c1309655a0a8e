import QuoteLisp.Evaluation.Machine
import QuoteLisp.Prompt

/-!
# Complete lines

An input of complete lines, each ended by a line feed, is taken apart again into these lines
(`inputLines_textOf`), of which the prompt only drops a carriage return at the end. So for complete
lines it makes no difference whether one speaks of an input or of its lines.
-/

namespace QuoteLisp

/-- The line as the prompt takes it: without the carriage return that ends it, if there is one. -/
def chompLine (line : String) : String :=
  String.ofList (chompReturn line.toList)

/-- A carriage return is blank, so without it a line is as blank as with it. -/
theorem isBlankText_chompLine (line : String) :
    isBlankText (chompLine line) = isBlankText line := by
  rw [isBlankText, isBlankText, chompLine, String.toList_ofList, chompReturn]
  split
  · obtain ⟨front, hline⟩ := List.getLast?_eq_some_iff.mp ‹_›
    rw [hline, List.dropLast_concat, List.all_append]
    exact (Bool.and_true _).symm
  · rfl

namespace Output

/-- Every line shows in the text, be it empty. -/
theorem textOf_eq_textOf_append_iff {lines more : List String} :
    textOf lines = textOf (lines ++ more) ↔ more = [] := by
  rw [textOf, textOf, List.map_append, String.join_append, ← String.toList_inj,
    String.toList_append, List.self_eq_append_right, String.toList_join, List.flatMap_map,
    List.flatMap_eq_nil_iff]
  constructor
  · refine fun h ↦ List.eq_nil_iff_forall_not_mem.mpr fun line hline ↦ ?_
    have hline := h line hline
    rw [String.toList_append] at hline
    exact List.cons_ne_nil _ _ (List.append_eq_nil_iff.mp hline).2
  · rintro rfl _ h
    exact absurd h List.not_mem_nil

end Output

/-- The lines of an input of complete lines. -/
theorem inputLines_textOf {lines : List String} (h : ∀ line ∈ lines, '\n' ∉ line.toList) :
    inputLines (Output.textOf lines) = lines.map chompLine := by
  have hsplit : splitAt '\n' (Output.textOf lines).toList = lines.map String.toList ++ [[]] := by
    rw [Output.textOf, String.toList_join]
    induction lines with
    | nil => rfl
    | cons line lines ih =>
      rw [List.forall_mem_cons] at h
      rw [List.map_cons, List.flatMap_cons, String.toList_append, List.append_assoc]
      refine (splitAt_append_cons '\n' line.toList _).trans ?_
      rw [splitAt_of_not_mem h.1]
      exact congrArg (line.toList :: ·) (ih h.2)
  rw [inputLines, hsplit]
  simp only [List.dropLast_concat, List.getLast?_concat, List.map_map]
  rw [Option.toList_some, List.filter_cons_of_neg (by decide), List.filter_nil, List.append_nil,
    List.map_map]
  rfl

end QuoteLisp
