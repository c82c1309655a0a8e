import QuoteLisp.Text.Offset

/-!
# Places in a text

Cutting a text at a byte offset and slicing it by a span are functions that may fail. Here both are
turned into equations between lists: `cutAt?_eq_some_iff` and `slice?_eq_some_iff` say that the text
is the concatenation of its parts and that the offsets are the byte lengths of what stands before
them. After that no proof looks at how an offset is followed.
-/

namespace QuoteLisp

/-- A cut is a splitting of the text whose first part has the given length. -/
theorem cutAt?_eq_some_iff {n : Nat} {cs before after : List Char} :
    cutAt? n cs = some (before, after) ↔ cs = before ++ after ∧ byteLength before = n := by
  refine ⟨fun h ↦ ?_, ?_⟩
  · fun_induction cutAt? n cs generalizing before after with
    | case1 cs =>
      obtain ⟨rfl, rfl⟩ := Prod.mk.inj (Option.some.inj h)
      exact ⟨rfl, rfl⟩
    | case2 => simp at h
    | case3 n c cs hle ih =>
      obtain ⟨⟨b, a⟩, hcut, heq⟩ := Option.map_eq_some_iff.mp h
      obtain ⟨rfl, rfl⟩ := Prod.mk.inj heq
      obtain ⟨rfl, hlen⟩ := ih hcut
      refine ⟨rfl, ?_⟩
      rw [byteLength_cons, hlen]
      omega
    | case4 => simp at h
  · rintro ⟨rfl, rfl⟩
    exact cutAt?_append before after

/-- A slice is a part of the text, and its span is where that part stands. -/
theorem slice?_eq_some_iff {cs covered : List Char} {span : Span} :
    slice? cs span = some covered ↔ ∃ before after, cs = before ++ (covered ++ after) ∧
      span = ⟨byteLength before, byteLength before + byteLength covered⟩ := by
  constructor
  · intro h
    rw [slice?] at h
    split at h
    · obtain ⟨⟨before, rest⟩, hfst, h⟩ := Option.bind_eq_some_iff.mp h
      obtain ⟨⟨part, after⟩, hsnd, h⟩ := Option.bind_eq_some_iff.mp h
      obtain rfl := Option.some.inj h
      obtain ⟨rfl, hstart⟩ := cutAt?_eq_some_iff.mp hfst
      obtain ⟨rfl, hlen⟩ := cutAt?_eq_some_iff.mp hsnd
      refine ⟨before, after, rfl, ?_⟩
      rw [hstart, hlen, Nat.add_sub_cancel' ‹_›]
    · simp at h
  · rintro ⟨before, after, rfl, rfl⟩
    simp only [slice?, Nat.le_add_right, ↓reduceIte, Nat.add_sub_cancel_left]
    rw [cutAt?_append, Option.bind_eq_bind, Option.bind_some, cutAt?_append]
    rfl

/-- No offset lies between the two ends of a character. -/
theorem eq_or_add_utf8Size_le_of_cutAt? {passed rest before after : List Char} {c : Char} {n : Nat}
    (h : cutAt? n (passed ++ c :: rest) = some (before, after)) (hle : byteLength passed ≤ n) :
    n = byteLength passed ∨ byteLength passed + c.utf8Size ≤ n := by
  obtain ⟨heq, rfl⟩ := cutAt?_eq_some_iff.mp h
  rcases List.append_eq_append_iff.mp heq with ⟨more, rfl, hmore⟩ | ⟨more, rfl, -⟩
  · rcases List.cons_eq_append_iff.mp hmore with ⟨rfl, -⟩ | ⟨more, rfl, -⟩
    · exact Or.inl (by rw [List.append_nil])
    · refine Or.inr ?_
      rw [byteLength_append, byteLength_cons]
      omega
  · refine Or.inl ?_
    rw [byteLength_append] at hle ⊢
    omega

/-- Cutting after a known beginning gives what follows it. -/
theorem eq_of_cutAt?_append {passed rest before after : List Char}
    (h : cutAt? (byteLength passed) (passed ++ rest) = some (before, after)) :
    before = passed ∧ after = rest := by
  rw [cutAt?_append] at h
  obtain ⟨rfl, rfl⟩ := Prod.mk.inj (Option.some.inj h)
  exact ⟨rfl, rfl⟩

/-- An offset has a line if it falls between two characters, where all offsets past the end count as
the end. -/
theorem lineAt?_eq_some_iff {cs : List Char} {offset line : Nat} :
    lineAt? cs offset = some line ↔ ∃ before after, cs = before ++ after ∧
      byteLength before = min offset (byteLength cs) ∧ line = before.count '\n' + 1 := by
  rw [lineAt?, Option.map_eq_some_iff]
  constructor
  · rintro ⟨⟨before, after⟩, hcut, rfl⟩
    obtain ⟨htext, hlength⟩ := cutAt?_eq_some_iff.mp hcut
    exact ⟨before, after, htext, hlength, rfl⟩
  · rintro ⟨before, after, htext, hlength, rfl⟩
    exact ⟨(before, after), cutAt?_eq_some_iff.mpr ⟨htext, hlength⟩, rfl⟩

/-- The line after a beginning is one more than the line feeds in it. -/
theorem lineAt?_append (before after : List Char) :
    lineAt? (before ++ after) (byteLength before) = some (before.count '\n' + 1) := by
  rw [lineAt?, byteLength_append, Nat.min_eq_left (Nat.le_add_right _ _), cutAt?_append]
  rfl

end QuoteLisp
