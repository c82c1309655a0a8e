import QuoteLisp.Proofs.Token.Shape

/-!
# Walking over a source in parts

The walk that cuts a source into tokens looks at what is left of the source and at nothing else. So
after a lexeme it goes on as if the source began there (`tokensFrom_chars_append`), and the offset
that it starts with moves the spans and changes nothing else (`tokensFrom_add`).

A lexeme may go on for as long as the source does, so a source cannot be cut in two just anywhere.
It can at the end of a line, where nothing but a string is pending: the lines before are cut as if
nothing came after them (`tokensFrom_append_newline`).
-/

namespace QuoteLisp

/-! ## One step of the walk -/

theorem tokensFrom_blank {c : Char} (h : isBlank c = true) (offset : Nat) (cs : List Char) :
    tokensFrom offset (c :: cs) = tokensFrom (offset + c.utf8Size) cs := by
  rw [tokensFrom, if_pos h]

/-- A text that is blank has no token but the end mark. -/
theorem tokensFrom_of_forall_isBlank {cs : List Char} (h : ∀ c ∈ cs, isBlank c = true)
    (offset : Nat) : tokensFrom offset cs
      = .ok [⟨.endMark, ⟨offset + byteLength cs, offset + byteLength cs⟩⟩] := by
  induction cs generalizing offset with
  | nil => rw [tokensFrom, byteLength_nil, Nat.add_zero]
  | cons c cs ih =>
    rw [List.forall_mem_cons] at h
    rw [tokensFrom_blank h.1, ih h.2, byteLength_cons, Nat.add_assoc]

/-- A lexeme that nothing prolongs becomes the first token, and the rest is cut as if the source
began there. -/
theorem tokensFrom_chars_append {lexeme : Lexeme} {rest : List Char} (hform : lexeme.WellFormed)
    (hends : lexeme.EndsBefore rest) (offset : Nat) :
    tokensFrom offset (lexeme.chars ++ rest)
      = (tokensFrom (offset + byteLength lexeme.chars) rest).map
          (⟨lexeme, ⟨offset, offset + byteLength lexeme.chars⟩⟩ :: ·) := by
  obtain ⟨c, run, hchars, hblank⟩ := hform.exists_cons
  have happ : lexeme.chars ++ rest = c :: (run ++ rest) := by rw [hchars, List.cons_append]
  have hmatch : Lexeme.match? c (run ++ rest) = some (lexeme, rest) :=
    Lexeme.match?_of_wellFormed hform hends happ
  rw [happ, tokensFrom, if_neg (by rw [hblank]; decide)]
  split
  · rename_i hnone
    exact absurd (hnone.symm.trans hmatch) (by simp)
  · rename_i lexeme' rest' hmatch'
    obtain ⟨rfl, rfl⟩ := Prod.mk.inj (Option.some.inj (hmatch'.symm.trans hmatch))
    rfl

/-! ## Moving along a source -/

/-- The span of the same length that many bytes further on. -/
def Span.shift (bytes : Nat) (span : Span) : Span :=
  ⟨bytes + span.start, bytes + span.stop⟩

/-- The same lexeme that many bytes further on. -/
def Token.shift (bytes : Nat) (t : Token) : Token :=
  ⟨t.lexeme, t.span.shift bytes⟩

/-- The same error that many bytes further on. -/
def LexError.shift (bytes : Nat) : LexError → LexError
  | unexpected c offset => unexpected c (bytes + offset)
  | unterminated offset => unterminated (bytes + offset)

/-- Where a text stands in its source has no part in how it is cut. -/
theorem tokensFrom_add (bytes offset : Nat) (cs : List Char) :
    tokensFrom (bytes + offset) cs
      = ((tokensFrom offset cs).map (List.map (Token.shift bytes))).mapError
          (LexError.shift bytes) := by
  fun_induction tokensFrom offset cs with
  | case1 offset =>
    rw [tokensFrom]
    rfl
  | case2 offset c cs hblank ih =>
    rw [tokensFrom_blank hblank, Nat.add_assoc]
    exact ih
  | case3 offset c cs hblank hnone =>
    rw [tokensFrom, if_neg hblank]
    split
    · split <;> rfl
    · rename_i hsome
      exact absurd (hnone.symm.trans hsome) (by simp)
  | case4 offset c cs hblank lexeme rest hmatch =>
    rename_i stop ih
    obtain ⟨hform, hends, hchars⟩ := Lexeme.match?_eq_some_iff.mp hmatch
    rw [← hchars, tokensFrom_chars_append hform hends, Nat.add_assoc, ih]
    cases tokensFrom stop rest <;> rfl

/-! ## The end of a line -/

/-- A line feed prolongs no lexeme, not even a comment. -/
theorem Lexeme.EndsBefore.append_newline {lexeme : Lexeme} {rest : List Char}
    (h : lexeme.EndsBefore rest) (more : List Char) :
    lexeme.EndsBefore (rest ++ '\n' :: more) := by
  match lexeme, rest with
  | atom kind text, [] =>
    intro c hc
    obtain rfl := Option.some.inj hc
    cases kind <;> decide
  | atom kind text, d :: rest => exact h
  | opening _, _ | closing _, _ | endMark, _ => trivial

/-- What comes after a line feed has no part in how the text before it is cut, if that text can be
cut by itself. -/
theorem tokensFrom_append_newline {offset : Nat} {cs : List Char} {ts : List Token}
    (h : tokensFrom offset cs = .ok ts) (more : List Char) :
    ∃ body, ts = body ++ [⟨.endMark, ⟨offset + byteLength cs, offset + byteLength cs⟩⟩] ∧
      tokensFrom offset (cs ++ '\n' :: more)
        = (tokensFrom (offset + byteLength cs + 1) more).map (body ++ ·) := by
  fun_induction tokensFrom offset cs generalizing ts with
  | case1 offset =>
    refine ⟨[], (Except.ok.inj h).symm, ?_⟩
    rw [List.nil_append, tokensFrom_blank (by decide)]
    change tokensFrom (offset + 1) more = (tokensFrom (offset + 1) more).map id
    cases tokensFrom (offset + 1) more <;> rfl
  | case2 offset c cs hblank ih =>
    obtain ⟨body, hts, hmore⟩ := ih h
    rw [Nat.add_assoc offset, ← byteLength_cons] at hts hmore
    refine ⟨body, hts, ?_⟩
    rw [List.cons_append, tokensFrom_blank hblank, hmore]
  | case3 => cases h
  | case4 offset c cs hblank lexeme rest hmatch =>
    rename_i stop ih
    obtain ⟨hform, hends, hchars⟩ := Lexeme.match?_eq_some_iff.mp hmatch
    cases hrest : tokensFrom stop rest with
    | error error =>
      rw [hrest] at h
      cases h
    | ok ts' =>
      rw [hrest] at h
      obtain rfl := Except.ok.inj h
      obtain ⟨body, rfl, hmore⟩ := ih hrest
      have hstop : stop + byteLength rest = offset + byteLength (c :: cs) := by
        rw [← hchars, byteLength_append, ← Nat.add_assoc]
      rw [hstop] at hmore ⊢
      refine ⟨_ :: body, rfl, ?_⟩
      rw [← hchars, List.append_assoc, tokensFrom_chars_append hform (hends.append_newline more),
        hmore, hchars]
      cases tokensFrom (offset + byteLength (c :: cs) + 1) more <;> rfl

end QuoteLisp
