import QuoteLisp.Proofs.Token.Cover
import QuoteLisp.Proofs.Token.Walk

/-!
# Passing over a part of a source

The walk over a source comes from place to place, and at each place some text is left and some
tokens have been made. `Passes` relates two places of a walk, with the tokens made in between.

What is passed over can be cut by itself: it has the tokens made on the way, and nothing of what
follows it is needed for that (`Passes.exists_append`). So a place in the middle of a source is as
good as its end, and that is how a piece of a source is cut, and also what there is before a place
where the walk can go no further.

Every walk that succeeds passes over each of its tokens (`exists_passes_of_tokensFrom`), and one
that fails comes to the place of the failure (`tokensFrom_eq_error_iff`).
-/

namespace QuoteLisp

/-- What does not prolong a lexeme does not do so when less of it is there. -/
theorem Lexeme.EndsBefore.of_append {lexeme : Lexeme} {rest more : List Char}
    (h : lexeme.EndsBefore (rest ++ more)) : lexeme.EndsBefore rest := by
  match lexeme, rest with
  | atom _ _, [] => exact fun c hc ↦ absurd hc (Option.not_mem_none c)
  | atom _ _, _ :: _ => exact h
  | opening _, _ | closing _, _ | endMark, _ => trivial

/-- Walking over the text `cs` from an offset on, the tokens `made` are made, and then the text
`rest` is left at the offset `stop`. -/
inductive Passes : (offset : Nat) → (cs : List Char) → (made : List Token) → (stop : Nat) →
    (rest : List Char) → Prop
  | here (offset : Nat) (cs : List Char) : Passes offset cs [] offset cs
  | blank {offset stop : Nat} {c : Char} {cs rest : List Char} {made : List Token} :
      isBlank c = true → Passes (offset + c.utf8Size) cs made stop rest →
      Passes offset (c :: cs) made stop rest
  | lexeme {offset stop : Nat} {lexeme : Lexeme} {cs rest : List Char} {made : List Token} :
      lexeme.WellFormed → lexeme.EndsBefore cs →
      Passes (offset + byteLength lexeme.chars) cs made stop rest →
      Passes offset (lexeme.chars ++ cs)
        (⟨lexeme, ⟨offset, offset + byteLength lexeme.chars⟩⟩ :: made) stop rest

namespace Passes

variable {offset middle stop : Nat} {cs between rest : List Char} {made made' : List Token}

theorem trans (h : Passes offset cs made middle between)
    (h' : Passes middle between made' stop rest) : Passes offset cs (made ++ made') stop rest := by
  induction h with
  | here => exact h'
  | blank hblank _ ih => exact .blank hblank (ih h')
  | lexeme hform hends _ ih => exact .lexeme hform hends (ih h')

/-- What is passed over has the tokens that are made on the way, by itself as well. -/
theorem exists_append (h : Passes offset cs made stop rest) :
    ∃ before, cs = before ++ rest ∧ stop = offset + byteLength before ∧
      tokensFrom offset before = .ok (made ++ [⟨.endMark, ⟨stop, stop⟩⟩]) := by
  induction h with
  | here offset cs => exact ⟨[], rfl, rfl, by rw [tokensFrom, List.nil_append]⟩
  | @blank offset stop c cs rest made hblank _ ih =>
    obtain ⟨before, rfl, hstop, htokens⟩ := ih
    refine ⟨c :: before, rfl, ?_, ?_⟩
    · rw [hstop, byteLength_cons, Nat.add_assoc]
    · rw [tokensFrom_blank hblank, htokens]
  | @lexeme offset stop lexeme cs rest made hform hends _ ih =>
    obtain ⟨before, rfl, hstop, htokens⟩ := ih
    refine ⟨lexeme.chars ++ before, ?_, ?_, ?_⟩
    · rw [List.append_assoc]
    · rw [hstop, byteLength_append, Nat.add_assoc]
    · rw [tokensFrom_chars_append hform hends.of_append, htokens]
      rfl

/-- The walk goes on from the place it has come to. -/
theorem tokensFrom_eq (h : Passes offset cs made stop rest) :
    tokensFrom offset cs = (tokensFrom stop rest).map (made ++ ·) := by
  induction h with
  | here offset cs => cases tokensFrom offset cs <;> rfl
  | blank hblank _ ih => rw [tokensFrom_blank hblank, ih]
  | @lexeme _ stop _ _ rest _ hform hends _ ih =>
    rw [tokensFrom_chars_append hform hends, ih]
    cases tokensFrom stop rest <;> rfl

/-- What a walk makes after a place is what the walk from there makes. -/
theorem tokensFrom_rest {ts : List Token} (h : Passes offset cs made stop rest)
    (htokens : tokensFrom offset cs = .ok (made ++ ts)) : tokensFrom stop rest = .ok ts := by
  rw [h.tokensFrom_eq] at htokens
  obtain ⟨ts', hrest, happend⟩ := except_map_eq_ok_iff.mp htokens
  rw [hrest, List.append_cancel_left happend]

end Passes

/-! ## Places of a walk -/

variable {offset : Nat} {cs : List Char}

/-- A walk that succeeds comes to the beginning of each of its tokens, and from there to its end. -/
theorem exists_passes_of_tokensFrom {front back : List Token} {t : Token}
    (h : tokensFrom offset cs = .ok (front ++ t :: back)) (ht : t.lexeme ≠ .endMark) :
    ∃ between rest, Passes offset cs front t.span.start between ∧
      Passes t.span.start between [t] t.span.stop rest := by
  fun_induction tokensFrom offset cs generalizing front with
  | case1 offset =>
    have hend : t ∈ [(⟨.endMark, ⟨offset, offset⟩⟩ : Token)] :=
      Except.ok.inj h ▸ List.mem_append_right front List.mem_cons_self
    rw [List.mem_singleton.mp hend] at ht
    exact absurd rfl ht
  | case2 offset c cs hblank ih =>
    obtain ⟨between, rest, hpass, htoken⟩ := ih h
    exact ⟨between, rest, .blank hblank hpass, htoken⟩
  | case3 => cases h
  | case4 offset c cs hblank lexeme rest hmatch =>
    rename_i stop ih
    obtain ⟨hform, hends, hchars⟩ := Lexeme.match?_eq_some_iff.mp hmatch
    rw [← hchars]
    obtain ⟨ts, hrest, hcons⟩ := except_map_eq_ok_iff.mp h
    rcases front with _ | ⟨first, front⟩
    · obtain ⟨rfl, rfl⟩ := List.cons.inj hcons
      exact ⟨_, rest, .here _ _, .lexeme hform hends (.here _ _)⟩
    · obtain ⟨rfl, rfl⟩ := List.cons.inj hcons
      obtain ⟨between, rest, hpass, htoken⟩ := ih hrest
      exact ⟨between, rest, .lexeme hform hends hpass, htoken⟩

/-- A walk that fails comes to a character that is not blank and begins no lexeme, and blames its
place. -/
theorem tokensFrom_eq_error_iff {error : LexError} :
    tokensFrom offset cs = .error error ↔
      ∃ made c rest, Passes offset cs made error.offset (c :: rest) ∧ isBlank c = false ∧
        Lexeme.match? c rest = none ∧
        error = if c = '"' then .unterminated error.offset else .unexpected c error.offset := by
  constructor
  · intro h
    fun_induction tokensFrom offset cs with
    | case1 => cases h
    | case2 offset c cs hblank ih =>
      obtain ⟨made, d, rest, hpass, hd⟩ := ih h
      exact ⟨made, d, rest, .blank hblank hpass, hd⟩
    | case3 offset c cs hblank hnone =>
      obtain rfl := Except.error.inj h
      have hoffset : (if c = '"' then .unterminated offset else .unexpected c offset :
          LexError).offset = offset := by split <;> rfl
      rw [hoffset]
      exact ⟨[], c, cs, .here _ _, eq_false_of_ne_true hblank, hnone, rfl⟩
    | case4 offset c cs hblank lexeme rest hmatch =>
      rename_i stop ih
      obtain ⟨hform, hends, hchars⟩ := Lexeme.match?_eq_some_iff.mp hmatch
      obtain ⟨made, d, rest, hpass, hd⟩ := ih (except_map_eq_error_iff.mp h)
      rw [← hchars]
      exact ⟨_, d, rest, .lexeme hform hends hpass, hd⟩
  · rintro ⟨made, c, rest, hpass, hblank, hmatch, herror⟩
    have hrest : tokensFrom error.offset (c :: rest) = .error error := by
      rw [tokensFrom, if_neg (by rw [hblank]; decide)]
      split
      · exact congrArg _ herror.symm
      · rename_i hsome
        exact absurd (hmatch.symm.trans hsome) (by simp)
    rw [hpass.tokensFrom_eq, hrest]
    rfl

end QuoteLisp
