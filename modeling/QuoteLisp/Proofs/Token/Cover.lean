import QuoteLisp.Proofs.Text.Offset
import QuoteLisp.Proofs.Token.Shape

/-!
# The one way to cut a source into tokens

A list of tokens covers a source when its spans lie apart and in order, each token is a well-formed
lexeme that is written where its span says and that nothing after it prolongs, and only blanks are
left between the spans. Nothing in this speaks of a walk from left to right.

## Walking along a cover

`CoversFrom start source ts` is the part of the condition that concerns the source from an offset
on. At the end of the source it leaves no token, at a blank it moves on by one character
(`coversFrom_blank_iff`), and at any other character it forces the first token, because something
has to cover that character and `Lexeme.match?` finds the only candidate (`coversFrom_lexeme_iff`).
These are the steps of `tokensFrom`, so the walk and the cover determine each other.
-/

namespace QuoteLisp

/-- The tokens cover the source from the offset `start` on, and none of them stands before it. -/
structure CoversFrom (start : Nat) (source : List Char) (ts : List Token) : Prop where
  start_le : ∀ t ∈ ts, start ≤ t.span.start
  start_lt_stop : ∀ t ∈ ts, t.span.start < t.span.stop
  /-- The spans are in order and have no place in common. -/
  pairwise : ts.Pairwise fun t u ↦ t.span.stop ≤ u.span.start
  /-- A token is the piece of source that its span covers; in particular the span cuts no
  character. -/
  slice : ∀ t ∈ ts, slice? source t.span = some t.lexeme.chars
  wellFormed : ∀ t ∈ ts, t.lexeme.WellFormed
  /-- A token is as long as it can be. -/
  endsBefore : ∀ t ∈ ts, ∀ before after, cutAt? t.span.stop source = some (before, after) →
    t.lexeme.EndsBefore after
  /-- A character in no span is blank. -/
  blank : ∀ n before c after, start ≤ n → cutAt? n source = some (before, c :: after) →
    (∀ t ∈ ts, ¬(t.span.start ≤ n ∧ n < t.span.stop)) → isBlank c = true

/-- The list is a cover of the whole source, followed by one end mark that takes no room. -/
def Tokenizes (source : List Char) (ts : List Token) : Prop :=
  ∃ body, ts = body ++ [⟨.endMark, ⟨byteLength source, byteLength source⟩⟩] ∧
    CoversFrom 0 source body

/-! ## Walking along a cover -/

variable {passed rest cs : List Char} {c : Char} {ts : List Token}

theorem CoversFrom.mono {start start' : Nat} {source : List Char}
    (h : CoversFrom start source ts) (hle : start ≤ start')
    (hstart : ∀ t ∈ ts, start' ≤ t.span.start) : CoversFrom start' source ts where
  start_le := hstart
  start_lt_stop := h.start_lt_stop
  pairwise := h.pairwise
  slice := h.slice
  wellFormed := h.wellFormed
  endsBefore := h.endsBefore
  blank n before c after hn := h.blank n before c after (hle.trans hn)

/-- A token of a cover stands in the source, followed by something that does not prolong it. -/
theorem CoversFrom.exists_append {start : Nat} {source : List Char} (h : CoversFrom start source ts)
    {t : Token} (ht : t ∈ ts) :
    ∃ before after, source = before ++ (t.lexeme.chars ++ after) ∧ t.lexeme.EndsBefore after ∧
      t.span = ⟨byteLength before, byteLength before + byteLength t.lexeme.chars⟩ := by
  obtain ⟨before, after, hsource, hspan⟩ := slice?_eq_some_iff.mp (h.slice t ht)
  refine ⟨before, after, hsource, h.endsBefore t ht (before ++ t.lexeme.chars) after ?_, hspan⟩
  rw [cutAt?_eq_some_iff, hsource, hspan, List.append_assoc, byteLength_append]
  exact ⟨rfl, rfl⟩

/-- Where a token starts, the source can be cut, and its first character comes next. -/
theorem CoversFrom.cutAt?_start {start : Nat} {source : List Char} (h : CoversFrom start source ts)
    {t : Token} (ht : t ∈ ts) :
    ∃ before c after, cutAt? t.span.start source = some (before, c :: after) ∧
      isBlank c = false := by
  obtain ⟨before, after, rfl, -, hspan⟩ := h.exists_append ht
  obtain ⟨c, more, hchars, hblank⟩ := (h.wellFormed t ht).exists_cons
  rw [hspan, hchars]
  exact ⟨before, c, more ++ after, cutAt?_append before _, hblank⟩

/-- At the end of the source no token is left. -/
theorem coversFrom_nil_iff {source : List Char} :
    CoversFrom (byteLength source) source ts ↔ ts = [] := by
  constructor
  · intro h
    refine List.eq_nil_iff_forall_not_mem.mpr fun t ht ↦ ?_
    have hstart := h.start_le t ht
    have hstop := h.start_lt_stop t ht
    obtain ⟨before, after, hsource, -, hspan⟩ := h.exists_append ht
    rw [hspan] at hstart hstop
    rw [hsource, byteLength_append, byteLength_append] at hstart
    dsimp only at hstart hstop
    omega
  · rintro rfl
    refine ⟨by simp, by simp, .nil, by simp, by simp, by simp, fun n before c after hn hcut _ ↦ ?_⟩
    obtain ⟨rfl, rfl⟩ := cutAt?_eq_some_iff.mp hcut
    rw [byteLength_append, byteLength_cons] at hn
    have := c.utf8Size_pos
    omega

/-- A blank between tokens is passed over. -/
theorem coversFrom_blank_iff (hblank : isBlank c = true) :
    CoversFrom (byteLength passed) (passed ++ c :: cs) ts ↔
      CoversFrom (byteLength passed + c.utf8Size) (passed ++ c :: cs) ts := by
  constructor
  · intro h
    refine h.mono (Nat.le_add_right _ _) fun t ht ↦ ?_
    obtain ⟨before, d, after, hcut, hd⟩ := h.cutAt?_start ht
    refine (eq_or_add_utf8Size_le_of_cutAt? hcut (h.start_le t ht)).resolve_left fun heq ↦ ?_
    -- a token that starts at the blank would begin with it
    obtain ⟨-, hafter⟩ := eq_of_cutAt?_append (heq ▸ hcut)
    obtain ⟨rfl, -⟩ := List.cons.inj hafter
    exact absurd hblank (by rw [hd]; decide)
  · intro h
    refine ⟨fun t ht ↦ (Nat.le_add_right _ _).trans (h.start_le t ht), h.start_lt_stop, h.pairwise,
      h.slice, h.wellFormed, h.endsBefore, fun n before d after hn hcut hout ↦ ?_⟩
    rcases eq_or_add_utf8Size_le_of_cutAt? hcut hn with rfl | hn
    · obtain ⟨-, hafter⟩ := eq_of_cutAt?_append hcut
      obtain ⟨rfl, -⟩ := List.cons.inj hafter
      exact hblank
    · exact h.blank n before d after hn hcut hout

/-- The first token of a cover can be left off, together with the text before its end. -/
theorem CoversFrom.tail {start : Nat} {source : List Char} {t : Token}
    (h : CoversFrom start source (t :: ts)) : CoversFrom t.span.stop source ts := by
  obtain ⟨hfirst, hpairwise⟩ := List.pairwise_cons.mp h.pairwise
  have hstart := h.start_le t List.mem_cons_self
  have hstop := h.start_lt_stop t List.mem_cons_self
  refine ⟨hfirst, fun u hu ↦ h.start_lt_stop u (List.mem_cons_of_mem t hu), hpairwise,
    fun u hu ↦ h.slice u (List.mem_cons_of_mem t hu),
    fun u hu ↦ h.wellFormed u (List.mem_cons_of_mem t hu),
    fun u hu ↦ h.endsBefore u (List.mem_cons_of_mem t hu), fun n before c after hn hcut hout ↦ ?_⟩
  refine h.blank n before c after (by omega) hcut (List.forall_mem_cons.mpr ⟨?_, hout⟩)
  rintro ⟨-, hlt⟩
  omega

/-- A cover of what follows a lexeme is prolonged by that lexeme. -/
theorem CoversFrom.cons {lexeme : Lexeme} (hform : lexeme.WellFormed)
    (hends : lexeme.EndsBefore rest)
    (h : CoversFrom (byteLength passed + byteLength lexeme.chars)
      (passed ++ (lexeme.chars ++ rest)) ts) :
    CoversFrom (byteLength passed) (passed ++ (lexeme.chars ++ rest))
      (⟨lexeme, ⟨byteLength passed, byteLength passed + byteLength lexeme.chars⟩⟩ :: ts) := by
  have hpos : 0 < byteLength lexeme.chars := by
    obtain ⟨c, more, hchars, -⟩ := hform.exists_cons
    rw [hchars, byteLength_cons]
    have := c.utf8Size_pos
    omega
  refine ⟨?_, ?_, List.pairwise_cons.mpr ⟨h.start_le, h.pairwise⟩, ?_,
    List.forall_mem_cons.mpr ⟨hform, h.wellFormed⟩, ?_, fun n before c after hn hcut hout ↦ ?_⟩
  · refine List.forall_mem_cons.mpr ⟨le_rfl, fun t ht ↦ ?_⟩
    exact (Nat.le_add_right _ _).trans (h.start_le t ht)
  · exact List.forall_mem_cons.mpr ⟨Nat.lt_add_of_pos_right hpos, h.start_lt_stop⟩
  · exact List.forall_mem_cons.mpr ⟨slice?_eq_some_iff.mpr ⟨passed, rest, rfl, rfl⟩, h.slice⟩
  · refine List.forall_mem_cons.mpr ⟨fun before after hcut ↦ ?_, h.endsBefore⟩
    dsimp only at hcut
    rw [← byteLength_append, ← List.append_assoc] at hcut
    obtain ⟨-, rfl⟩ := eq_of_cutAt?_append hcut
    exact hends
  · obtain ⟨hhere, hout⟩ := List.forall_mem_cons.mp hout
    exact h.blank n before c after (by dsimp only at hhere; omega) hcut hout

/-- A character that is not blank begins a token, and there is one candidate for it. -/
theorem coversFrom_lexeme_iff (hblank : isBlank c = false) :
    CoversFrom (byteLength passed) (passed ++ c :: cs) ts ↔
      ∃ lexeme rest ts', Lexeme.match? c cs = some (lexeme, rest) ∧
        ts = ⟨lexeme, ⟨byteLength passed, byteLength passed + byteLength lexeme.chars⟩⟩ :: ts' ∧
        CoversFrom (byteLength passed + byteLength lexeme.chars) (passed ++ c :: cs) ts' := by
  constructor
  · intro h
    -- some token covers the character, and only the first one can
    obtain ⟨t, ht, hstart, hstop⟩ :
        ∃ t ∈ ts, t.span.start ≤ byteLength passed ∧ byteLength passed < t.span.stop := by
      by_contra hnone
      have := h.blank _ passed c cs le_rfl (cutAt?_append passed _) fun t ht ⟨hle, hlt⟩ ↦
        hnone ⟨t, ht, hle, hlt⟩
      exact absurd this (by rw [hblank]; decide)
    obtain ⟨first, ts', rfl⟩ := List.exists_cons_of_ne_nil (List.ne_nil_of_mem ht)
    have hfirst : first.span.start = byteLength passed := by
      have hle := h.start_le first List.mem_cons_self
      have hlt := h.start_lt_stop first List.mem_cons_self
      rcases List.mem_cons.mp ht with rfl | ht
      · exact Nat.le_antisymm hstart hle
      · have := (List.pairwise_cons.mp h.pairwise).1 t ht
        omega
    obtain ⟨before, after, hsource, hends, hspan⟩ := h.exists_append List.mem_cons_self
    have hcut : cutAt? (byteLength passed) (passed ++ c :: cs)
        = some (before, first.lexeme.chars ++ after) := by
      rw [cutAt?_eq_some_iff, ← hfirst, hspan]
      exact ⟨hsource, rfl⟩
    obtain ⟨rfl, hchars⟩ := eq_of_cutAt?_append hcut
    have htail := h.tail
    rw [hspan] at htail
    refine ⟨first.lexeme, after, ts', ?_, by rw [← hspan], htail⟩
    exact Lexeme.match?_of_wellFormed (h.wellFormed first List.mem_cons_self) hends hchars
  · rintro ⟨lexeme, rest, ts', hmatch, rfl, h⟩
    obtain ⟨hform, hends, hchars⟩ := Lexeme.match?_eq_some_iff.mp hmatch
    rw [← hchars] at h ⊢
    exact h.cons hform hends

/-! ## The walk and the cover -/

theorem except_map_eq_ok_iff {ε α β : Type} {f : α → β} {x : Except ε α} {b : β} :
    x.map f = .ok b ↔ ∃ a, x = .ok a ∧ f a = b := by
  cases x <;> simp [Except.map]

theorem except_map_eq_error_iff {ε α β : Type} {f : α → β} {x : Except ε α} {e : ε} :
    x.map f = .error e ↔ x = .error e := by
  cases x <;> simp [Except.map]

/-- The walk from an offset on finds the cover of the rest of the source. -/
theorem tokensFrom_eq_ok_iff :
    tokensFrom (byteLength passed) rest = .ok ts ↔
      ∃ body,
        ts = body ++ [⟨.endMark, ⟨byteLength (passed ++ rest), byteLength (passed ++ rest)⟩⟩] ∧
        CoversFrom (byteLength passed) (passed ++ rest) body := by
  generalize hoffset : byteLength passed = offset
  fun_induction tokensFrom offset rest generalizing passed ts with
  | case1 offset =>
    subst hoffset
    simp only [List.append_nil, coversFrom_nil_iff, Except.ok.injEq, exists_eq_right,
      List.nil_append]
    exact eq_comm
  | case2 offset c cs hblank ih =>
    subst hoffset
    rw [@ih (passed ++ [c]) _ (by simp), List.append_assoc, List.singleton_append]
    simp only [coversFrom_blank_iff hblank]
  | case3 offset c cs hblank hnone =>
    subst hoffset
    simp only [coversFrom_lexeme_iff (eq_false_of_ne_true hblank), hnone]
    simp
  | case4 offset c cs hblank lexeme rest hmatch =>
    rename_i stop ih
    subst hoffset
    have hsource : passed ++ lexeme.chars ++ rest = passed ++ c :: cs := by
      rw [List.append_assoc, Lexeme.chars_append_of_match? hmatch]
    have ih {ts : List Token} := @ih (passed ++ lexeme.chars) ts (byteLength_append _ _)
    rw [hsource] at ih
    rw [except_map_eq_ok_iff]
    constructor
    · rintro ⟨ts', hts', rfl⟩
      obtain ⟨body, rfl, hbody⟩ := ih.mp hts'
      refine ⟨_ :: body, rfl, ?_⟩
      exact (coversFrom_lexeme_iff (eq_false_of_ne_true hblank)).mpr
        ⟨lexeme, rest, body, hmatch, rfl, hbody⟩
    · rintro ⟨body, rfl, hbody⟩
      obtain ⟨lexeme', rest', body', hmatch', rfl, hbody'⟩ :=
        (coversFrom_lexeme_iff (eq_false_of_ne_true hblank)).mp hbody
      obtain ⟨rfl, rfl⟩ := Prod.mk.inj (Option.some.inj (hmatch.symm.trans hmatch'))
      exact ⟨_, ih.mpr ⟨body', rfl, hbody'⟩, rfl⟩

theorem tokens_eq_ok_iff {source : List Char} :
    tokens source = .ok ts ↔ Tokenizes source ts :=
  @tokensFrom_eq_ok_iff [] source ts

/-- **The tokens of a source.** A source has at most one tokenization, the walk succeeds with
exactly that one, and it fails exactly when there is none. -/
theorem tokenizes_unique_and_tokens_iff (source : List Char) :
    (∀ ts ts', Tokenizes source ts → Tokenizes source ts' → ts = ts') ∧
      (∀ ts, tokens source = .ok ts ↔ Tokenizes source ts) ∧
      ((∃ error, tokens source = .error error) ↔ ∀ ts, ¬Tokenizes source ts) := by
  refine ⟨fun ts ts' h h' ↦ ?_, fun ts ↦ tokens_eq_ok_iff, ?_⟩
  · exact Except.ok.inj ((tokens_eq_ok_iff.mpr h).symm.trans (tokens_eq_ok_iff.mpr h'))
  · cases hresult : tokens source with
    | error error =>
      refine iff_of_true ⟨error, rfl⟩ fun ts h ↦ ?_
      exact absurd (hresult.symm.trans (tokens_eq_ok_iff.mpr h)) (by simp)
    | ok ts =>
      refine iff_of_false (by simp) fun hnone ↦ ?_
      exact hnone ts (tokens_eq_ok_iff.mp hresult)

/-- Atoms that touch: a minus sign belongs to the digits after it unless a symbol has it already,
and a comment ends before the line does, wherever its characters end in bytes. -/
theorem tokenizes_touching_atoms :
    Tokenizes "-5-x;é\n--5".toList
      [⟨.atom .number "-5", ⟨0, 2⟩⟩, ⟨.atom .symbol "-x", ⟨2, 4⟩⟩, ⟨.atom .comment ";é", ⟨4, 7⟩⟩,
        ⟨.atom .symbol "--5", ⟨8, 11⟩⟩, ⟨.endMark, ⟨11, 11⟩⟩] :=
  ((tokenizes_unique_and_tokens_iff _).2.1 _).mp
    (by simp +decide [tokens, tokensFrom, Lexeme.match?, Except.map])

end QuoteLisp
