import Mathlib.Logic.Relation
import QuoteLisp.Proofs.Node.Descent
import QuoteLisp.Proofs.Text.Offset

/-!
# The cursor

Reading passes one token at a time, and a cursor keeps count. It may pass the end of the list: then
it stays at the last token and goes on counting, so one closing bracket can close several forms.
That this comes to an end is not plain from the reader by descent, which has an error of its own for
the lists on which it does not. `Node.Cursor` is the walk itself, with the open forms in plain
sight, and `Node.Cursor.comesTo_ofTokens` says that the reader by descent tells what becomes of it.

## What ends the walk

While there are tokens left, every turn passes one. At the last token nothing is passed any more. If
it is a closing bracket, every turn closes a form, so what decreases from there on is the depth
(`Node.Cursor.forms_lt_of_turn`). An end mark is never passed. In any other list the walk may go on
for ever, and the reader by descent says when (`Node.Cursor.exists_stop_iff`).
-/

namespace QuoteLisp.Node

/-- A form whose closing bracket has not come yet, with the items before it, the latest first. -/
structure OpenForm where
  bracket : Bracket
  opening : Span
  before : List Node

/-- A cursor in a list of tokens: how many tokens it has passed, the forms that are open, the
innermost first, and the items of the innermost form, the latest first. -/
structure Cursor where
  position : Nat
  forms : List OpenForm
  items : List Node

namespace Cursor

/-- The cursor before the first token. -/
def start : Cursor := ⟨0, [], []⟩

/-- What comes of one turn: the cursor goes on, or the walk is over. -/
inductive Turn where
  | next (cursor : Cursor)
  | stop (outcome : Except SyntaxError Node)

/-- The token at a position. Past the end it is the last token; an empty list has none. -/
def current? (tokens : List Token) (position : Nat) : Option Token :=
  tokens[min position (tokens.length - 1)]?

/-- One turn of the cursor. An atom is an item, an opening bracket opens a form, and a closing
bracket closes the innermost form if it is of its kind. The walk is over at the end mark, or at once
if there are no tokens, and it is over at any other bracket. An error is blamed on the current
token. -/
def turn (tokens : List Token) (cursor : Cursor) : Turn :=
  match current? tokens cursor.position with
  | none => .stop (.ok (program 0 cursor.items.reverse))
  | some token =>
    match token.lexeme, cursor.forms with
    | .atom kind text, forms =>
      .next ⟨cursor.position + 1, forms, leaf (atomTag kind) text token.span :: cursor.items⟩
    | .opening bracket, forms =>
      .next ⟨cursor.position + 1, ⟨bracket, token.span, cursor.items⟩ :: forms, []⟩
    | .closing _, [] =>
      .stop (.error ⟨.unexpected, token, decide (tokens.length ≤ cursor.position)⟩)
    | .closing bracket, inner :: forms =>
      if bracket = inner.bracket then
        .next ⟨cursor.position + 1, forms,
          form inner.bracket inner.opening token.span cursor.items.reverse :: inner.before⟩
      else
        .stop (.error
          ⟨.mismatched inner.bracket, token, decide (tokens.length ≤ cursor.position)⟩)
    | .endMark, [] =>
      .stop (.ok (program ((tokens.getLast?.map (·.span.stop)).getD 0) cursor.items.reverse))
    | .endMark, inner :: _ =>
      .stop (.error ⟨.unclosed inner.bracket, token, decide (tokens.length ≤ cursor.position)⟩)

/-- The walk leads from one cursor to another. -/
def Reaches (tokens : List Token) : Cursor → Cursor → Prop :=
  Relation.ReflTransGen fun cursor cursor' ↦ turn tokens cursor = .next cursor'

variable {tokens left : List Token} {cursor cursor' final : Cursor} {last token : Token}
  {position : Nat} {outcome : Except SyntaxError Node}

/-! ## The current token -/

theorem current?_of_getElem? (h : tokens[position]? = some token) :
    current? tokens position = some token := by
  have hlt := (List.getElem?_eq_some_iff.mp h).1
  rw [current?, Nat.min_eq_left (by omega)]
  exact h

theorem current?_of_length_le_succ (h : tokens.length ≤ position + 1) :
    current? tokens position = tokens.getLast? := by
  rw [current?, Nat.min_eq_right (by omega), List.getLast?_eq_getElem?]

theorem current?_of_length_le (h : tokens.length ≤ position) :
    current? tokens position = tokens.getLast? :=
  current?_of_length_le_succ (Nat.le_succ_of_le h)

/-- Where tokens are left, the first of them is the current one. -/
theorem current?_of_drop_eq_cons (h : tokens.drop position = token :: left) :
    current? tokens position = some token ∧ ¬tokens.length ≤ position ∧
      tokens.drop (position + 1) = left := by
  have hget : tokens[position]? = some token := by
    rw [← List.head?_drop, h]
    rfl
  refine ⟨current?_of_getElem? hget, Nat.not_le.mpr (List.getElem?_eq_some_iff.mp hget).1, ?_⟩
  rw [← List.tail_drop, h]
  rfl

/-! ## One turn -/

/-- What a turn may come to, as far as the end of the walk depends on it. -/
inductive Makes (tokens : List Token) (cursor : Cursor) : Turn → Prop
  | nothing {root : Node} : current? tokens cursor.position = none →
      Makes tokens cursor (.stop (.ok root))
  | passes {token : Token} {next : Cursor} : current? tokens cursor.position = some token →
      token.lexeme.BeginsItem → next.position = cursor.position + 1 →
      Makes tokens cursor (.next next)
  | closes {token : Token} {bracket : Bracket} {next : Cursor} :
      current? tokens cursor.position = some token → token.lexeme = .closing bracket →
      next.position = cursor.position + 1 → next.forms.length < cursor.forms.length →
      Makes tokens cursor (.next next)
  | refuses {token : Token} {bracket : Bracket} (cause : SyntaxCause) :
      current? tokens cursor.position = some token → token.lexeme = .closing bracket →
      cause ≠ .endless →
      Makes tokens cursor (.stop (.error ⟨cause, token, decide (tokens.length ≤ cursor.position)⟩))
  | ends {token : Token} {root : Node} : current? tokens cursor.position = some token →
      token.lexeme = .endMark → Makes tokens cursor (.stop (.ok root))
  | breaks {token : Token} (cause : SyntaxCause) : current? tokens cursor.position = some token →
      token.lexeme = .endMark → cause ≠ .endless →
      Makes tokens cursor (.stop (.error ⟨cause, token, decide (tokens.length ≤ cursor.position)⟩))

theorem makes_turn (tokens : List Token) (cursor : Cursor) :
    Makes tokens cursor (turn tokens cursor) := by
  obtain ⟨position, forms, items⟩ := cursor
  rw [turn]
  match hcurrent : current? tokens position with
  | none => exact .nothing hcurrent
  | some ⟨.atom _ _, _⟩ => exact .passes hcurrent trivial rfl
  | some ⟨.opening _, _⟩ => exact .passes hcurrent trivial rfl
  | some ⟨.endMark, _⟩ =>
    cases forms with
    | nil => exact .ends hcurrent rfl
    | cons => exact .breaks _ hcurrent rfl nofun
  | some ⟨.closing bracket, _⟩ =>
    cases forms with
    | nil => exact .refuses _ hcurrent rfl nofun
    | cons inner forms =>
      dsimp only
      split
      · exact .closes hcurrent rfl rfl (Nat.lt_succ_self _)
      · exact .refuses _ hcurrent rfl nofun

/-- Where an item begins, the walk goes on. -/
theorem exists_next_of_beginsItem (h : current? tokens cursor.position = some token)
    (htoken : token.lexeme.BeginsItem) :
    ∃ next, turn tokens cursor = .next next ∧ next.position = cursor.position + 1 := by
  obtain ⟨lexeme, span⟩ := token
  rw [turn, h]
  cases lexeme with
  | atom | opening => exact ⟨_, rfl, rfl⟩
  | closing | endMark => exact htoken.elim

/-- An end mark is not passed. -/
theorem not_endMark_of_turn (h : turn tokens cursor = .next cursor') :
    ∃ token, current? tokens cursor.position = some token ∧ token.lexeme ≠ .endMark ∧
      cursor'.position = cursor.position + 1 := by
  have hmakes := makes_turn tokens cursor
  rw [h] at hmakes
  cases hmakes with
  | passes hcurrent hitem hposition =>
    refine ⟨_, hcurrent, fun hmark ↦ ?_, hposition⟩
    rw [hmark] at hitem
    exact hitem
  | closes hcurrent hclosing hposition => exact ⟨_, hcurrent, by rw [hclosing]; nofun, hposition⟩

/-- Without an end mark, a tree is made of no tokens only. -/
theorem eq_nil_of_turn {root : Node} (h : turn tokens cursor = .stop (.ok root))
    (htokens : ∀ token ∈ tokens, token.lexeme ≠ .endMark) : tokens = [] := by
  have hmakes := makes_turn tokens cursor
  rw [h] at hmakes
  cases hmakes with
  | nothing hcurrent =>
    have hle := List.getElem?_eq_none_iff.mp hcurrent
    exact List.length_eq_zero_iff.mp (by omega)
  | ends hcurrent hmark => exact absurd hmark (htokens _ (List.mem_of_getElem? hcurrent))

/-! ## The end of the walk -/

/-- The list is empty, has an end mark, or ends in a closing bracket. -/
def HasEnd (tokens : List Token) : Prop :=
  tokens = [] ∨ (∃ token ∈ tokens, token.lexeme = .endMark) ∨
    ∃ last bracket, tokens.getLast? = some last ∧ last.lexeme = .closing bracket

theorem position_le_of_reaches (h : Reaches tokens start cursor)
    (htoken : tokens[position]? = some token) (hmark : token.lexeme = .endMark) :
    cursor.position ≤ position := by
  induction h with
  | refl => exact Nat.zero_le position
  | @tail before after _ hturn ih =>
    obtain ⟨passed, hcurrent, hpassed, hposition⟩ := not_endMark_of_turn hturn
    have hne : before.position ≠ position := by
      rintro rfl
      rw [current?_of_getElem? htoken] at hcurrent
      obtain rfl := Option.some.inj hcurrent
      exact hpassed hmark
    omega

/-- From the last token on, every turn closes a form. -/
theorem forms_lt_of_turn (htokens : HasEnd tokens) (h : Reaches tokens start cursor)
    (hturn : turn tokens cursor = .next cursor') (hlast : tokens.length ≤ cursor.position + 1) :
    cursor'.forms.length < cursor.forms.length := by
  have hcurrent := current?_of_length_le_succ hlast
  rcases htokens with rfl | ⟨token, hmem, hmark⟩ | ⟨last, bracket, hclosing, hbracket⟩
  · obtain ⟨_, hpassed, -⟩ := not_endMark_of_turn hturn
    cases hpassed
  · -- the cursor is at the end mark, which no turn passes
    obtain ⟨i, htoken⟩ := List.mem_iff_getElem?.mp hmem
    have hle := position_le_of_reaches h htoken hmark
    have hlt := (List.getElem?_eq_some_iff.mp htoken).1
    obtain rfl : cursor.position = i := by omega
    obtain ⟨_, hpassed, hnot, -⟩ := not_endMark_of_turn hturn
    rw [current?_of_getElem? htoken] at hpassed
    exact absurd (Option.some.inj hpassed ▸ hmark) hnot
  · rw [hclosing] at hcurrent
    have hmakes := makes_turn tokens cursor
    rw [hturn] at hmakes
    cases hmakes with
    | closes _ _ _ hforms => exact hforms
    | passes hpassed hitem =>
      rw [← Option.some.inj (hcurrent.symm.trans hpassed), hbracket] at hitem
      exact hitem.elim

/-- The walk through such a list is over at last: every turn passes a token or closes a form. -/
theorem exists_stop (htokens : HasEnd tokens) (cursor : Cursor) (h : Reaches tokens start cursor) :
    ∃ final outcome, Reaches tokens cursor final ∧ turn tokens final = .stop outcome := by
  match hturn : turn tokens cursor with
  | .stop outcome => exact ⟨cursor, outcome, .refl, hturn⟩
  | .next next =>
    have hposition : next.position = cursor.position + 1 := by
      obtain ⟨-, -, -, hposition⟩ := not_endMark_of_turn hturn
      exact hposition
    have hforms := forms_lt_of_turn htokens h hturn
    obtain ⟨final, outcome, hfinal, hstop⟩ := exists_stop htokens next (h.tail hturn)
    exact ⟨final, outcome, .head hturn hfinal, hstop⟩
termination_by (tokens.length - cursor.position, cursor.forms.length)
decreasing_by
  rw [Prod.lex_def]
  dsimp only
  omega

/-! ## What becomes of the walk -/

/-- What becomes of the walk from a cursor: it is over with an outcome, or it never is, which counts
as an error of its own. -/
inductive ComesTo (tokens : List Token) (cursor : Cursor) : Except SyntaxError Node → Prop
  | stop {final : Cursor} {outcome : Except SyntaxError Node} : Reaches tokens cursor final →
      turn tokens final = .stop outcome → ComesTo tokens cursor outcome
  | endless (token : Token) (overrun : Bool) :
      (∀ final, Reaches tokens cursor final → ∃ next, turn tokens final = .next next) →
      ComesTo tokens cursor (.error ⟨.endless, token, overrun⟩)

/-- There is one way on from every cursor. -/
theorem reaches_total {final' : Cursor} (h : Reaches tokens cursor final)
    (h' : Reaches tokens cursor final') :
    Reaches tokens final final' ∨ Reaches tokens final' final := by
  refine Relation.ReflTransGen.total_of_right_unique (fun _ _ _ hnext hnext' ↦ ?_) h h'
  exact Turn.next.inj (hnext.symm.trans hnext')

/-- The walk is over at one cursor only. -/
theorem eq_of_stop {final' : Cursor} {outcome' : Except SyntaxError Node}
    (h : Reaches tokens cursor final) (hstop : turn tokens final = .stop outcome)
    (h' : Reaches tokens cursor final') (hstop' : turn tokens final' = .stop outcome') :
    final = final' := by
  have honly {first second : Cursor} {result : Except SyntaxError Node}
      (hreaches : Reaches tokens first second) (hfirst : turn tokens first = .stop result) :
      first = second := by
    obtain heq | ⟨next, hnext, -⟩ := hreaches.cases_head
    · exact heq
    · cases hfirst.symm.trans hnext
  rcases reaches_total h h' with hafter | hbefore
  · exact honly hafter hstop
  · exact (honly hbefore hstop').symm

theorem ComesTo.of_reaches (h : ComesTo tokens cursor' outcome)
    (hreaches : Reaches tokens cursor cursor') : ComesTo tokens cursor outcome := by
  cases h with
  | stop hfinal hstop => exact .stop (hreaches.trans hfinal) hstop
  | endless token overrun hnever =>
    refine .endless token overrun fun final hfinal ↦ ?_
    rcases reaches_total hreaches hfinal with hafter | hbefore
    · exact hnever final hafter
    · obtain rfl | ⟨next, hnext, -⟩ := hbefore.cases_head
      · exact hnever _ .refl
      · exact ⟨next, hnext⟩

/-- Past the end of a list whose last token begins an item, the walk goes on for ever. -/
theorem exists_next_of_reaches (hlast : tokens.getLast? = some last)
    (hitem : last.lexeme.BeginsItem) (hposition : tokens.length ≤ cursor.position)
    (h : Reaches tokens cursor final) : ∃ next, turn tokens final = .next next := by
  have hle : tokens.length ≤ final.position := by
    induction h with
    | refl => exact hposition
    | tail _ hturn ih =>
      obtain ⟨_, -, -, hnext⟩ := not_endMark_of_turn hturn
      omega
  have hcurrent := (current?_of_length_le hle).trans hlast
  obtain ⟨next, hnext, -⟩ := exists_next_of_beginsItem hcurrent hitem
  exact ⟨next, hnext⟩

/-- What becomes of the walk agrees with the result of reading an item: it has one more item and
has passed what was read, or it comes to the error. -/
def Agrees (tokens : List Token) (cursor : Cursor) (forms : List OpenForm) (items : List Node) :
    Except SyntaxError (Node × Rest left) → Prop
  | .ok (node, rest) => ∃ position, tokens.drop position = rest.val ∧
      Reaches tokens cursor ⟨position, forms, node :: items⟩
  | .error error => ComesTo tokens cursor (.error error)

theorem Agrees.of_reaches {forms : List OpenForm} {items : List Node}
    {result : Except SyntaxError (Node × Rest left)} (h : Agrees tokens cursor' forms items result)
    (hreaches : Reaches tokens cursor cursor') : Agrees tokens cursor forms items result := by
  match result with
  | .ok _ =>
    obtain ⟨position, hdrop, hread⟩ := h
    exact ⟨position, hdrop, hreaches.trans hread⟩
  | .error _ => exact ComesTo.of_reaches h hreaches

mutual

theorem readExpression_agrees (hlast : tokens.getLast? = some last) (position : Nat)
    (token : Token) (left : List Token) (hdrop : tokens.drop position = token :: left)
    (htoken : token.lexeme.BeginsItem) (forms : List OpenForm) (items : List Node) :
    Agrees tokens ⟨position, forms, items⟩ forms items (readExpression last token left) := by
  obtain ⟨hcurrent, -, hnext⟩ := current?_of_drop_eq_cons hdrop
  obtain ⟨lexeme, span⟩ := token
  rw [readExpression]
  cases lexeme with
  | closing | endMark => exact htoken.elim
  | atom kind text => exact ⟨position + 1, hnext, .single (by rw [turn, hcurrent])⟩
  | opening bracket =>
    have hform := readForm_agrees hlast (position + 1) left hnext ⟨bracket, span, items⟩ forms []
    exact hform.of_reaches (.single (by rw [turn, hcurrent]))
termination_by 2 * left.length + 1

theorem readForm_agrees (hlast : tokens.getLast? = some last) (position : Nat) (left : List Token)
    (hdrop : tokens.drop position = left) (inner : OpenForm) (forms : List OpenForm)
    (items : List Node) :
    Agrees tokens ⟨position, inner :: forms, items⟩ forms inner.before
      (readForm last inner.bracket inner.opening items left) := by
  match left with
  | [] =>
    have hle : tokens.length ≤ position := List.drop_eq_nil_iff.mp hdrop
    have hcurrent := (current?_of_length_le hle).trans hlast
    rw [readForm]
    obtain ⟨lexeme, span⟩ := last
    cases lexeme with
    | atom | opening =>
      exact .endless _ _ fun final h ↦ exists_next_of_reaches hlast trivial hle h
    | endMark => exact .stop .refl (by rw [turn, hcurrent, decide_eq_true hle])
    | closing closer =>
      dsimp only
      split
      · refine ⟨position + 1, ?_, .single (by rw [turn, hcurrent]; exact if_pos ‹_›)⟩
        exact List.drop_eq_nil_iff.mpr (Nat.le_succ_of_le hle)
      · refine .stop .refl ?_
        rw [turn, hcurrent, decide_eq_true hle]
        exact if_neg ‹_›
  | token :: left =>
    obtain ⟨hcurrent, hlt, hnext⟩ := current?_of_drop_eq_cons hdrop
    have hexpression (hitem : token.lexeme.BeginsItem) :=
      readExpression_agrees hlast position token left hdrop hitem (inner :: forms) items
    rw [readForm]
    obtain ⟨lexeme, span⟩ := token
    cases lexeme with
    | endMark => exact .stop .refl (by rw [turn, hcurrent, decide_eq_false hlt])
    | closing closer =>
      dsimp only
      split
      · exact ⟨position + 1, hnext, .single (by rw [turn, hcurrent]; exact if_pos ‹_›)⟩
      · refine .stop .refl ?_
        rw [turn, hcurrent, decide_eq_false hlt]
        exact if_neg ‹_›
    | atom | opening =>
      have hexpression := hexpression trivial
      dsimp only
      cases hresult : readExpression last _ left with
      | error error =>
        rw [hresult] at hexpression
        exact hexpression
      | ok result =>
        rw [hresult] at hexpression
        obtain ⟨item, middle, hmiddle⟩ := result
        obtain ⟨position', hdrop', hreaches⟩ := hexpression
        have hform := readForm_agrees hlast position' middle hdrop' inner forms (item :: items)
        dsimp only
        cases hrest : readForm last inner.bracket inner.opening (item :: items) middle with
        | error error =>
          rw [hrest] at hform
          exact ComesTo.of_reaches hform hreaches
        | ok result =>
          rw [hrest] at hform
          obtain ⟨stop, hstop, hread⟩ := hform
          exact ⟨stop, hstop, hreaches.trans hread⟩
termination_by 2 * left.length

end

theorem readProgram_comesTo (hlast : tokens.getLast? = some last) (position : Nat)
    (left : List Token) (hdrop : tokens.drop position = left) (items : List Node) :
    ComesTo tokens ⟨position, [], items⟩ (readProgram last last.span.stop items left) := by
  have hstop : (tokens.getLast?.map (·.span.stop)).getD 0 = last.span.stop := by
    rw [hlast]
    rfl
  match left with
  | [] =>
    have hle : tokens.length ≤ position := List.drop_eq_nil_iff.mp hdrop
    have hcurrent := (current?_of_length_le hle).trans hlast
    rw [readProgram]
    obtain ⟨lexeme, span⟩ := last
    cases lexeme with
    | atom | opening =>
      exact .endless _ _ fun final h ↦ exists_next_of_reaches hlast trivial hle h
    | endMark => exact .stop .refl (by rw [turn, hcurrent, hstop])
    | closing closer => exact .stop .refl (by rw [turn, hcurrent, decide_eq_true hle])
  | token :: left =>
    obtain ⟨hcurrent, hlt, -⟩ := current?_of_drop_eq_cons hdrop
    have hexpression (hitem : token.lexeme.BeginsItem) :=
      readExpression_agrees hlast position token left hdrop hitem [] items
    rw [readProgram]
    obtain ⟨lexeme, span⟩ := token
    cases lexeme with
    | endMark => exact .stop .refl (by rw [turn, hcurrent, hstop])
    | closing closer => exact .stop .refl (by rw [turn, hcurrent, decide_eq_false hlt])
    | atom | opening =>
      have hexpression := hexpression trivial
      dsimp only
      cases hresult : readExpression last _ left with
      | error error =>
        rw [hresult] at hexpression
        exact hexpression
      | ok result =>
        rw [hresult] at hexpression
        obtain ⟨item, middle, hmiddle⟩ := result
        obtain ⟨position', hdrop', hreaches⟩ := hexpression
        exact (readProgram_comesTo hlast position' middle hdrop' (item :: items)).of_reaches
          hreaches
termination_by left.length

/-- The reader by descent tells what becomes of the walk. -/
theorem comesTo_ofTokens (tokens : List Token) : ComesTo tokens start (ofTokens tokens) := by
  rw [ofTokens]
  cases hlast : tokens.getLast? with
  | none =>
    obtain rfl := List.getLast?_eq_none_iff.mp hlast
    exact .stop .refl rfl
  | some last => exact readProgram_comesTo hlast 0 tokens rfl []

/-- The walk through a list is over at last unless the reader by descent says that it is endless. -/
theorem exists_stop_iff (tokens : List Token) :
    (∃ final outcome, Reaches tokens start final ∧ turn tokens final = .stop outcome) ↔
      ∀ error, ofTokens tokens = .error error → error.cause ≠ .endless := by
  have hcomes := comesTo_ofTokens tokens
  constructor
  · rintro ⟨final, outcome, hfinal, hstop⟩ error herror
    rw [herror] at hcomes
    cases hcomes with
    | @stop final _ _ herror =>
      have hmakes := makes_turn tokens final
      rw [herror] at hmakes
      cases hmakes <;> assumption
    | endless _ _ hnever =>
      obtain ⟨next, hnext⟩ := hnever final hfinal
      cases hstop.symm.trans hnext
  · intro hcause
    generalize ofTokens tokens = outcome at hcomes hcause
    cases hcomes with
    | stop hfinal hstop => exact ⟨_, _, hfinal, hstop⟩
    | endless => exact absurd rfl (hcause _ rfl)

/-- The walk through a list with an end is over, with the outcome that the reader by descent
tells. -/
theorem exists_stop_ofTokens (htokens : HasEnd tokens) :
    ∃ final, Reaches tokens start final ∧ turn tokens final = .stop (ofTokens tokens) := by
  have hcause := (exists_stop_iff tokens).mp (exists_stop htokens start .refl)
  have hcomes := comesTo_ofTokens tokens
  generalize ofTokens tokens = outcome at hcomes hcause
  cases hcomes with
  | stop hfinal hstop => exact ⟨_, hfinal, hstop⟩
  | endless => exact absurd rfl (hcause _ rfl)

/-! ## Errors past the end -/

/-- An error of the walk is about the place where the current token starts, and past the end about
the place where the last token stops. -/
theorem offset_of_turn {error : SyntaxError} (h : turn tokens cursor = .stop (.error error)) :
    (∀ token, tokens[cursor.position]? = some token → error.offset = token.span.start) ∧
      (tokens.length ≤ cursor.position →
        ∃ last, tokens.getLast? = some last ∧ error.offset = last.span.stop) := by
  have hmakes := makes_turn tokens cursor
  rw [h] at hmakes
  obtain ⟨hcurrent, hoverrun⟩ : current? tokens cursor.position = some error.token ∧
      error.overrun = decide (tokens.length ≤ cursor.position) := by
    cases hmakes with
    | refuses _ hcurrent | breaks _ hcurrent => exact ⟨hcurrent, rfl⟩
  refine ⟨fun token hget ↦ ?_, fun hle ↦ ⟨error.token, ?_, ?_⟩⟩
  · have hlt : ¬tokens.length ≤ cursor.position :=
      Nat.not_le.mpr (List.getElem?_eq_some_iff.mp hget).1
    rw [current?_of_getElem? hget] at hcurrent
    rw [SyntaxError.offset, hoverrun, decide_eq_false hlt, Option.some.inj hcurrent]
    rfl
  · rw [← hcurrent, current?_of_length_le hle]
  · rw [SyntaxError.offset, hoverrun, decide_eq_true hle]
    rfl

/-- There is a report if the offset that the error is about falls between two characters. -/
theorem report?_eq_some_iff {error : SyntaxError} {source : List Char} {file : String}
    {report : HostError} :
    error.report? source file = some report ↔ ∃ before after, source = before ++ after ∧
      byteLength before = min error.offset (byteLength source) ∧
      report = .parser (error.message source) (some ⟨file, before.count '\n' + 1⟩) := by
  rw [SyntaxError.report?, Option.map_eq_some_iff]
  constructor
  · rintro ⟨line, hline, rfl⟩
    obtain ⟨before, after, hsource, hlength, rfl⟩ := lineAt?_eq_some_iff.mp hline
    exact ⟨before, after, hsource, hlength, rfl⟩
  · rintro ⟨before, after, hsource, hlength, rfl⟩
    exact ⟨_, lineAt?_eq_some_iff.mpr ⟨before, after, hsource, hlength, rfl⟩, rfl⟩

/-- **The walk is over at last** in every list that is empty, has an end mark or ends in a closing
bracket, with the outcome that the reader by descent tells. Every turn counts one token, and from
the last token on every turn closes a form. No tokens make a program without items. Other tokens
without an end mark make none: there is an error, which is about the place where the current token
starts, or where the last one stops if the cursor has passed the end. It is reported with the line
of that place, unless the place is inside a character. -/
theorem walk_is_over (htokens : HasEnd tokens) :
    (∃ final, Reaches tokens start final ∧ turn tokens final = .stop (ofTokens tokens)) ∧
    (∀ cursor next, Reaches tokens start cursor → turn tokens cursor = .next next →
      next.position = cursor.position + 1 ∧
      (tokens.length ≤ cursor.position + 1 → next.forms.length < cursor.forms.length)) ∧
    (tokens = [] → ofTokens tokens = .ok (.mk ">" "" ⟨0, 0⟩ [anchor 0, anchor 0])) ∧
    (tokens ≠ [] → (∀ token ∈ tokens, token.lexeme ≠ .endMark) →
      ∃ final error offset, Reaches tokens start final ∧
        turn tokens final = .stop (.error error) ∧ ofTokens tokens = .error error ∧
        (∀ token, tokens[final.position]? = some token → offset = token.span.start) ∧
        (tokens.length ≤ final.position →
          ∃ last, tokens.getLast? = some last ∧ offset = last.span.stop) ∧
        ∀ source file report, error.report? source file = some report ↔
          ∃ before after, source = before ++ after ∧
            byteLength before = min offset (byteLength source) ∧
            report = .parser (error.message source) (some ⟨file, before.count '\n' + 1⟩)) := by
  obtain ⟨final, hfinal, hstop⟩ := exists_stop_ofTokens htokens
  refine ⟨⟨final, hfinal, hstop⟩, fun cursor next hcursor hturn ↦ ?_, ?_, fun hne hunmarked ↦ ?_⟩
  · obtain ⟨_, -, -, hposition⟩ := not_endMark_of_turn hturn
    exact ⟨hposition, forms_lt_of_turn htokens hcursor hturn⟩
  · rintro rfl
    rfl
  · match houtcome : ofTokens tokens with
    | .ok root =>
      rw [houtcome] at hstop
      exact absurd (eq_nil_of_turn hstop hunmarked) hne
    | .error error =>
      rw [houtcome] at hstop
      obtain ⟨hwithin, hpast⟩ := offset_of_turn hstop
      exact ⟨final, error, error.offset, hfinal, hstop, rfl, hwithin, hpast,
        fun source file report ↦ report?_eq_some_iff⟩

/-- One closing bracket closes two forms and is then unexpected. By that time the cursor has passed
the end, so the line is the one on which the bracket stops, not the one on which it starts. -/
theorem walk_is_over_past_the_end :
    let tokens : List Token :=
      [⟨.opening .paren, ⟨0, 1⟩⟩, ⟨.opening .paren, ⟨1, 2⟩⟩, ⟨.closing .paren, ⟨2, 4⟩⟩]
    ∃ final error, Reaches tokens start final ∧ final.position = 4 ∧
      turn tokens final = .stop (ofTokens tokens) ∧ ofTokens tokens = .error error ∧
      error.report? "((\n)".toList "a.lspy"
        = some (.parser "Unexpected '\n)'" (some ⟨"a.lspy", 2⟩)) := by
  intro tokens
  let final : Cursor := ⟨4, [], [form .paren ⟨0, 1⟩ ⟨2, 4⟩ [form .paren ⟨1, 2⟩ ⟨2, 4⟩ []]]⟩
  have hfinal : Reaches tokens start final := .head rfl <| .head rfl <| .head rfl <| .head rfl .refl
  have hstop :
      turn tokens final = .stop (.error ⟨.unexpected, ⟨.closing .paren, ⟨2, 4⟩⟩, true⟩) := rfl
  have hend : HasEnd tokens := .inr (.inr ⟨_, .paren, rfl, rfl⟩)
  obtain ⟨⟨final', hfinal', hstop'⟩, -, -, herror⟩ := walk_is_over hend
  obtain ⟨cursor, error, offset, hcursor, herror, hresult, -, hpast, hreport⟩ :=
    herror (List.cons_ne_nil _ _) (by decide)
  obtain rfl := eq_of_stop hfinal hstop hfinal' hstop'
  obtain rfl := eq_of_stop hfinal hstop hcursor herror
  obtain rfl := Except.error.inj (Turn.stop.inj (hstop.symm.trans herror))
  obtain ⟨last, hlast, rfl⟩ := hpast (by decide)
  obtain rfl := Option.some.inj hlast
  refine ⟨final, _, hfinal, rfl, hstop', hresult, (hreport _ _ _).mpr ?_⟩
  exact ⟨"((\n)".toList, [], (List.append_nil _).symm, by decide, by decide⟩

end Cursor

end QuoteLisp.Node
