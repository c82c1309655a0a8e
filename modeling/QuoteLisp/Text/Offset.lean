/-!
# Byte offsets

Positions in a source text are counted in bytes of its UTF-8 encoding, while the text itself is a
list of characters. An offset therefore names a place in the text only when it falls between two
characters, and every function here answers `none` when it falls inside one.

## The cut

`cutAt? n cs` splits `cs` after its first `n` bytes. Slices and line numbers are read off the cut,
so the question whether an offset is on a character boundary is settled in one place.
-/

namespace QuoteLisp

/-- The number of bytes that a text takes in UTF-8. -/
def byteLength : List Char → Nat
  | [] => 0
  | c :: cs => c.utf8Size + byteLength cs

@[simp] theorem byteLength_nil : byteLength [] = 0 := rfl

@[simp] theorem byteLength_cons (c : Char) (cs : List Char) :
    byteLength (c :: cs) = c.utf8Size + byteLength cs := rfl

@[simp] theorem byteLength_append (cs ds : List Char) :
    byteLength (cs ++ ds) = byteLength cs + byteLength ds := by
  induction cs with
  | nil => simp
  | cons c cs ih => simp [ih, Nat.add_assoc]

/-- A stretch of a source, from the byte offset `start` up to but not including `stop`. -/
structure Span where
  start : Nat
  stop : Nat
  deriving DecidableEq, Repr

/-- The text before the byte offset and the text after it, unless the offset lies past the end or
inside a character. -/
def cutAt? : Nat → List Char → Option (List Char × List Char)
  | 0, cs => some ([], cs)
  | _ + 1, [] => none
  | n + 1, c :: cs =>
    if c.utf8Size ≤ n + 1 then
      (cutAt? (n + 1 - c.utf8Size) cs).map fun (before, after) ↦ (c :: before, after)
    else none

@[simp] theorem cutAt?_zero (cs : List Char) : cutAt? 0 cs = some ([], cs) := by
  cases cs <;> rfl

/-- Cutting at the length of a beginning gives that beginning back. -/
theorem cutAt?_append (cs ds : List Char) : cutAt? (byteLength cs) (cs ++ ds) = some (cs, ds) := by
  induction cs with
  | nil => simp
  | cons c cs ih =>
    obtain ⟨n, hn⟩ := Nat.exists_eq_succ_of_ne_zero
      (show c.utf8Size + byteLength cs ≠ 0 by have := c.utf8Size_pos; omega)
    rw [byteLength_cons, hn, List.cons_append, cutAt?, if_pos (by omega),
      show n + 1 - c.utf8Size = byteLength cs by omega, ih]
    rfl

/-- The part of a text that a span covers, unless the span is reversed, runs past the end or cuts a
character. -/
def slice? (cs : List Char) (span : Span) : Option (List Char) :=
  if span.start ≤ span.stop then do
    let (_, after) ← cutAt? span.start cs
    let (covered, _) ← cutAt? (span.stop - span.start) after
    return covered
  else none

/-- The number, counted from one, of the line on which a byte offset lies. Offsets past the end
count as the end; an offset inside a character has no line. -/
def lineAt? (cs : List Char) (offset : Nat) : Option Nat :=
  (cutAt? (min offset (byteLength cs)) cs).map fun (before, _) ↦ before.count '\n' + 1

end QuoteLisp
