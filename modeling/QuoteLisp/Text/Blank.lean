/-!
# Blank characters

Blanks separate tokens and carry no meaning of their own. A character is blank exactly when it has
the Unicode property `White_Space`, which twenty-five code points have: the ASCII blanks and
controls, the next-line control, and the typographic spaces and separators of the basic plane.
-/

namespace QuoteLisp

/-- The code points with the property `White_Space`, as closed ranges in increasing order. -/
def blankRanges : List (Nat × Nat) :=
  [(0x9, 0xD), (0x20, 0x20), (0x85, 0x85), (0xA0, 0xA0), (0x1680, 0x1680), (0x2000, 0x200A),
    (0x2028, 0x2029), (0x202F, 0x202F), (0x205F, 0x205F), (0x3000, 0x3000)]

/-- Whether a character is blank. -/
def isBlank (c : Char) : Bool :=
  blankRanges.any fun (low, high) ↦ low ≤ c.toNat && c.toNat ≤ high

/-- Whether a text is empty or made of blanks only. -/
def isBlankText (text : String) : Bool :=
  text.toList.all isBlank

end QuoteLisp
