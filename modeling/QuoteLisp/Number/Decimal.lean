/-!
# Decimal notation of 64-bit numbers

A number is written in base ten, with a minus sign in front when it is negative. Reading takes an
optional sign of either kind and one or more digits, however many, and answers only when the number
they denote fits in 64 bits.

The digits are read into an unbounded integer and the range is checked once at the end, so leading
zeros never count as overflow and the least number needs no case of its own.
-/

namespace QuoteLisp.Decimal

/-- The character for a digit below ten. -/
def digitChar (d : Nat) : Char :=
  Char.ofNat ('0'.toNat + d)

/-- The decimal digits of a natural number, the most significant first. -/
def digits (n : Nat) : List Char :=
  if n < 10 then [digitChar n] else digits (n / 10) ++ [digitChar (n % 10)]

/-- The decimal notation of an integer. -/
def writeInt (i : Int) : List Char :=
  if i < 0 then '-' :: digits i.natAbs else digits i.natAbs

/-- The decimal notation of a 64-bit number. -/
def write (n : Int64) : List Char :=
  writeInt n.toInt

/-- The number that a run of digits denotes, continuing from the value of the digits before it. -/
def accumulate (high : Nat) (ds : List Char) : Nat :=
  ds.foldl (fun value d ↦ 10 * value + (d.toNat - '0'.toNat)) high

/-- The natural number that a non-empty run of ASCII digits denotes. -/
def readDigits? (ds : List Char) : Option Nat :=
  if !ds.isEmpty && ds.all Char.isDigit then some (accumulate 0 ds) else none

/-- The integer that an optional sign and a run of digits denote. -/
def readInt? : List Char → Option Int
  | '-' :: ds => (readDigits? ds).map fun n ↦ -(n : Int)
  | '+' :: ds => (readDigits? ds).map fun n ↦ (n : Int)
  | ds => (readDigits? ds).map fun n ↦ (n : Int)

/-- The 64-bit number that a text denotes; `none` when it is no number or out of range. -/
def read? (text : List Char) : Option Int64 := do
  let i ← readInt? text
  if Int64.minValue.toInt ≤ i ∧ i ≤ Int64.maxValue.toInt then some (Int64.ofInt i) else none

end QuoteLisp.Decimal
