/-!
# Powers of 64-bit numbers

Powers wrap around like the other operations on numbers. They are formed by repeated squaring, so
the number of steps grows with the length of the exponent and not with its value: wrapping once at
the end and wrapping at every step agree, because multiplication modulo a power of two does.

A negative exponent asks for the reciprocal of a power, truncated toward zero.
-/

namespace QuoteLisp

/-- `result` times the `exponent`-th power of `base`, by repeated squaring. -/
def powerInto (result base : Int64) (exponent : Nat) : Int64 :=
  if exponent = 0 then result
  else
    powerInto (if exponent % 2 = 1 then result * base else result) (base * base) (exponent / 2)

/-- The power of a number with a natural exponent, wrapped to 64 bits. -/
def naturalPower (base : Int64) (exponent : Nat) : Int64 :=
  powerInto 1 base exponent

/-- One divided by a power of `base` with a positive exponent, truncated toward zero: it is zero
unless `base` is a unit. There is none for the base zero. -/
def reciprocalPower? (base : Int64) (exponent : Nat) : Option Int64 :=
  if base = 0 then none
  else if base = 1 then some 1
  else if base = -1 then some (if exponent % 2 = 0 then 1 else -1)
  else some 0

/-- The power of a number, for exponents of either sign; `none` for a division by zero. -/
def power? (base exponent : Int64) : Option Int64 :=
  if exponent < 0 then reciprocalPower? base exponent.toInt.natAbs
  else some (naturalPower base exponent.toInt.toNat)

end QuoteLisp
