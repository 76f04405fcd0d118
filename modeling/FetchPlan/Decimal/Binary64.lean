/-!
# Double-precision numbers

A number of 64 bits as the binary interchange format lays it out, compared as a number: the two
zeros are equal and what is not a number equals nothing.
-/

namespace FetchPlan

/-- A double-precision number, known by its 64 bits. -/
structure Binary64 where
  bits : UInt64
deriving DecidableEq, Repr

namespace Binary64

/-- The sign bit is set. -/
def isNegative (x : Binary64) : Bool := x.bits.toNat / Nat.pow 2 63 = 1

/-- The eleven bits of the exponent. -/
def exponentBits (x : Binary64) : Nat := x.bits.toNat / Nat.pow 2 52 % Nat.pow 2 11

/-- The fifty-two bits of the fraction. -/
def fractionBits (x : Binary64) : Nat := x.bits.toNat % Nat.pow 2 52

/-- Not a number. -/
def isNaN (x : Binary64) : Bool := x.exponentBits = 2047 && x.fractionBits ≠ 0

/-- Infinity, of either sign. -/
def isInfinite (x : Binary64) : Bool := x.exponentBits = 2047 && x.fractionBits = 0

/-- Zero, of either sign. -/
def isZero (x : Binary64) : Bool := x.exponentBits = 0 && x.fractionBits = 0

/-- The integer `m` of the magnitude `m * 2 ^ scale`, for a finite number. -/
def mantissa (x : Binary64) : Nat :=
  if x.exponentBits = 0 then x.fractionBits else Nat.pow 2 52 + x.fractionBits

/-- The power of two that the mantissa counts, for a finite number. -/
def scale (x : Binary64) : Int :=
  if x.exponentBits = 0 then -1074 else (x.exponentBits : Int) - 1075

/-- Equality of numbers. -/
def numEq (x y : Binary64) : Bool :=
  !x.isNaN && !y.isNaN && (x.bits = y.bits || x.isZero && y.isZero)

end Binary64
end FetchPlan
