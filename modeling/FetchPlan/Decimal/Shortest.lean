import FetchPlan.Decimal.Binary64

/-!
# Shortest decimals

A double-precision number is written with as few digits as identify it: of all decimals that are
nearer to it than to any other double-precision number, the one with the fewest digits, and of
several of these the nearest. Exact arithmetic decides, on integers only.

The decimals of a coarse enough grid, the multiples of a power of ten, miss the number's interval.
Grids are tried from coarse to fine. A grid has a point in the interval if one of the number's two
neighbours on it is there, and the first such grid gives the fewest digits.
-/

namespace FetchPlan

/-- The decimal `digits * 10 ^ exponent`. -/
structure Decimal where
  digits : Nat
  exponent : Int
deriving DecidableEq, Repr

/-- A number `mid` and the interval of the reals that round to it, in units of `2 ^ scale`. The
ends belong to the interval if it is closed. -/
structure Interval where
  low : Nat
  mid : Nat
  high : Nat
  scale : Int
  isClosed : Bool
deriving DecidableEq, Repr

namespace Interval

/-- The interval of a finite number other than zero. Below a power of two the next number is only
half as far away as above it. -/
def of (x : Binary64) : Interval where
  low := 4 * x.mantissa - (if x.fractionBits = 0 ∧ 1 < x.exponentBits then 1 else 2)
  mid := 4 * x.mantissa
  high := 4 * x.mantissa + 2
  scale := x.scale - 2
  isClosed := x.mantissa % 2 = 0

/-- One unit of the interval, measured on the grid of `10 ^ e`, is `unit e / step e`. -/
def unit (i : Interval) (e : Int) : Nat := Nat.pow 2 i.scale.toNat * Nat.pow 10 (-e).toNat

/-- One step of the grid of `10 ^ e` against one unit of the interval. -/
def step (i : Interval) (e : Int) : Nat := Nat.pow 2 (-i.scale).toNat * Nat.pow 10 e.toNat

/-- Whether `n * 10 ^ e` lies in the interval. -/
def contains (i : Interval) (n : Nat) (e : Int) : Bool :=
  let point := n * i.step e
  if i.isClosed then i.low * i.unit e ≤ point && point ≤ i.high * i.unit e
  else i.low * i.unit e < point && point < i.high * i.unit e

/-- The multiple of `10 ^ e` in the interval that is nearest to the number, the larger one of two
that are equally near. -/
def nearest? (i : Interval) (e : Int) : Option Nat :=
  let below := i.mid * i.unit e / i.step e
  -- No other points of the grid are nearer to the number than `below` and the next one.
  match i.contains below e, i.contains (below + 1) e with
  | true, true =>
    let number := i.mid * i.unit e
    some <| if (below + 1) * i.step e - number ≤ number - below * i.step e then below + 1 else below
  | true, false => some below
  | false, true => some (below + 1)
  | false, false => none

/-- The first decimal found on `grids + 1` grids, from `10 ^ e` down. -/
def search (i : Interval) : (grids : Nat) → (e : Int) → Decimal
  -- On the finest grid the division leaves no remainder.
  | 0, e => ⟨i.mid * i.unit e / i.step e, e⟩
  | grids + 1, e =>
    match i.nearest? e with
    | some n => ⟨n, e⟩
    | none => search i grids (e - 1)

end Interval

/-- The exponent of a power of ten beyond all double-precision numbers. -/
def topExponent : Int := 309

/-- The shortest decimal of a finite number other than zero, its sign left aside. The number is
itself a multiple of the last power of ten that is tried. -/
def Binary64.shortest (x : Binary64) : Decimal :=
  let i := Interval.of x
  i.search (topExponent - min i.scale 0).toNat topExponent

/-- A decimal in positional notation. -/
def Decimal.positional (d : Decimal) : String :=
  let digits := Nat.toDigits 10 d.digits
  if 0 ≤ d.exponent then String.ofList (digits ++ List.replicate d.exponent.toNat '0')
  else
    let places := (-d.exponent).toNat
    -- At least one digit stands before the point.
    let padded := List.replicate (places + 1 - digits.length) '0' ++ digits
    let whole := padded.length - places
    String.ofList (padded.take whole ++ '.' :: padded.drop whole)

/-- A number as it is written: never with an exponent, and with its sign even if it is zero. -/
def Binary64.text (x : Binary64) : String :=
  if x.isNaN then "NaN"
  else
    let magnitude :=
      if x.isInfinite then "inf" else if x.isZero then "0" else x.shortest.positional
    if x.isNegative then "-" ++ magnitude else magnitude

end FetchPlan
