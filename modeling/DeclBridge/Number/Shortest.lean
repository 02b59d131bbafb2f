import DeclBridge.Number.Double

/-!
# The shortest decimal of a double

`shortest` gives the fewest decimal digits that read back as a given positive double, and of those
the nearest to it.

## How the digits are found

The numbers that round to `m * 2 ^ e` form an interval around it whose ends belong to it exactly
when `m` is even.  Below a power of two the neighbour is half as far away, so the lower end is
closer there.  For one digit, two digits and so on the two neighbours of the value on that decimal
grid are tried; the first grid with a point in the interval wins.  Seventeen digits always suffice.
All comparisons are between integers: a quarter of the last binary place is the unit on one side,
the grid's unit on the other, and both are scaled until neither has a denominator.
-/

namespace DeclBridge.Number

/-- The positive number `significand * 10 ^ exponent`. -/
structure Decimal where
  significand : Nat
  exponent : Int
deriving DecidableEq, Repr

def belowPowTen (m : Nat) (e k : Int) : Bool :=
  m * powTwo e.toNat * powTen (-k).toNat < powTen k.toNat * powTwo (-e).toNat

/-- The integer part of the decimal logarithm of `m * 2 ^ e`, for a positive `m`. -/
def log10Binary (m : Nat) (e : Int) : Int :=
  let guess := ((m.log2 : Int) + e) * 30103 / 100000
  if belowPowTen m e guess then guess - 1
  else if belowPowTen m e (guess + 1) then guess
  else guess + 1

/-- The interval of numbers that round to `m * 2 ^ e`, in quarters of `2 ^ e`. -/
structure RoundingInterval where
  low : Nat
  value : Nat
  high : Nat
  /-- Whether the ends belong to it. -/
  closed : Bool

def roundingInterval (m : Nat) (e : Int) : RoundingInterval where
  low := if m == powTwo 52 && minExponent < e then 4 * m - 1 else 4 * m - 2
  value := 4 * m
  high := 4 * m + 2
  closed := m % 2 == 0

def distance (a b : Nat) : Nat := (a - b) + (b - a)

/-- The nearest point of the grid of multiples of `10 ^ t` to the double, if the grid has a point in
the interval of numbers that round to it; a tie goes to the even multiple. -/
def gridPoint? (m : Nat) (e t : Int) : Option Nat :=
  let interval := roundingInterval m e
  -- a quarter of the binary place and a step of the grid, over one denominator
  let quarter := powTwo (e - 2).toNat * powTen (-t).toNat
  let step := powTen t.toNat * powTwo (2 - e).toNat
  let inside (c : Nat) : Bool :=
    if interval.closed then interval.low * quarter ≤ c * step && c * step ≤ interval.high * quarter
    else interval.low * quarter < c * step && c * step < interval.high * quarter
  let lower := interval.value * quarter / step
  let upper := lower + 1
  match inside lower && lower ≠ 0, inside upper with
  | false, false => none
  | true, false => some lower
  | false, true => some upper
  | true, true =>
    let dl := distance (lower * step) (interval.value * quarter)
    let du := distance (upper * step) (interval.value * quarter)
    if dl < du then some lower else if du < dl then some upper
    else some (if lower % 2 == 0 then lower else upper)

/-- Tries grids of more and more digits, `tries` of them, from the grid of `10 ^ t` on. -/
def firstGrid (m : Nat) (e : Int) : (tries : Nat) → (t : Int) → Decimal
  | 0, t => ⟨(gridPoint? m e t).getD 0, t⟩
  | tries + 1, t =>
    match gridPoint? m e t with
    | some c => ⟨c, t⟩
    | none => firstGrid m e tries (t - 1)

/-- Moves trailing zeros of the significand into the exponent; `fuel` bounds their number. -/
def dropZeros : (fuel : Nat) → Decimal → Decimal
  | 0, d => d
  | fuel + 1, d =>
    if d.significand ≠ 0 ∧ d.significand % 10 = 0 then
      dropZeros fuel ⟨d.significand / 10, d.exponent + 1⟩
    else d

/-- The shortest decimal that reads back as the positive double `m * 2 ^ e`. -/
def shortest (m : Nat) (e : Int) : Decimal :=
  dropZeros 20 (firstGrid m e 17 (log10Binary m e))

end DeclBridge.Number
