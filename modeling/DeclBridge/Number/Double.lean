import DeclBridge.Number.Power

/-!
# Doubles as exact numbers

A finite double is `mantissa * 2 ^ exponent`.  `classify` takes it apart, and `nearest?` goes the
other way: it rounds a rational number to the nearest double, a tie to the even mantissa, in exact
integer arithmetic.  Nothing here depends on how a processor rounds.

## Shape of a double

A positive finite double has a mantissa below `2 ^ 53` and an exponent of at least `-1074`; it is
*normal* when the mantissa is at least `2 ^ 52`.  The least exponent serves both the smallest normal
numbers and the subnormal ones, so the gradual loss of digits near zero needs no case of its own in
`nearest?`: the exponent is simply not allowed to go lower.
-/

namespace DeclBridge.Number

inductive Double where
  | nan
  | infinite (negative : Bool)
  | finite (negative : Bool) (mantissa : Nat) (exponent : Int)
deriving DecidableEq, Repr

def minExponent : Int := -1074

def classify (x : Float) : Double :=
  let bits := x.toBits.toNat
  let negative := bits / powTwo 63 == 1
  let field : Nat := bits / powTwo 52 % powTwo 11
  let fraction : Nat := bits % powTwo 52
  if field == 0x7FF then
    if fraction == 0 then .infinite negative else .nan
  else if field == 0 then .finite negative fraction minExponent
  else .finite negative (powTwo 52 + fraction) ((field : Int) - 1075)

def isFinite (x : Float) : Bool :=
  match classify x with
  | .finite .. => true
  | _ => false

/-- The rational number that a finite double is. -/
def rational? (x : Float) : Option Rat :=
  match classify x with
  | .finite negative m e =>
    let magnitude : Rat := if 0 ≤ e then (m * powTwo e.toNat : Nat) else mkRat m (powTwo (-e).toNat)
    some (if negative then -magnitude else magnitude)
  | _ => none

/-- The quotient of two natural numbers rounded to the nearest integer, a tie to the even one. -/
def roundQuotient (n d : Nat) : Nat :=
  let q := n / d
  let r := n % d
  if 2 * r < d then q
  else if d < 2 * r then q + 1
  else if q % 2 == 0 then q else q + 1

def quotientBelowPow (n d : Nat) (k : Int) : Bool :=
  if 0 ≤ k then n < d * powTwo k.toNat else n * powTwo (-k).toNat < d

/-- The integer part of the binary logarithm of `n / d`, for positive `n` and `d`. -/
def log2Quotient (n d : Nat) : Int :=
  let guess : Int := (n.log2 : Int) - d.log2
  if quotientBelowPow n d guess then guess - 1 else guess

/-- The double with sign, mantissa and exponent as given; the mantissa is below `2 ^ 53`, and below
`2 ^ 52` only with the least exponent. -/
def assemble (negative : Bool) (mantissa : Nat) (exponent : Int) : Float :=
  let sign := if negative then powTwo 63 else 0
  let body := if mantissa < powTwo 52 then mantissa
    else (exponent + 1075).toNat * powTwo 52 + (mantissa - powTwo 52)
  Float.ofBits (sign + body).toUInt64

/-- The nearest double to `± n / d`, unless that would be infinite. -/
def nearestQuotient? (negative : Bool) (n d : Nat) : Option Float :=
  if n == 0 then some (assemble negative 0 minExponent)
  else
    let e := max (log2Quotient n d - 52) minExponent
    let m := if 0 ≤ e then roundQuotient n (d * powTwo e.toNat)
      else roundQuotient (n * powTwo (-e).toNat) d
    let (m, e) := if m == powTwo 53 then (powTwo 52, e + 1) else (m, e)
    if 971 < e then none else some (assemble negative m e)

/-- The nearest double to a rational number, unless that would be infinite. -/
def nearest? (q : Rat) : Option Float :=
  nearestQuotient? (q.num < 0) q.num.natAbs q.den

def infinity : Float := Float.ofBits 0x7FF0000000000000

/-- The nearest double to `significand * 10 ^ exponent`, infinite when it is too large. -/
def nearestDecimal (significand : Nat) (exponent : Int) : Float :=
  let magnitude : Int := (toString significand).length + exponent
  if significand == 0 then assemble false 0 minExponent
  else if 400 < magnitude then infinity
  else if magnitude < -400 then assemble false 0 minExponent
  else
    let n := significand * powTen exponent.toNat
    (nearestQuotient? false n (powTen (-exponent).toNat)).getD infinity

end DeclBridge.Number
