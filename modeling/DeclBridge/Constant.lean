import DeclBridge.Number.ComplexDouble
import DeclBridge.Number.Decimal
import DeclBridge.Text.Quoted

/-!
# Constant values

The values that constants have: truth values, texts, and numbers in four representations.  Integers
and fractions are exact and unbounded; a `float` is a double, and a `complex` number has double
parts.  The representations are distinct values even where the numbers agree: the fraction `2/1` is
not the integer `2`.  `Constant.same` is the comparison that looks through the representation.

## Shape of a value in a message

`Constant.cited` is the form that says which representation a value has (`Fraction(3, 2)`, `'text'`)
and `Constant.plain` the number alone (`3/2`).  Either may hold an integer with more digits than are
ever written, and then there is no message.
-/

namespace DeclBridge

open Number

inductive Constant where
  | bool (value : Bool)
  | str (text : Text)
  | int (value : Int)
  | rat (value : Rat)
  | float (value : Float)
  | complex (value : ComplexDouble)
deriving DecidableEq, Repr

namespace Constant

/-- A value as messages cite it, with its representation. -/
def cited : Constant → Except Fault String
  | bool b => .ok (if b then "True" else "False")
  | str t => .ok t.quoted
  | int n => decimal n
  | rat q => do
    let numerator ← decimal q.num
    let denominator ← decimal q.den
    return "Fraction(" ++ numerator ++ ", " ++ denominator ++ ")"
  | float x => .ok (Style.message.text x)
  | complex z => .ok z.text

/-- A value as messages show it where only the number matters. -/
def plain : Constant → Except Fault String
  | rat q => do
    let numerator ← decimal q.num
    if q.den == 1 then return numerator
    let denominator ← decimal q.den
    return numerator ++ "/" ++ denominator
  | str t => .ok t.shown
  | c => c.cited

/-- The exact real number that a value is; a truth value counts as zero or one. -/
def real? : Constant → Option Rat
  | bool b => some (if b then 1 else 0)
  | str _ => none
  | int n => some n
  | rat q => some q
  | float x => rational? x
  | complex z => if z.im == 0.0 then rational? z.re else none

/-- The parts of a value that is held in doubles. -/
def parts? : Constant → Option ComplexDouble
  | float x => some (ComplexDouble.ofReal x)
  | complex z => some z
  | _ => none

/-- Equality by value: numbers of any representation are equal when they are the same number, texts
when they have the same code points, and a text never equals a number. -/
def same : Constant → Constant → Bool
  | str s, str t => s == t
  | a, b =>
    match a.parts?, b.parts? with
    | some z, some w => z.re == w.re && z.im == w.im
    | _, _ =>
      match a.real?, b.real? with
      | some p, some q => p == q
      | _, _ => false

end Constant

end DeclBridge
