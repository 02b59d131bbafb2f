import DeclBridge.Constant

/-!
# Constants as literals

The TypeScript literal of a constant.  An integer that a double does not hold exactly is written as
a big integer, with an `n` at its end.  A fraction is rounded to the nearest double first.  Complex
numbers, numbers too large for a double, and values that are unknown have no literal.
-/

namespace DeclBridge.Constant

open Number

/-- The greatest integer up to which a double holds every integer. -/
def safeInteger : Int := Int.ofNat (Number.powTwo 53) - 1

def intLiteral (n : Int) : Except Fault String := do
  let text ← decimal n
  return if n < -safeInteger ∨ safeInteger < n then text ++ "n" else text

def doubleLiteral? (x : Float) : Option Text :=
  if isFinite x then some (Style.literal.text x) else none

def literal? : Constant → Except Fault (Option Text)
  | bool b => .ok (some (if b then "true" else "false"))
  | str t => .ok (some t.jsonQuoted)
  | int n => (intLiteral n).map fun s => some s
  | rat q => .ok ((nearest? q).bind doubleLiteral?)
  | float x => .ok (doubleLiteral? x)
  | complex _ => .ok none

end DeclBridge.Constant
