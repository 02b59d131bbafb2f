import DeclBridge.Fault

/-!
# Integers as decimal text

Integers are unbounded, but their decimal text is not: neither reading nor writing goes beyond
`digitLimit` digits, the sign not counted.
-/

namespace DeclBridge.Number

/-- The greatest number of decimal digits that is read or written. -/
def digitLimit : Nat := 4300

def digits (n : Nat) : String := toString n

/-- An integer as decimal text of any length. -/
def plainDecimal (n : Int) : String :=
  if n < 0 then "-" ++ digits n.natAbs else digits n.natAbs

/-- An integer as decimal text, within the limit. -/
def decimal (n : Int) : Except Fault String :=
  if digitLimit < (digits n.natAbs).length then .error .tooManyDigits else .ok (plainDecimal n)

end DeclBridge.Number
