import DeclBridge.Number.Shortest

/-!
# Written forms of a double

A double is written with its shortest digits.  What is left to choose is a `Style`: between which
decimal exponents the digits stand in positional notation, and whether a whole number keeps a `.0`.
An exponent is written with its sign and at least two digits.
-/

namespace DeclBridge.Number

structure Style where
  /-- Positional notation is used for decimal exponents from `-4` up to, not including, this. -/
  positionalBelow : Int
  /-- A whole number in positional notation ends in `.0`. -/
  pointZero : Bool
deriving DecidableEq, Repr

/-- Literals of the output: positional up to six digits, whole numbers without a point. -/
def Style.literal : Style := ⟨6, false⟩

/-- A double in a message: positional up to sixteen digits, and always with a point. -/
def Style.message : Style := ⟨16, true⟩

/-- The part of a complex number in a message: as `Style.message`, whole numbers without a point. -/
def Style.complexPart : Style := ⟨16, false⟩

/-- An exponent mark with sign and at least two digits. -/
def exponentText (exponent : Int) : String :=
  let ds := toString exponent.natAbs
  "e" ++ (if exponent < 0 then "-" else "+") ++ (if ds.length < 2 then "0" ++ ds else ds)

def zeros (n : Nat) : String := String.ofList (List.replicate n '0')

def Style.positive (style : Style) (d : Decimal) : String :=
  let ds := (toString d.significand).toList
  let count : Int := ds.length
  -- the number of digits before the point
  let before := count + d.exponent
  if before - 1 < -4 ∨ style.positionalBelow ≤ before - 1 then
    let tail := ds.drop 1
    String.ofList (ds.take 1) ++ (if tail.isEmpty then "" else "." ++ String.ofList tail) ++
      exponentText (before - 1)
  else if before ≤ 0 then "0." ++ zeros (-before).toNat ++ String.ofList ds
  else if count ≤ before then
    String.ofList ds ++ zeros (before - count).toNat ++ (if style.pointZero then ".0" else "")
  else
    String.ofList (ds.take before.toNat) ++ "." ++ String.ofList (ds.drop before.toNat)

def Style.magnitude (style : Style) : Double → String
  | .nan => "nan"
  | .infinite _ => "inf"
  | .finite _ 0 _ => if style.pointZero then "0.0" else "0"
  | .finite _ m e => style.positive (shortest m e)

/-- Whether a double carries a minus sign; a NaN never shows one. -/
def Double.isNegative : Double → Bool
  | .nan => false
  | .infinite negative => negative
  | .finite negative _ _ => negative

def Style.text (style : Style) (x : Float) : String :=
  let d := classify x
  (if d.isNegative then "-" else "") ++ style.magnitude d

/-- A double in the given style, with a sign in any case. -/
def Style.signedText (style : Style) (x : Float) : String :=
  let d := classify x
  (if d.isNegative then "-" else "+") ++ style.magnitude d

end DeclBridge.Number
