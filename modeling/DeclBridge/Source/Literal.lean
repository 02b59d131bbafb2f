import DeclBridge.Constant
import DeclBridge.Source.Escape
import DeclBridge.Text.Alphanumeric

/-!
# Literals

A literal is kept as it is spelled, with its kind; `Literal.constant` is the value it stands for.
Integers are exact in any base, a leading zero before further digits makes an integer octal, and
digits of every script count.  A literal with a point or an exponent is an exact fraction, and an
imaginary one is rounded to a double.  A rune literal is the number of its code point.
-/

namespace DeclBridge

open Number

inductive LiteralKind where
  | int | float | imag | char | string | rawString
deriving DecidableEq, Repr, Inhabited

/-- A literal as it is spelled. -/
structure Literal where
  kind : LiteralKind
  text : String
deriving DecidableEq, Repr, Inhabited

namespace Literal

/-! ## Numbers -/

/-- The value of a digit of any script in a base of at most ten. -/
def decimalDigit? (base : Nat) (c : Char) : Option Nat :=
  (Text.decimalValue? c).bind fun d => if d < base then some d else none

/-- The number that digits spell, each with its value from `digit?`; there must be at least one. -/
def readDigits (digit? : Char → Option Nat) (base : Nat) (cs : List Char) : Except Fault Nat :=
  match cs.mapM digit? with
  | some [] | none => .error .malformedInteger
  | some ds => .ok (ds.foldl (fun n d => n * base + d) 0)

/-- The number that decimal digits spell, within the limit on their number. -/
def readDecimal (cs : List Char) : Except Fault Nat :=
  if digitLimit < cs.length then .error .tooManyDigits
  else readDigits (decimalDigit? 10) 10 cs

/-- The letters of a spelling without its underscores. -/
def withoutUnderscores (text : String) : List Char := text.toList.filter (· ≠ '_')

def intValue (text : String) : Except Fault Nat :=
  match withoutUnderscores text with
  | '0' :: c :: rest =>
    if Text.isDigit c then readDigits (decimalDigit? 8) 8 (c :: rest)
    else if c == 'x' || c == 'X' then readDigits (Escape.digitValue? 16) 16 rest
    else if c == 'o' || c == 'O' then readDigits (Escape.digitValue? 8) 8 rest
    else if c == 'b' || c == 'B' then readDigits (Escape.digitValue? 2) 2 rest
    else .error .malformedInteger
  | cs => do
    let n ← readDecimal cs
    -- a zero of another script may only be followed by zeros
    if cs.head?.bind Text.decimalValue? = some 0 ∧ n ≠ 0 then .error .malformedInteger
    else return n

/-- The parts of a number with a point or an exponent. -/
structure DecimalParts where
  whole : List Char
  fraction : List Char
  /-- What stands after the mark of the exponent. -/
  exponent : List Char

/-- The value of a run of digits, where an empty one counts as zero. -/
def runValue (cs : List Char) : Nat :=
  cs.foldl (fun n c => n * 10 + (Text.decimalValue? c).getD 0) 0

/-- An exponent without its sign. -/
def exponentDigits : List Char → List Char
  | '-' :: ds | '+' :: ds => ds
  | ds => ds

def exponentValue : List Char → Int
  | '-' :: ds => -(runValue ds : Int)
  | cs => runValue (exponentDigits cs)

def decimalParts (cs : List Char) : DecimalParts :=
  let whole := cs.takeWhile Text.isDecimal
  let rest := cs.drop whole.length
  let (fraction, rest) := match rest with
    | '.' :: rest => (rest.takeWhile Text.isDecimal, rest.dropWhile Text.isDecimal)
    | rest => ([], rest)
  ⟨whole, fraction, rest.drop 1⟩

/-- The fraction that a number with a point or an exponent stands for.  The limit on the number of
digits is on each run of them, that of the exponent included. -/
def floatValue (text : String) : Except Fault Rat :=
  let parts := decimalParts (withoutUnderscores text)
  let runs := [parts.whole, parts.fraction, exponentDigits parts.exponent]
  if runs.any (digitLimit < ·.length) then .error .tooManyDigits
  else
    let significand := runValue (parts.whole ++ parts.fraction)
    let exponent := exponentValue parts.exponent - parts.fraction.length
    .ok (mkRat (significand * Number.powTen exponent.toNat : Nat)
      (Number.powTen (-exponent).toNat))

def imagValue (text : String) : Float :=
  let parts := decimalParts (withoutUnderscores text).dropLast
  nearestDecimal (runValue (parts.whole ++ parts.fraction))
    (exponentValue parts.exponent - parts.fraction.length)

/-! ## Quoted literals -/

/-- The number of a rune literal: one character, or one escape. -/
def runeValue (text : String) (pos : Position) : Except Refusal Nat :=
  let body := betweenEnds text.toList
  match Piece.read body, body with
  | [.escape e], _ => .ok e.rune
  | _, [c] => .ok c.toNat
  | _, _ => .error (.invalid (.runeLiteral text pos))

def stringValue (l : Literal) : Except Refusal String :=
  let body := betweenEnds l.text.toList
  if l.kind = .rawString then .ok (String.ofList (body.filter (· ≠ '\r')))
  else Piece.text (Piece.read body)

/-! ## Values -/

def constant (l : Literal) (pos : Position) : Except Refusal Constant :=
  match l.kind with
  | .int => ((intValue l.text).map fun n => Constant.int n).mapError .fault
  | .float => ((floatValue l.text).map Constant.rat).mapError .fault
  | .imag => .ok (.complex ⟨0.0, imagValue l.text⟩)
  | .char => (runeValue l.text pos).map fun n => .int n
  | .string | .rawString => l.stringValue.map fun s => .str s

end Literal

end DeclBridge
