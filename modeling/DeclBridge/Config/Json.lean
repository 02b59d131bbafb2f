import DeclBridge.Number.Decimal
import DeclBridge.Table
import DeclBridge.Text.CodePoint

/-!
# JSON values

The value type of configuration files and its reader.  Texts are sequences of code points, because
an escape may spell a lone surrogate.  Integers and other numbers are different values: `1.0` is no
integer.  An object keeps its members in order, and of two members with one name the last counts.

## Shape of the reader

Each function takes the characters that are left and returns what it read and the characters after
it.  A failure notes how many characters were left at the place it is about, from which `Json.parse`
finds offset, line and column.  The functions on values recurse on a number that bounds the nesting;
the length of the text is always enough.
-/

namespace DeclBridge

inductive Json where
  | null
  | bool (value : Bool)
  | int (value : Int)
  /-- A number that is not an integer in form; its spelling is kept. -/
  | real (spelling : String)
  | str (text : Text)
  | arr (elements : List Json)
  | obj (members : List (Text × Json))
deriving Repr, Inhabited

namespace Json

inductive Problem where
  | expectingValue
  | expectingName
  | expectingColon
  | expectingComma
  | extraData
  | unterminatedString
  | invalidControlCharacter
  | invalidEscape
  | invalidUnicodeEscape
  | byteOrderMark
  /-- An integer of more digits than are read. -/
  | tooManyDigits (count : Nat)
deriving DecidableEq, Repr

/-- A problem and the number of characters that are left at its place. -/
structure Failure where
  problem : Problem
  left : Nat
deriving DecidableEq, Repr

def fail {α : Type} (problem : Problem) (cs : List Char) : Except Failure (α × List Char) :=
  .error ⟨problem, cs.length⟩

def isBlank (c : Char) : Bool := c == ' ' || c == '\t' || c == '\n' || c == '\r'

def skipBlanks (cs : List Char) : List Char := cs.dropWhile isBlank

/-! ## Strings -/

def hexValue? (c : Char) : Option Nat :=
  if '0' ≤ c ∧ c ≤ '9' then some (c.toNat - '0'.toNat)
  else if 'a' ≤ c ∧ c ≤ 'f' then some (c.toNat - 'a'.toNat + 10)
  else if 'A' ≤ c ∧ c ≤ 'F' then some (c.toNat - 'A'.toNat + 10)
  else none

def hexPoint? (a b c d : Char) : Option CodePoint := do
  let a ← hexValue? a
  let b ← hexValue? b
  let c ← hexValue? c
  let d ← hexValue? d
  return Fin.ofNat _ (((a * 16 + b) * 16 + c) * 16 + d)

def escaped? : Char → Option Char
  | '"' => some '"'
  | '\\' => some '\\'
  | '/' => some '/'
  | 'b' => some '\x08'
  | 'f' => some '\x0c'
  | 'n' => some '\n'
  | 'r' => some '\r'
  | 't' => some '\t'
  | _ => none

/-- Reads a string after its opening quote, in front of which `start` characters were left. -/
def stringBody (start : Nat) : List Char → Except Failure (List CodePoint × List Char)
  | [] => .error ⟨.unterminatedString, start⟩
  | '"' :: rest => .ok ([], rest)
  | '\\' :: 'u' :: a :: b :: c :: d :: rest =>
    match hexPoint? a b c d with
    | some p =>
      if rest.isEmpty then .error ⟨.invalidUnicodeEscape, rest.length + 5⟩
      else do
        let (ps, rest) ← stringBody start rest
        return (p :: ps, rest)
    | none => .error ⟨.invalidUnicodeEscape, rest.length + 5⟩
  | '\\' :: 'u' :: rest => .error ⟨.invalidUnicodeEscape, rest.length + 1⟩
  | '\\' :: c :: rest =>
    match escaped? c with
    | some e => do
      let (ps, rest) ← stringBody start rest
      return (CodePoint.ofChar e :: ps, rest)
    | none => .error ⟨.invalidEscape, rest.length + 2⟩
  | ['\\'] => .error ⟨.unterminatedString, start⟩
  | c :: rest =>
    if c.toNat ≤ 0x1F then .error ⟨.invalidControlCharacter, rest.length + 1⟩
    else do
      let (ps, rest) ← stringBody start rest
      return (CodePoint.ofChar c :: ps, rest)

def joinSurrogates : List CodePoint → List CodePoint
  | high :: low :: rest =>
    if 0xD800 ≤ high.val ∧ high.val ≤ 0xDBFF ∧ 0xDC00 ≤ low.val ∧ low.val ≤ 0xDFFF then
      Fin.ofNat _ (0x10000 + (high.val - 0xD800) * 0x400 + (low.val - 0xDC00)) ::
        joinSurrogates rest
    else high :: joinSurrogates (low :: rest)
  | ps => ps

def string (cs : List Char) : Except Failure (Text × List Char) := do
  let (ps, rest) ← stringBody (cs.length + 1) cs
  return (⟨joinSurrogates ps⟩, rest)

/-! ## Numbers -/

def isDigit (c : Char) : Bool := '0' ≤ c && c ≤ '9'

/-- The length of the whole part of a number, without a sign; zero when there is none. -/
def wholeLength : List Char → Nat
  | '0' :: _ => 1
  | cs => (cs.takeWhile isDigit).length

def fractionLength : List Char → Nat
  | '.' :: rest =>
    let count := (rest.takeWhile isDigit).length
    if count = 0 then 0 else 1 + count
  | _ => 0

def exponentLength : List Char → Nat
  | mark :: rest =>
    if mark == 'e' || mark == 'E' then
      let sign := match rest with
        | '+' :: _ | '-' :: _ => 1
        | _ => 0
      let count := ((rest.drop sign).takeWhile isDigit).length
      if count = 0 then 0 else 1 + sign + count
    else 0
  | [] => 0

/-- The number that a run of ASCII digits spells. -/
def digitsValue (cs : List Char) : Nat :=
  cs.foldl (fun n c => n * 10 + (c.toNat - '0'.toNat)) 0

def number (cs : List Char) : Except Failure (Json × List Char) :=
  let sign := match cs with
    | '-' :: _ => 1
    | _ => 0
  let whole := wholeLength (cs.drop sign)
  let fraction := fractionLength (cs.drop (sign + whole))
  let exponent := exponentLength (cs.drop (sign + whole + fraction))
  let length := sign + whole + fraction + exponent
  if whole = 0 then fail .expectingValue cs
  else if fraction + exponent ≠ 0 then
    .ok (.real (String.ofList (cs.take length)), cs.drop length)
  else if Number.digitLimit < whole then fail (.tooManyDigits whole) cs
  else
    let n : Int := digitsValue ((cs.drop sign).take whole)
    .ok (.int (if sign = 1 then -n else n), cs.drop length)

/-! ## Values -/

def words : List (String × Json) := [
  ("null", .null), ("true", .bool true), ("false", .bool false),
  ("NaN", .real "NaN"), ("Infinity", .real "Infinity"), ("-Infinity", .real "-Infinity")]

def scalar (cs : List Char) : Except Failure (Json × List Char) :=
  match words.find? fun (w, _) => w.toList.isPrefixOf cs with
  | some (w, value) => .ok (value, cs.drop w.length)
  | none => number cs

/-- Puts a member into an object, in the place of one with the same name if there is one. -/
def putMember (members : List (Text × Json)) (name : Text) (value : Json) : List (Text × Json) :=
  Table.insertEntry name value members

mutual

/-- Reads a value; `depth` bounds the nesting. -/
def value : (depth : Nat) → List Char → Except Failure (Json × List Char)
  | 0, cs => fail .expectingValue cs
  | depth + 1, cs =>
    match cs with
    | '"' :: rest => do
      let (t, rest) ← string rest
      return (.str t, rest)
    | '[' :: rest =>
      match skipBlanks rest with
      | ']' :: rest => .ok (.arr [], rest)
      | rest => do
        let (elements, rest) ← elements depth rest
        return (.arr elements, rest)
    | '{' :: rest =>
      match skipBlanks rest with
      | '}' :: rest => .ok (.obj [], rest)
      | rest => do
        let (members, rest) ← members depth [] rest
        return (.obj members, rest)
    | cs => scalar cs

/-- Reads the elements of an array, up to its closing bracket. -/
def elements : (depth : Nat) → List Char → Except Failure (List Json × List Char)
  | 0, cs => fail .expectingValue cs
  | depth + 1, cs => do
    let (v, rest) ← value depth cs
    match skipBlanks rest with
    | ']' :: rest => return ([v], rest)
    | ',' :: rest =>
      let (vs, rest) ← elements depth (skipBlanks rest)
      return (v :: vs, rest)
    | rest => fail .expectingComma rest

/-- Reads the members of an object, up to its closing brace, after those in `before`. -/
def members : (depth : Nat) → (before : List (Text × Json)) → List Char →
    Except Failure (List (Text × Json) × List Char)
  | 0, _, cs => fail .expectingName cs
  | depth + 1, before, cs =>
    match cs with
    | '"' :: rest => do
      let (name, rest) ← string rest
      match skipBlanks rest with
      | ':' :: rest =>
        let (v, rest) ← value depth (skipBlanks rest)
        match skipBlanks rest with
        | '}' :: rest => return (putMember before name v, rest)
        | ',' :: rest => members depth (putMember before name v) (skipBlanks rest)
        | rest => fail .expectingComma rest
      | rest => fail .expectingColon rest
    | cs => fail .expectingName cs

end

/-! ## Whole texts -/

def Problem.what : Problem → String
  | .expectingValue => "Expecting value"
  | .expectingName => "Expecting property name enclosed in double quotes"
  | .expectingColon => "Expecting ':' delimiter"
  | .expectingComma => "Expecting ',' delimiter"
  | .extraData => "Extra data"
  | .unterminatedString => "Unterminated string starting at"
  | .invalidControlCharacter => "Invalid control character at"
  | .invalidEscape => "Invalid \\escape"
  | .invalidUnicodeEscape => "Invalid \\uXXXX escape"
  | .byteOrderMark => "Unexpected UTF-8 BOM (decode using utf-8-sig)"
  | .tooManyDigits count =>
    "Exceeds the limit (" ++ toString Number.digitLimit ++
      " digits) for integer string conversion: value has " ++ toString count ++
      " digits; use sys.set_int_max_str_digits() to increase the limit"

/-- A failure in a text, with its line and column from one and its offset from zero. -/
def Failure.message (source : List Char) (f : Failure) : String :=
  match f.problem with
  | .tooManyDigits _ => f.problem.what
  | _ =>
    let before := source.take (source.length - f.left)
    let line := before.count '\n' + 1
    let column := (before.reverse.takeWhile (· ≠ '\n')).length + 1
    f.problem.what ++ ": line " ++ toString line ++ " column " ++ toString column ++
      " (char " ++ toString before.length ++ ")"

def parse (source : List Char) : Except Failure Json :=
  match source with
  | '\uFEFF' :: _ => .error ⟨.byteOrderMark, source.length⟩
  | _ => do
    let (v, rest) ← value (source.length + 1) (skipBlanks source)
    match skipBlanks rest with
    | [] => return v
    | rest => .error ⟨.extraData, rest.length⟩

def get? (j : Json) (name : Text) : Option Json :=
  match j with
  | .obj members => (members.find? (·.1 = name)).map (·.2)
  | _ => none

end Json

end DeclBridge
