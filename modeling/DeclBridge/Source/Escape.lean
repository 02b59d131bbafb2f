import DeclBridge.Source.Invalid
import DeclBridge.Text.Utf8

/-!
# Escapes in quoted literals

The body of a quoted literal is a sequence of *pieces*: escapes, and characters that stand for
themselves.  A backslash that begins no escape is such a character.  A letter escape stands for a
control character or a quote, `\ooo` and `\xhh` spell one byte, `\uhhhh` and `\Uhhhhhhhh` a code
point.

`unquote` reads a double-quoted text strictly: there every backslash must begin an escape.
-/

namespace DeclBridge

/-- An escape without its backslash. -/
inductive Escape where
  /-- A letter or quote, and the character it stands for. -/
  | letter (spelled meant : Char)
  | octal (value : Nat)
  | byte (value : Nat)
  | point (value : Nat)
deriving DecidableEq, Repr

inductive Piece where
  | escape (e : Escape)
  | plain (c : Char)
deriving DecidableEq, Repr

namespace Escape

/-- The character that a letter escape stands for. -/
def letter? : Char → Option Char
  | 'a' => some '\x07'
  | 'b' => some '\x08'
  | 'f' => some '\x0c'
  | 'n' => some '\n'
  | 'r' => some '\r'
  | 't' => some '\t'
  | 'v' => some '\x0b'
  | '\\' => some '\\'
  | '\'' => some '\''
  | '"' => some '"'
  | _ => none

/-- The value of an ASCII digit in a base of at most sixteen. -/
def digitValue? (base : Nat) (c : Char) : Option Nat :=
  let value :=
    if '0' ≤ c ∧ c ≤ '9' then c.toNat - '0'.toNat
    else if 'a' ≤ c ∧ c ≤ 'f' then c.toNat - 'a'.toNat + 10
    else if 'A' ≤ c ∧ c ≤ 'F' then c.toNat - 'A'.toNat + 10
    else base
  if value < base then some value else none

/-- The number that exactly `count` digits at the head spell. -/
def number? (base : Nat) : (count : Nat) → (soFar : Nat) → List Char → Option Nat
  | 0, soFar, _ => some soFar
  | _ + 1, _, [] => none
  | count + 1, soFar, c :: rest =>
    match digitValue? base c with
    | some d => number? base count (soFar * base + d) rest
    | none => none

/-- The escape after a backslash, and how many characters it has. -/
def read? : List Char → Option (Escape × Nat)
  | [] => none
  | c :: rest =>
    match letter? c with
    | some meant => some (.letter c meant, 1)
    | none =>
      match c with
      | 'x' => (number? 16 2 0 rest).map (.byte ·, 3)
      | 'u' => (number? 16 4 0 rest).map (.point ·, 5)
      | 'U' => (number? 16 8 0 rest).map (.point ·, 9)
      | _ => (number? 8 3 0 (c :: rest)).map (.octal ·, 3)

def bytes : Escape → Except Refusal (List UInt8)
  | letter _ meant => .ok (Text.encodeChar meant)
  | octal value =>
    if 0xFF < value then .error (.invalid (.octalEscape value)) else .ok [value.toUInt8]
  | byte value => .ok [value.toUInt8]
  | point value =>
    if 0x10FFFF < value then .error (.fault (.codePointOutOfRange value))
    else if 0xD800 ≤ value ∧ value ≤ 0xDFFF then .error (.fault .loneSurrogate)
    else .ok (Text.encodeChar (Char.ofNat value))

/-- The number of an escape in a rune literal. -/
def rune : Escape → Nat
  | letter _ meant => meant.toNat
  | octal value | byte value | point value => value

end Escape

namespace Piece

/-- Reads on after `skip` characters that belong to the escape before. -/
def readFrom (skip : Nat) : List Char → List Piece
  | [] => []
  | c :: rest =>
    match skip with
    | n + 1 => readFrom n rest
    | 0 =>
      match if c = '\\' then Escape.read? rest else none with
      | some (e, used) => .escape e :: readFrom used rest
      | none => .plain c :: readFrom 0 rest

def read (body : List Char) : List Piece := readFrom 0 body

def bytes : Piece → Except Refusal (List UInt8)
  | escape e => e.bytes
  | plain c => .ok (Text.encodeChar c)

/-- The bytes of a sequence of pieces, up to the first that has none. -/
def allBytes : List Piece → Except Refusal (List UInt8)
  | [] => .ok []
  | p :: rest => do
    let head ← p.bytes
    let tail ← allBytes rest
    return head ++ tail

def text (pieces : List Piece) : Except Refusal String :=
  (allBytes pieces).map Text.decodeLossy

def isEscapedQuote : Piece → Bool
  | escape (.letter '\'' _) => true
  | _ => false

/-- Whether a piece is a character that may not stand for itself between double quotes. -/
def isForbidden : Piece → Bool
  | plain c => c == '\\' || c == '"' || c == '\n'
  | escape _ => false

end Piece

/-- The characters between the first and the last one. -/
def betweenEnds (cs : List Char) : List Char := (cs.drop 1).dropLast

/-- The text of a double-quoted literal. -/
def unquote (quoted : String) : Except Refusal String :=
  let cs := quoted.toList
  if cs.length < 2 ∨ cs.head? ≠ some '"' ∨ cs.getLast? ≠ some '"' then
    .error (.invalid (.notQuoted quoted))
  else
    let pieces := Piece.read (betweenEnds cs)
    if pieces.any Piece.isEscapedQuote then .error (.invalid .escapedQuote)
    else if pieces.any Piece.isForbidden then .error (.invalid (.malformedString quoted))
    else Piece.text pieces

end DeclBridge
