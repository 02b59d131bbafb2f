import DeclBridge.Source.Token
import DeclBridge.Text.Alphanumeric

/-!
# Lexemes

A lexeme is the stretch of characters at the head of a text that makes up one token, one comment or
one run of blanks.  `lexeme?` finds it.  Numbers, quoted forms and words are read as far as they go;
among the operators the longer spelling wins.  What is quoted or commented and never closed is no
lexeme, so an unclosed `/*` is a slash and a star.

## Two dialects

A *file* has all reserved words.  A *fragment*, a type or an expression on its own, reserves only
the words that occur in types, and it has no plain `=`.
-/

namespace DeclBridge

inductive Dialect where
  | file
  | fragment
deriving DecidableEq, Repr

/-- The stretch at the head of a text: what it is, or `none` for what produces no token, and its
length. -/
structure Lexeme where
  kind : Option TokenKind
  length : Nat
deriving DecidableEq, Repr

namespace Lexeme

/-! ## Numbers -/

/-- A character of a run of digits. -/
def isRunChar (c : Char) : Bool := Text.isDecimal c || c == '_'

/-- The length of the run of digits and underscores at the head. -/
def runLength (cs : List Char) : Nat := (cs.takeWhile isRunChar).length

/-- Whether a text begins with a decimal digit. -/
def startsDecimal : List Char → Bool
  | c :: _ => Text.isDecimal c
  | [] => false

/-- The length of the exponent at the head, zero when there is none. -/
def exponentLength : List Char → Nat
  | mark :: rest =>
    if mark == 'e' || mark == 'E' then
      match rest with
      | sign :: more =>
        if sign == '+' || sign == '-' then
          if startsDecimal more then 2 + runLength more else 0
        else if startsDecimal rest then 1 + runLength rest
        else 0
      | [] => 0
    else 0
  | [] => 0

/-- The length of the fraction at the head, its point included. -/
def fractionLength : List Char → Nat
  | '.' :: rest => 1 + runLength rest
  | _ => 0

def isBaseDigit (letter c : Char) : Bool :=
  c == '_' ||
    if letter == 'x' || letter == 'X' then c.isDigit || ('a' ≤ c && c ≤ 'f') || ('A' ≤ c && c ≤ 'F')
    else if letter == 'b' || letter == 'B' then c == '0' || c == '1'
    else if letter == 'o' || letter == 'O' then '0' ≤ c && c ≤ '7'
    else false

def basedLength? : List Char → Option Nat
  | '0' :: letter :: rest =>
    let count := (rest.takeWhile (isBaseDigit letter)).length
    if (letter == 'x' || letter == 'X' || letter == 'b' || letter == 'B' || letter == 'o' ||
        letter == 'O') && count ≠ 0 then some (2 + count)
    else none
  | _ => none

/-- A number of `length` characters, imaginary when an `i` follows. -/
def withSuffix (cs : List Char) (kind : TokenKind) (length : Nat) : Lexeme :=
  match cs.drop length with
  | 'i' :: _ => ⟨some .imag, length + 1⟩
  | _ => ⟨some kind, length⟩

/-- The number at the head of a text that begins with a digit. -/
def wholeNumber (cs : List Char) : Lexeme :=
  let whole := runLength cs
  let fraction := fractionLength (cs.drop whole)
  let exponent := exponentLength (cs.drop (whole + fraction))
  if fraction = 0 ∧ exponent = 0 then
    match cs.drop whole with
    | 'i' :: _ => ⟨some .imag, whole + 1⟩
    | _ => ⟨some .int, (basedLength? cs).getD whole⟩
  else withSuffix cs .float (whole + fraction + exponent)

/-- The number at the head of a text that begins with a point and a digit. -/
def pointNumber (cs : List Char) : Lexeme :=
  let fraction := fractionLength cs
  withSuffix cs .float (fraction + exponentLength (cs.drop fraction))

/-! ## Quoted forms, comments and words -/

/-- The length up to and including the closing quote.  A backslash takes the next character with it,
and no line break may occur. -/
def quotedLength? (close : Char) : List Char → Option Nat
  | [] => none
  | '\\' :: c :: rest => if c == '\n' then none else (quotedLength? close rest).map (· + 2)
  | c :: rest =>
    if c == close then some 1
    else if c == '\\' || c == '\n' then none
    else (quotedLength? close rest).map (· + 1)

/-- The length up to and including the first back quote. -/
def rawLength? : List Char → Option Nat
  | [] => none
  | c :: rest => if c.toNat == 0x60 then some 1 else (rawLength? rest).map (· + 1)

/-- The length up to and including the first end of a comment. -/
def commentLength? : List Char → Option Nat
  | '*' :: '/' :: _ => some 2
  | _ :: rest => (commentLength? rest).map (· + 1)
  | [] => none

def isLineBlank (c : Char) : Bool := c == ' ' || c == '\t' || c == '\x0c' || c == '\r'

def keyword? (dialect : Dialect) (word : String) : Option Keyword :=
  match word with
  | "chan" => some .chan
  | "func" => some .func
  | "interface" => some .interface
  | "map" => some .map
  | "struct" => some .struct
  | "const" => if dialect = .file then some .const else none
  | "import" => if dialect = .file then some .imports else none
  | "package" => if dialect = .file then some .package else none
  | "type" => if dialect = .file then some .type else none
  | _ => none

def word (dialect : Dialect) (cs : List Char) : Lexeme :=
  let letters := cs.takeWhile Text.isWordChar
  let kind := match keyword? dialect (String.ofList letters) with
    | some k => .keyword k
    | none => .name
  ⟨some kind, letters.length⟩

/-! ## Operators -/

/-- An operator or punctuation mark of the given length. -/
def ofMark (length : Nat) (mark : Mark) : Option Lexeme := some ⟨some (.mark mark), length⟩

def operator? (dialect : Dialect) : List Char → Option Lexeme
  | ':' :: '=' :: _ => some ⟨some .otherOp, 2⟩
  | '+' :: '=' :: _ => some ⟨some .otherOp, 2⟩
  | '-' :: '=' :: _ => some ⟨some .otherOp, 2⟩
  | '*' :: '=' :: _ => some ⟨some .otherOp, 2⟩
  | '/' :: '=' :: _ => some ⟨some .otherOp, 2⟩
  | '%' :: '=' :: _ => some ⟨some .otherOp, 2⟩
  | '&' :: '^' :: '=' :: _ => some ⟨some .otherOp, 3⟩
  | '&' :: '=' :: _ => some ⟨some .otherOp, 2⟩
  | '|' :: '=' :: _ => some ⟨some .otherOp, 2⟩
  | '^' :: '=' :: _ => some ⟨some .otherOp, 2⟩
  | '<' :: '<' :: '=' :: _ => some ⟨some .otherOp, 3⟩
  | '>' :: '>' :: '=' :: _ => some ⟨some .otherOp, 3⟩
  | ':' :: _ => some ⟨some .otherOp, 1⟩
  | '.' :: '.' :: '.' :: _ => ofMark 3 .ellipsis
  | '+' :: '+' :: _ => some ⟨some .incDec, 2⟩
  | '-' :: '-' :: _ => some ⟨some .incDec, 2⟩
  | '\n' :: _ => some ⟨some .newline, 1⟩
  | '<' :: '-' :: _ => ofMark 2 .arrow
  | '|' :: '|' :: _ => ofMark 2 .orOr
  | '&' :: '&' :: _ => ofMark 2 .andAnd
  | '=' :: '=' :: _ => ofMark 2 .equalEqual
  | '!' :: '=' :: _ => ofMark 2 .notEqual
  | '<' :: '=' :: _ => ofMark 2 .lessEqual
  | '>' :: '=' :: _ => ofMark 2 .greaterEqual
  | '<' :: '<' :: _ => ofMark 2 .shiftLeft
  | '>' :: '>' :: _ => ofMark 2 .shiftRight
  | '&' :: '^' :: _ => ofMark 2 .andNot
  | '(' :: _ => ofMark 1 .lpar
  | ')' :: _ => ofMark 1 .rpar
  | '[' :: _ => ofMark 1 .lsqb
  | ']' :: _ => ofMark 1 .rsqb
  | '{' :: _ => ofMark 1 .lbrace
  | '}' :: _ => ofMark 1 .rbrace
  | '*' :: _ => ofMark 1 .star
  | '~' :: _ => ofMark 1 .tilde
  | ';' :: _ => some ⟨some .semicolon, 1⟩
  | ',' :: _ => ofMark 1 .comma
  | '.' :: _ => ofMark 1 .dot
  | '=' :: _ => if dialect = .file then ofMark 1 .equal else none
  | '|' :: _ => ofMark 1 .bar
  | '&' :: _ => ofMark 1 .ampersand
  | '^' :: _ => ofMark 1 .circumflex
  | '!' :: _ => ofMark 1 .bang
  | '<' :: _ => ofMark 1 .less
  | '>' :: _ => ofMark 1 .greater
  | '+' :: _ => ofMark 1 .plus
  | '-' :: _ => ofMark 1 .minus
  | '/' :: _ => ofMark 1 .slash
  | '%' :: _ => ofMark 1 .percent
  | _ => none

end Lexeme

open Lexeme in
/-- The lexeme at the head of a text, if some token, comment or blank begins there. -/
def lexeme? (dialect : Dialect) : List Char → Option Lexeme
  | [] => none
  | c :: rest =>
    let cs := c :: rest
    if Text.isDecimal c then some (wholeNumber cs)
    else if c == '.' && startsDecimal rest then some (pointNumber cs)
    else if c == '\'' then
      match quotedLength? c rest with
      | some n => if n = 1 then none else some ⟨some .char, n + 1⟩
      | none => none
    else if c == '"' then (quotedLength? c rest).map fun n => ⟨some .string, n + 1⟩
    else if c.toNat == 0x60 then (rawLength? rest).map fun n => ⟨some .rawString, n + 1⟩
    else if Text.isWordStart c then some (word dialect cs)
    else if isLineBlank c then some ⟨none, (cs.takeWhile isLineBlank).length⟩
    else
      match cs with
      | '/' :: '*' :: body =>
        match commentLength? body with
        | some n => some ⟨none, n + 2⟩
        | none => operator? dialect cs
      | '/' :: '/' :: body => some ⟨none, 2 + (body.takeWhile (· ≠ '\n')).length⟩
      | _ => operator? dialect cs

end DeclBridge
