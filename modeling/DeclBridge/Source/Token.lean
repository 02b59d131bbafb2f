import DeclBridge.Source.Span
import DeclBridge.Text.Lines
import DeclBridge.Text.Quoted

/-!
# Tokens

The terminals of the source language and the tokens that carry them.  A token keeps its spelling and
its place.  Semicolons are special in that they may be inserted: an inserted one has the spelling of
the line break it stands for, or none at the end of the text.

`TokenKind.terminal` is the name a terminal has in messages, and `SyntaxError` is what is said of a
text that is not in the language.
-/

namespace DeclBridge

inductive Keyword where
  | chan | const | func | imports | interface | map | package | struct | type
deriving DecidableEq, Repr, Inhabited

inductive Mark where
  | lpar | rpar | lsqb | rsqb | lbrace | rbrace
  | star | tilde | ellipsis | comma | dot | equal
  | bar | ampersand | circumflex | bang | less | greater
  | plus | minus | slash | percent
  | arrow | orOr | andAnd | equalEqual | notEqual | lessEqual | greaterEqual
  | shiftLeft | shiftRight | andNot
deriving DecidableEq, Repr, Inhabited

inductive TokenKind where
  | name | int | float | imag | char | string | rawString
  | keyword (word : Keyword)
  | mark (symbol : Mark)
  | semicolon
  /-- `++` and `--`. -/
  | incDec
  /-- Assignment operators and the colon, which only occur in declarations that are dropped. -/
  | otherOp
  | newline
deriving DecidableEq, Repr, Inhabited

/-- A token with its spelling and the place of its first character. -/
structure Token where
  kind : TokenKind
  text : String
  pos : Position
deriving DecidableEq, Repr, Inhabited

def Keyword.terminal : Keyword → String
  | .chan => "CHAN"
  | .const => "CONST"
  | .func => "FUNC"
  | .imports => "IMPORT"
  | .interface => "INTERFACE"
  | .map => "MAP"
  | .package => "PACKAGE"
  | .struct => "STRUCT"
  | .type => "TYPE"

def Mark.terminal : Mark → String
  | .lpar => "LPAR"
  | .rpar => "RPAR"
  | .lsqb => "LSQB"
  | .rsqb => "RSQB"
  | .lbrace => "LBRACE"
  | .rbrace => "RBRACE"
  | .star => "STAR"
  | .tilde => "TILDE"
  | .ellipsis => "ELLIPSIS"
  | .comma => "COMMA"
  | .dot => "DOT"
  | .equal => "EQUAL"
  | .bar => "VBAR"
  | .ampersand => "AMPERSAND"
  | .circumflex => "CIRCUMFLEX"
  | .bang => "BANG"
  | .less => "LESSTHAN"
  | .greater => "MORETHAN"
  | .plus => "PLUS"
  | .minus => "MINUS"
  | .slash => "SLASH"
  | .percent => "PERCENT"
  | .arrow => "__ANON_0"
  | .orOr => "__ANON_1"
  | .andAnd => "__ANON_2"
  | .equalEqual => "__ANON_3"
  | .notEqual => "__ANON_4"
  | .lessEqual => "__ANON_5"
  | .greaterEqual => "__ANON_6"
  | .shiftLeft => "__ANON_7"
  | .shiftRight => "__ANON_8"
  | .andNot => "__ANON_9"

def TokenKind.terminal : TokenKind → String
  | .name => "NAME"
  | .int => "INT"
  | .float => "FLOAT"
  | .imag => "IMAG"
  | .char => "CHAR"
  | .string => "STRING"
  | .rawString => "RAW_STRING"
  | .keyword w => w.terminal
  | .mark m => m.terminal
  | .semicolon => "_SEMI"
  | .incDec => "INCDEC"
  | .otherOp => "OTHER_OP"
  | .newline => "NEWLINE"

structure StrayCharacter where
  char : Char
  pos : Position
deriving DecidableEq, Repr, Inhabited

inductive SyntaxError where
  /-- A token that no text of the language can have at its place. -/
  | token (token : Token)
  | character (stray : StrayCharacter)
  /-- The text ends where more is needed. -/
  | endOfInput
deriving DecidableEq, Repr, Inhabited

namespace SyntaxError

/-- The one-line description of an error; a stray character that ends a line also ends the
description. -/
def message : SyntaxError → String
  | token t =>
    "Unexpected token Token(" ++ quotedString t.kind.terminal ++ ", " ++ quotedString t.text ++
      ") at line " ++ toString t.pos.line ++ ", column " ++ toString t.pos.column ++ "."
  | character s =>
    Text.firstLine <|
      "No terminal matches '" ++ String.singleton s.char ++
        "' in the current parser context, at line " ++ toString s.pos.line ++
        " col " ++ toString s.pos.column
  | endOfInput => "Unexpected end-of-input. Expected one of: "

/-- Line and column of an error; the end of a text has neither, which `-1` stands for. -/
def place : SyntaxError → Int × Int
  | token t => (t.pos.line, t.pos.column)
  | character s => (s.pos.line, s.pos.column)
  | endOfInput => (-1, -1)

end SyntaxError

end DeclBridge
