import DeclBridge.Text.CodePoint
import DeclBridge.Text.Printable

/-!
# Quoted texts

Two quotations of a text.

* `Text.quoted` — the form used inside messages: single quotes, or double quotes when the text holds
  a single quote and no double one.  What cannot be printed is spelled as an escape of two, four or
  eight hexadecimal digits, so the result is always a plain string.
* `Text.jsonQuoted` — a JSON string literal, which is also a literal of the output language.  Only
  the quote, the backslash and control characters below the space are escaped; every other code
  point stands for itself.
-/

namespace DeclBridge.Text

/-- The quote that `quoted` puts around a text. -/
def quoteFor (points : List CodePoint) : Char :=
  if points.any (·.val == '\''.toNat) && !points.any (·.val == '"'.toNat) then '"' else '\''

def quotedPoint (quote : Char) (p : CodePoint) : String :=
  if p.val == quote.toNat || p.val == '\\'.toNat then "\\" ++ String.singleton (Char.ofNat p.val)
  else if p.val == '\n'.toNat then "\\n"
  else if p.val == '\r'.toNat then "\\r"
  else if p.val == '\t'.toNat then "\\t"
  else if isPrintable p.val then String.singleton (Char.ofNat p.val)
  else if p.val < 0x100 then "\\x" ++ hex 2 p.val
  else if p.val < 0x10000 then "\\u" ++ hex 4 p.val
  else "\\U" ++ hex 8 p.val

/-- A text between quotes, as messages cite it. -/
def quoted (t : Text) : String :=
  let quote := quoteFor t.points
  String.singleton quote ++ String.join (t.points.map (quotedPoint quote)) ++ String.singleton quote

def jsonPoint (p : CodePoint) : Text :=
  if p.val == '"'.toNat then "\\\""
  else if p.val == '\\'.toNat then "\\\\"
  else if p.val == '\n'.toNat then "\\n"
  else if p.val == '\r'.toNat then "\\r"
  else if p.val == '\t'.toNat then "\\t"
  else if p.val == 0x0C then "\\f"
  else if p.val == 0x08 then "\\b"
  else if p.val < 0x20 then ofString ("\\u" ++ hex 4 p.val)
  else ⟨[p]⟩

def jsonQuoted (t : Text) : Text :=
  "\"" ++ ⟨t.points.flatMap fun p => (jsonPoint p).points⟩ ++ "\""

end DeclBridge.Text

namespace DeclBridge

/-- A string between quotes, as messages cite it. -/
def quotedString (s : String) : String :=
  (Text.ofString s).quoted

end DeclBridge
