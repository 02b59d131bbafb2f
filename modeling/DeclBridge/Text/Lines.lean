/-!
# Blanks and lines

`isBlank` is the class of white space of every script, and `isLineBreak` the characters that end a
line of text.  Messages are cut at their first line with `firstLine?`.
-/

namespace DeclBridge.Text

/-- White space: the ASCII blanks and separators, and the spaces of Unicode. -/
def isBlank (c : Char) : Bool :=
  let n := c.toNat
  (0x09 ≤ n && n ≤ 0x0D) || (0x1C ≤ n && n ≤ 0x20) || n == 0x85 || n == 0xA0 || n == 0x1680 ||
    (0x2000 ≤ n && n ≤ 0x200A) || n == 0x2028 || n == 0x2029 || n == 0x202F || n == 0x205F ||
    n == 0x3000

def isLineBreak (c : Char) : Bool :=
  let n := c.toNat
  (0x0A ≤ n && n ≤ 0x0D) || (0x1C ≤ n && n ≤ 0x1E) || n == 0x85 || n == 0x2028 || n == 0x2029

def firstLine? (s : String) : Option String :=
  if s.isEmpty then none else some (String.ofList (s.toList.takeWhile (!isLineBreak ·)))

/-- The first line, and the empty string where there is none. -/
def firstLine (s : String) : String :=
  (firstLine? s).getD ""

/-- A file's text with each `\r\n` and each lone `\r` read as one line feed. -/
def unifyNewlines : List Char → List Char
  | [] => []
  | '\r' :: '\n' :: rest => '\n' :: unifyNewlines rest
  | '\r' :: rest => '\n' :: unifyNewlines rest
  | c :: rest => c :: unifyNewlines rest

end DeclBridge.Text
