import DeclBridge.Output.StructShape

/-!
# Texts of types

The forms that types have in the output.  They are built from texts and look at the texts of their
parts: a text that already ends in `| null` is not made nullable again, and an element type with a
union or an intersection in it is put in parentheses.
-/

namespace DeclBridge.TypeText

def nullMark : Text := " | null"

def nullable (type : Text) : Text :=
  if type.endsWith nullMark then type else type ++ nullMark

def arrayOf (elem : Text) : Text :=
  if elem.contains " | " || elem.contains " & " then "(" ++ elem ++ ")[]" else elem ++ "[]"

/-- An object with values of one type under any key. -/
def recordOf (elem : Text) : Text :=
  "\x7b [key in string]: " ++ elem ++ " \x7d"

def member (p : Property Text) : Text :=
  (Text.ofString p.name).jsonQuoted ++ (if p.optional then "?: " else ": ") ++ p.type

/-- What an embedded type is merged as: a nullable one may be absent as a whole. -/
def merged (type : Text) : Text :=
  if type.endsWith nullMark then "Partial<" ++ type.dropEnd nullMark.points.length ++ ">" else type

/-- An object type with its embedded types. -/
def object (shape : StructShape Text) : Text :=
  let members := shape.properties.map member
  let body : Text :=
    if members.isEmpty then "\x7b\x7d" else "\x7b " ++ Text.join "; " members ++ " \x7d"
  shape.embeds.foldl (fun body embed => body ++ " & " ++ merged embed) body

/-- Arguments or parameters between angle brackets, nothing when there are none. -/
def bracketed (items : List Text) : Text :=
  if items.isEmpty then .empty else "<" ++ Text.join ", " items ++ ">"

/-- The texts that differ, in the order of their first appearance, with bars between them. -/
def alternatives (types : List Text) : Text :=
  Text.join " | " (types.foldl (fun kept t => if t ∈ kept then kept else kept ++ [t]) [])

end DeclBridge.TypeText
