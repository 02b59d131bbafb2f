import DeclBridge.Source.Escape

/-!
# Field tags

A conventional tag is a sequence of pairs, each a key, a colon and a value between double quotes,
with spaces between the pairs.  `Tag.pairs` gives those before the first place where the tag departs
from that form, and a look-up takes the first pair with its key.

The `json` value of a field is a name followed by options.  `Tag.outputName` is the name under which
a field appears and whether it may be absent; no name at all means that the field's own properties
take its place.
-/

namespace DeclBridge.Tag

/-- A pair of a tag; the value is still quoted. -/
structure Pair where
  key : String
  quoted : String
deriving DecidableEq, Repr

def isKeyChar (c : Char) : Bool :=
  decide (' ' < c) && c != ':' && c != '"' && c != '\x7f'

/-- Splits a text after the quote that closes it; a backslash takes the next character with it. -/
def closeQuote : List Char → Option (List Char × List Char)
  | [] => none
  | ['\\'] => none
  | '\\' :: c :: rest => (closeQuote rest).map fun (value, rest) => ('\\' :: c :: value, rest)
  | c :: rest =>
    if c = '"' then some (['"'], rest)
    else (closeQuote rest).map fun (value, rest) => (c :: value, rest)

def firstPair (tag : List Char) : Option (Pair × List Char) :=
  let tag := tag.dropWhile (· = ' ')
  let key := tag.takeWhile isKeyChar
  match key, tag.drop key.length with
  | _ :: _, ':' :: '"' :: rest =>
    (closeQuote rest).map fun (value, rest) =>
      (⟨String.ofList key, String.ofList ('"' :: value)⟩, rest)
  | _, _ => none

def pairsWithin : (count : Nat) → List Char → List Pair
  | 0, _ => []
  | count + 1, tag =>
    match firstPair tag with
    | some (pair, rest) => pair :: pairsWithin count rest
    | none => []

/-- The pairs of a tag up to the first place where it is not conventional. -/
def pairs (tag : String) : List Pair :=
  pairsWithin tag.length tag.toList

/-- The value of a key.  There is none when the key is missing, or when its value is not quoted as
it should be. -/
def lookup (tag key : String) : Except Fault (Option String) :=
  match (pairs tag).find? (·.key = key) with
  | none => .ok none
  | some pair =>
    match unquote pair.quoted with
    | .ok value => .ok (some value)
    | .error (.invalid _) => .ok none
    | .error (.fault why) => .error why

/-! ## The `json` value -/

/-- The `json` value of a tag: a name and options. -/
structure JsonValue where
  raw : String
  name : String
  options : List String
deriving DecidableEq, Repr

def JsonValue.ofString (raw : String) : JsonValue :=
  match (raw.toList.splitOn ',').map String.ofList with
  | [] => ⟨raw, "", []⟩
  | name :: options => ⟨raw, name, options⟩

def json (tag : String) : Except Fault (Option JsonValue) := do
  return (← lookup tag "json").map JsonValue.ofString

/-- How a field appears in the output. -/
structure OutputName where
  /-- The property's name; empty for a field whose properties take its place. -/
  name : String
  optional : Bool
deriving DecidableEq, Repr

def plainDash (name : String) : String :=
  if name = "'-'" then "-" else name

/-- How a field appears that is declared with a given name, empty for an embedded one.  Nothing
means that it does not appear. -/
def outputName (declared tag : String) : Except Fault (Option OutputName) := do
  match ← json tag with
  | none => return some ⟨plainDash declared, false⟩
  | some value =>
    if value.raw = "-" then return none
    else
      let name :=
        if "inline" ∈ value.options then "" else if value.name = "" then declared else value.name
      let optional := name ≠ "" ∧ ("omitempty" ∈ value.options ∨ "omitzero" ∈ value.options)
      return some ⟨plainDash name, optional⟩

end DeclBridge.Tag
