import DeclBridge.Config.Json
import DeclBridge.Text.Quoted

/-!
# The configuration to start from

The text of a configuration file with every field, as it is written for a new project: each member
and element on a line of its own, indented by two spaces for each level.
-/

namespace DeclBridge

namespace Json

/-- A line break with the indentation of a level. -/
def newLine (level : Nat) : Text :=
  Text.ofString ("\n" ++ String.ofList (List.replicate (2 * level) ' '))

def block (opening closing : String) (level : Nat) (items : List Text) : Text :=
  if items.isEmpty then Text.ofString (opening ++ closing)
  else
    opening ++ newLine (level + 1) ++ Text.join ("," ++ newLine (level + 1)) items ++
      newLine level ++ closing

mutual

/-- A value as text, where `level` is the depth at which it stands. -/
def indented (level : Nat) : Json → Text
  | null => "null"
  | bool b => if b then "true" else "false"
  | int n => Text.ofString (toString n)
  | real spelling => spelling
  | str text => text.jsonQuoted
  | arr elements => block "[" "]" level (indentedElements (level + 1) elements)
  | obj members => block "\x7b" "\x7d" level (indentedMembers (level + 1) members)
termination_by structural j => j

def indentedElements (level : Nat) : List Json → List Text
  | [] => []
  | j :: rest => indented level j :: indentedElements level rest
termination_by structural js => js

def indentedMembers (level : Nat) : List (Text × Json) → List Text
  | [] => []
  | m :: rest => indentedMember level m :: indentedMembers level rest
termination_by structural ms => ms

def indentedMember (level : Nat) : Text × Json → Text
  | (name, value) => name.jsonQuoted ++ ": " ++ indented level value
termination_by structural m => m

end

end Json

def defaultConfig : Json := .obj [
  ("include_unexported", .bool false),
  ("output_path", .str "ts"),
  ("fallback_type", .str "any"),
  ("jobs", .int 0),
  ("search_paths", .arr []),
  ("type_mappings", .obj [("time.Time", .str "string")]),
  ("primary_package", .obj [
    ("path", .str "."), ("names", .arr []), ("type_mappings", .obj [])]),
  ("secondary_packages", .arr [])]

def defaultConfigText : String :=
  (defaultConfig.indented 0).shown ++ "\n"

end DeclBridge
