import DeclBridge.Config.Json
import DeclBridge.Text.Quoted
import DeclBridge.Types.Kind
import DeclBridge.Workspace.PathName

/-!
# Settings

What a configuration file says: the packages to write, where to, and how.  A file with a field that
nobody knows is refused, so that a misspelled field does not go unnoticed.  Of several mistakes the
first in the order of the checks counts; that order is the one in which the fields stand in
`Settings.ofJson`.
-/

namespace DeclBridge

structure PackageSettings where
  path : Text
  /-- The symbols that are asked for; all when there are none. -/
  names : List Text := []
  overrides : Table Text Text := {}

structure Settings where
  outputPath : Text
  primary : PackageSettings
  secondaries : List PackageSettings := []
  includeUnexported : Bool := false
  fallback : Text := "any"
  /-- How many modules may be rendered at once; zero means any number. -/
  jobs : Int := 0
  searchPaths : List Text := []
  overrides : Table Text Text := {}

inductive SettingsPart where
  | whole
  | primary
  | secondary (index : Nat)
deriving DecidableEq, Repr

inductive SettingsMistake where
  | notAnObject
  | unknownFields (names : List Text)
  | required (field : String)
  | expected (field form : String)
  /-- A type that is not replaced by a text, or without a name. -/
  | override (name : Text)
deriving DecidableEq, Repr

structure SettingsError where
  part : SettingsPart
  mistake : SettingsMistake
deriving DecidableEq, Repr

/-- A part of the configuration that is called `label`. -/
def SettingsPart.text (label : String) : SettingsPart → String
  | whole => label
  | primary => label ++ ": primary_package"
  | secondary index => label ++ ": secondary_packages[" ++ toString index ++ "]"

/-- What is said of a mistake in the configuration that is called `label`. -/
def SettingsError.message (label : String) (e : SettingsError) : String :=
  let part := e.part.text label
  let names (ns : List Text) := ", ".intercalate (ns.map Text.shown)
  match e.part, e.mistake with
  | .whole, .notAnObject => part ++ ": config must be a JSON object"
  | _, .notAnObject => part ++ " must be an object"
  | .whole, .unknownFields ns => part ++ ": unknown fields: " ++ names ns
  | _, .unknownFields ns => part ++ " has unknown fields: " ++ names ns
  | _, .required field => part ++ ": '" ++ field ++ "' is required"
  | _, .expected field form => part ++ ": '" ++ field ++ "' must be " ++ form
  | _, .override name =>
    part ++ ": 'type_mappings': entry " ++ name.quoted ++ " must map to a string"

namespace Settings

def fields : List String := [
  "$schema", "include_unexported", "output_path", "fallback_type", "jobs", "search_paths",
  "type_mappings", "primary_package", "secondary_packages"]

def packageFields : List String := ["path", "names", "type_mappings"]

def checkFields (part : SettingsPart) (known : List String) (members : List (Text × Json)) :
    Except SettingsError Unit :=
  let unknown := (members.map (·.1)).filter fun name => !known.any (Text.ofString · = name)
  if unknown.isEmpty then .ok ()
  else .error ⟨part, .unknownFields (unknown.mergeSort fun a b => compare a b != .gt)⟩

/-- A field that is a text with at least one character; `default` is for a missing one. -/
def textField (part : SettingsPart) (j : Json) (field : String) (default : Option Text) :
    Except SettingsError Text :=
  match j.get? field, default with
  | none, some text => .ok text
  | some (.str text), _ =>
    if text.isEmpty then .error ⟨part, .expected field "a non-empty string"⟩ else .ok text
  | _, _ => .error ⟨part, .expected field "a non-empty string"⟩

def nonEmptyText? : Json → Option Text
  | .str text => if text.isEmpty then none else some text
  | _ => none

def textsField (part : SettingsPart) (j : Json) (field : String) :
    Except SettingsError (List Text) :=
  let mistake : SettingsError := ⟨part, .expected field "an array of non-empty strings"⟩
  match j.get? field with
  | none => .ok []
  | some (.arr elements) =>
    match elements.mapM nonEmptyText? with
    | some texts => .ok texts
    | none => .error mistake
  | some _ => .error mistake

/-- The types that are replaced by texts. -/
def overridesField (part : SettingsPart) (j : Json) : Except SettingsError (Table Text Text) :=
  match j.get? "type_mappings" with
  | none => .ok {}
  | some (.obj members) =>
    members.foldlM (fun table (name, value) =>
      match value with
      | .str text =>
        if name.isEmpty then .error ⟨part, .override name⟩ else .ok (table.insert name text)
      | _ => .error ⟨part, .override name⟩) {}
  | some _ => .error ⟨part, .expected "type_mappings" "an object"⟩

def package (part : SettingsPart) (j : Json) : Except SettingsError PackageSettings :=
  match j with
  | .obj members => do
    checkFields part packageFields members
    let path ← textField part j "path" none
    let names ← textsField part j "names"
    let overrides ← overridesField part j
    return { path, names, overrides }
  | _ => .error ⟨part, .notAnObject⟩

def packagesFrom (index : Nat) : List Json → Except SettingsError (List PackageSettings)
  | [] => .ok []
  | j :: rest => do
    let first ← package (.secondary index) j
    return first :: (← packagesFrom (index + 1) rest)

/-- The packages that are written beside the primary one. -/
def secondariesField (j : Json) : Except SettingsError (List PackageSettings) :=
  match j.get? "secondary_packages" with
  | none => .ok []
  | some (.arr elements) => packagesFrom 0 elements
  | some _ => .error ⟨.whole, .expected "secondary_packages" "an array"⟩

def unexportedField (j : Json) : Except SettingsError Bool :=
  match j.get? "include_unexported" with
  | none => .ok false
  | some (.bool b) => .ok b
  | some _ => .error ⟨.whole, .expected "include_unexported" "a boolean"⟩

def jobsField (j : Json) : Except SettingsError Int :=
  let mistake : SettingsError := ⟨.whole, .expected "jobs" "an integer >= 0"⟩
  match j.get? "jobs" with
  | none => .ok 0
  | some (.int n) => if n < 0 then .error mistake else .ok n
  | some _ => .error mistake

def ofJson (j : Json) : Except SettingsError Settings :=
  match j with
  | .obj members => do
    checkFields .whole fields members
    let outputPath ← textField .whole j "output_path" none
    let primary ← match j.get? "primary_package" with
      | some p => package .primary p
      | none => .error ⟨.whole, .required "primary_package"⟩
    let secondaries ← secondariesField j
    let includeUnexported ← unexportedField j
    let fallback ← textField .whole j "fallback_type" (some "any")
    let jobs ← jobsField j
    let searchPaths ← textsField .whole j "search_paths"
    let overrides ← overridesField .whole j
    return { outputPath, primary, secondaries, includeUnexported, fallback, jobs, searchPaths,
             overrides }
  | _ => .error ⟨.whole, .notAnObject⟩

/-! ## All replaced types -/

/-- Whether a name in the settings of a secondary package is one of its own symbols: it has no
package of its own and is no basic type. -/
def isOwnName (name : Text) : Bool :=
  !name.contains "." && !(name.toString?.bind Kind.ofTypeName?).isSome

/-- Lays the replaced types of a secondary package over those before. -/
def addOverrides (table : Table Text Text) (path : Text) (p : PackageSettings) : Table Text Text :=
  p.overrides.entries.foldl (fun table (name, text) =>
    table.insert (if isOwnName name then path ++ "." ++ name else name) text) table

/-- All replaced types: the general ones, those of the primary package, and those of the others,
each laid over the ones before.  `importPath` gives the import path of a package. -/
def allOverrides {ε : Type} (s : Settings) (importPath : Text → Except ε Text) :
    Except ε (Table Text Text) :=
  s.secondaries.foldlM (fun table p => do return addOverrides table (← importPath p.path) p)
    (s.overrides.union s.primary.overrides)

end Settings

end DeclBridge
