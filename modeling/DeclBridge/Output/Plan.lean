import DeclBridge.Output.NameTable

/-!
# What a run of the output works with

A `Plan` is fixed before anything is written: the program, the names of the modules, and the
options.  Basic and predeclared types have a text that depends on the plan alone.
-/

namespace DeclBridge

/-- A requested package; of one with names, only those symbols. -/
structure Selection where
  path : String
  names : List String := []
deriving Repr

def Selection.includes (s : Selection) (includeUnexported : Bool) (symbol : Symbol) : Bool :=
  if s.names.isEmpty then symbol.exported || includeUnexported else symbol.name ∈ s.names

structure Options where
  /-- Texts that replace types: basic ones and those of the primary package by their name, others by
  their path and name. -/
  overrides : Table Text Text := {}
  includeUnexported : Bool := false
  /-- The type that stands for what has no type in the output. -/
  fallback : Text := "any"

structure Plan where
  program : Program
  primary : String
  names : NameTable
  options : Options

namespace Plan

variable (plan : Plan)

def override? (name : String) : Option Text := plan.options.overrides.get? name

/-- The name under which a symbol is replaced. -/
def overrideName (id : SymbolId) : String :=
  if id.package = some plan.primary then id.name else id.qualified

def basicText (kind : Kind) : Text :=
  match plan.override? kind.spelling with
  | some text => text
  | none =>
    if kind = .bool ∨ kind = .untypedBool then "boolean"
    else if kind = .string ∨ kind = .untypedString then "string"
    else if kind.isInteger || kind.isFloat then ↑("number /* " ++ kind.spelling ++ " */")
    else plan.options.fallback ++ " /* " ++ kind.spelling ++ " */"

def predeclaredText (name : String) : Text :=
  match plan.override? name with
  | some text => text
  | none =>
    match name with
    | "comparable" => "string | number /* comparable */"
    | "error" => plan.options.fallback ++ " /* error */"
    | _ => name

end Plan

end DeclBridge
