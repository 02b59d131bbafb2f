import DeclBridge.Output.Tag
import DeclBridge.Program.Program

/-!
# The shape of a struct

What a struct shows of itself in the output: properties, each with a name and a mark when it may be
absent, and embedded types whose properties are merged in.  A field is embedded when it is declared
without a name and its type is a struct, a pointer to one, or unknown; a tag can also ask for it.
-/

namespace DeclBridge

/-- A property of a struct with a type of the form `β`. -/
structure Property (β : Type) where
  name : String
  optional : Bool
  type : β
deriving Repr

/-- The properties of a struct and what is merged into it. -/
structure StructShape (β : Type) where
  properties : List (Property β) := []
  embeds : List β := []
deriving Repr

namespace StructShape

/-- Whether a type is a struct, by what is known of declared types.  A type of which nothing is
known counts as one. -/
def isStruct (info : SymbolId → TypeInfo) : Ty → Bool
  | .struct _ => true
  | .named id _ | .aliased id _ =>
    id.package.isSome &&
      ((info id).isStub ||
        match (info id).underlying with
        | some (.struct _) => true
        | _ => false)
  | _ => false

/-- Whether the properties of a type can be merged in: a struct or a pointer to one. -/
def isStructLike (info : SymbolId → TypeInfo) : Ty → Bool
  | .pointer elem => isStruct info elem
  | t => isStruct info t

/-- The name that a field is declared with in the output, empty for an embedded one.  Nothing means
that it is left out. -/
def declaredName (info : SymbolId → TypeInfo) (includeUnexported : Bool) (f : Field Ty) :
    Option String :=
  if f.embedded && isStructLike info f.type then some ""
  else if includeUnexported || f.exported then some f.name
  else none

def appearance (info : SymbolId → TypeInfo) (includeUnexported : Bool) (f : Field Ty) :
    Except Fault (Option Tag.OutputName) :=
  match declaredName info includeUnexported f with
  | some declared => Tag.outputName declared f.tag
  | none => .ok none

def add {β : Type} (shape : StructShape β) (appearing : Option Tag.OutputName) (type : β) :
    StructShape β :=
  match appearing with
  | none => shape
  | some ⟨name, optional⟩ =>
    if name = "" then { shape with embeds := shape.embeds ++ [type] }
    else { shape with properties := shape.properties ++ [⟨name, optional, type⟩] }

def addField {β : Type} (info : SymbolId → TypeInfo) (includeUnexported : Bool)
    (shape : StructShape β) (field : Field Ty × β) : Except Fault (StructShape β) :=
  (appearance info includeUnexported field.1).map (shape.add · field.2)

/-- The shape of a struct, where each field comes with what its type has become. -/
def ofFields {β : Type} (info : SymbolId → TypeInfo) (includeUnexported : Bool)
    (fields : List (Field Ty × β)) : Except Fault (StructShape β) :=
  fields.foldlM (addField info includeUnexported) {}

def ofStruct (info : SymbolId → TypeInfo) (includeUnexported : Bool) (fields : List (Field Ty)) :
    Except Fault (StructShape Ty) :=
  ofFields info includeUnexported (fields.map fun f => (f, f.type))

end StructShape

end DeclBridge
