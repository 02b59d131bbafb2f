import DeclBridge.Output.Emission
import DeclBridge.Output.Literal

/-!
# Definitions of the output

The text that defines one symbol in its module: a constant with its literal, an interface for a
struct, a type for everything else.  The text of the types inside is made by the argument `render`.
-/

namespace DeclBridge.Emitting

variable (plan : Plan) (render : Ty → Emitting Text)

def presentText (type : Option Ty) : Emitting Text :=
  match type with
  | some t => render t
  | none => throw .missingType

def paramsText (params : List TypeParam) : Emitting Text := do
  let items ← params.mapM fun p => do
    let constraint : Text ← match p.constraint with
      | some t => render t
      | none => pure plan.options.fallback
    return (p.name ++ " extends " ++ constraint : Text)
  return TypeText.bracketed items

/-- The definition of a constant, unless its value has no literal. -/
def constText (symbol : Symbol) (value : Constant) (type : Option Ty) :
    Emitting (Option Text) := do
  match ← lift value.literal? with
  | none =>
    let cited ← lift value.cited
    let name := symbol.id.qualified
    warn (name ++ ": constant value " ++ cited ++ " has no TypeScript literal; dropped")
      "unsupported-literal"
      ("constant " ++ name ++ " dropped: unsupported value " ++ cited) symbol.span
    return none
  | some literal =>
    match type with
    | some (.named id args) =>
      let typeName ← render (.named id args)
      return some ("export const " ++ symbol.name ++ ": " ++ typeName ++ " = " ++ literal)
    | _ => return some ("export const " ++ symbol.name ++ " = " ++ literal)

/-- The definition of a struct: an interface, unless types are merged into it. -/
def structText (head : Text) (fields : List (Field Ty)) : Emitting Text := do
  let shape ← lift (StructShape.ofFields plan.program.typeInfo plan.options.includeUnexported
    (fields.map fun f => (f, render f.type)))
  let body ← objectText shape
  return if shape.embeds.isEmpty then "export interface " ++ head ++ " " ++ body
    else "export type " ++ head ++ " = " ++ body

def typeDefinition (symbol : Symbol) (info : TypeInfo) : Emitting Text := do
  let params ← paramsText plan render info.params
  let head := symbol.name ++ params
  match plan.override? (plan.overrideName symbol.id) with
  | some text => return "export type " ++ head ++ " = " ++ text
  | none =>
    if info.isAlias then return "export type " ++ head ++ " = " ++ (← presentText render info.rhs)
    else
      match info.underlying with
      | some (.struct fields) => structText plan render head fields
      | type => return "export type " ++ head ++ " = " ++ (← presentText render type)

/-- The definition of a symbol, unless it has none. -/
def symbolText (symbol : Symbol) : Emitting (Option Text) := do
  match symbol.body with
  | .const (some value) type => constText render symbol value type
  | .const none _ => return none
  | .type info => return some (← typeDefinition plan render symbol info)

end DeclBridge.Emitting
