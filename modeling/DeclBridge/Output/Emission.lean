import DeclBridge.Log
import DeclBridge.Output.Module
import DeclBridge.Output.Plan
import DeclBridge.Output.TermSet
import DeclBridge.Output.TypeText

/-!
# Types in the output

An `Emission` is what a run has made so far, and `Emitting` the computations that add to it.

## Shape of the recursion

`typeText` recurses on a type.  It leaves two things to its arguments: `refer`, for references to
declared types, which may define them on the way, and `expand`, for the terms of an interface, which
may come from other declarations.  Terms that contain each other in a circle have no finite text, so
`expandedText` has a limit.  Every type it comes to is a part of a declared one, so a way through
more types than a program has parts has met one of them twice, and goes on for ever.
-/

namespace DeclBridge

/-- A reference to a declared type from the definition of a symbol. -/
structure Reference where
  module : String
  definition : String
  path : String
  name : String
  /-- The type's name as it is written in the definition. -/
  text : Text
deriving Repr

/-- What a run has made so far. -/
structure Emission where
  graph : ModuleGraph := {}
  diagnostics : List Diagnostic := []
  log : List LogLine := []
  /-- The references that definitions made, in the order in which they were completed. -/
  references : List Reference := []
deriving Repr

/-- Computations that make definitions. -/
abbrev Emitting := ExceptT Fault (StateM Emission)

namespace Emitting

/-- A result that makes nothing. -/
def lift {α : Type} (r : Except Fault α) : Emitting α := ExceptT.mk (pure r)

def modifyGraph (f : ModuleGraph → ModuleGraph) : Emitting Unit :=
  modify fun e => { e with graph := f e.graph }

/-- Adds a warning to the log and to the diagnostics. -/
def warn (line : String) (code message : String) (span : Span) : Emitting Unit :=
  modify fun e => { e with
    log := e.log ++ [.warning line]
    diagnostics := e.diagnostics ++
      [{ message, code := some code, phase := some "transpile", severity := "warning", span }] }

def noteReference (r : Reference) : Emitting Unit :=
  modify fun e => { e with references := e.references ++ [r] }

def isTaken (module name : String) : Emitting Bool := do
  return ((← get).graph.modules.get? module).any (·.has name)

def setDefinition (module name : String) (text : Text) : Emitting Unit := do
  match (← get).graph.modules.get? module with
  | none => return
  | some m =>
    let m ← lift (m.define name text)
    modifyGraph (·.modify module fun _ => m)

/-! ## Types -/

section Types

variable (plan : Plan) (refer : (path name : String) → Emitting Text)
  (expand : Ty → Emitting Text)

/-- The text of an object type: its properties are made before what is merged in. -/
def objectText (shape : StructShape (Emitting Text)) : Emitting Text := do
  let properties ← shape.properties.mapM fun p => do
    return (⟨p.name, p.optional, ← p.type⟩ : Property Text)
  let embeds ← shape.embeds.mapM id
  return TypeText.object ⟨properties, embeds⟩

/-- The texts of alternatives with bars between them. -/
def alternativesText (types : List Text) : Text :=
  if types.isEmpty then plan.options.fallback else TypeText.alternatives types

/-- The text of a reference to a declared type, and then of its arguments. -/
def referenceText (id : SymbolId) (args : Emitting (List Text)) : Emitting Text := do
  match id.package with
  | none => return plan.predeclaredText id.name
  | some path =>
    let name ← refer path id.name
    return name ++ TypeText.bracketed (← args)

mutual

def typeText : Ty → Emitting Text
  | .basic kind => return plan.basicText kind
  | .pointer elem => do return TypeText.nullable (← typeText elem)
  | .array elem _ => do return TypeText.arrayOf (← typeText elem)
  | .slice elem => do return TypeText.arrayOf (← typeText elem)
  | .map _ elem => do return TypeText.recordOf (← typeText elem)
  | .struct fields => do
    let shape ← lift (StructShape.ofFields plan.program.typeInfo plan.options.includeUnexported
      (fieldTexts fields))
    objectText shape
  | .named id args => referenceText plan refer id (typeTexts args)
  | .aliased id args => referenceText plan refer id (typeTexts args)
  | .interface embeds methods => do
    let terms := (plan.program.termSet (.interface embeds methods)).getD []
    return alternativesText plan (← terms.mapM expand)
  | .union terms => do return alternativesText plan (← termTexts terms)
  | .param name _ => return name
  | .chan _ _ => return plan.options.fallback ++ " /* chan */"
  | .func _ _ _ => return plan.options.fallback ++ " /* func */"
termination_by structural t => t

def typeTexts : List Ty → Emitting (List Text)
  | [] => return []
  | t :: ts => do
    let text ← typeText t
    return text :: (← typeTexts ts)
termination_by structural ts => ts

/-- The fields of a struct, each with the text of its type still to be made. -/
def fieldTexts : List (Field Ty) → List (Field Ty × Emitting Text)
  | [] => []
  | f :: fs => fieldText f :: fieldTexts fs
termination_by structural fs => fs

def fieldText : Field Ty → Field Ty × Emitting Text
  | ⟨name, type, tag, embedded, exported, span⟩ =>
    (⟨name, type, tag, embedded, exported, span⟩, typeText type)
termination_by structural f => f

def termTexts : List (Term Ty) → Emitting (List Text)
  | [] => return []
  | t :: ts => do
    let text ← termText t
    return text :: (← termTexts ts)
termination_by structural ts => ts

def termText : Term Ty → Emitting Text
  | ⟨_, type⟩ => typeText type
termination_by structural t => t

end

end Types

/-- The text of a type whose interfaces are expanded to a depth of at most `count`. -/
def expandedText (plan : Plan) (refer : (path name : String) → Emitting Text) :
    (count : Nat) → Ty → Emitting Text
  | 0, _ => throw .endlessType
  | count + 1, t => typeText plan refer (expandedText plan refer count) t

end Emitting

end DeclBridge
