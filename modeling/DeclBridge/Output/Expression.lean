import DeclBridge.Output.TypeText
import DeclBridge.Source.Reader.TypeExpr

/-!
# Single type expressions

The output form of one type expression, by its spelling alone: names are copied as they are written
and nothing is resolved.  Functions, channels and unions have no form of their own.
-/

namespace DeclBridge

inductive ExpressionError where
  | unreadable (source reason : String)
  | function
  | channel
  | union
  | fault (why : Fault)
deriving DecidableEq, Repr

def ExpressionError.message : ExpressionError → String
  | unreadable source reason =>
    "invalid type expression " ++ quotedString source ++ ": " ++ reason
  | function => "func types have no TypeScript form"
  | channel => "chan types have no TypeScript form"
  | union => "constraint unions are only valid in interfaces"
  | fault _ => ""

namespace TypeExpr

open TypeText

def writtenName (package : Option String) (name : String) : Text :=
  match package with
  | some p => p ++ "." ++ name
  | none => name

/-- Adds the fields of a line of a struct that are declared with the given names. -/
def addNames (tag : String) (type : Text) (shape : StructShape Text) (names : List String) :
    Except ExpressionError (StructShape Text) :=
  names.foldlM (fun shape declared => do
    return shape.add (← (Tag.outputName declared tag).mapError .fault) type) shape

def tagOf (tag : Option Literal) : Except ExpressionError String :=
  match tag with
  | none => .ok ""
  | some l =>
    match l.stringValue with
    | .ok s => .ok s
    | .error (.fault why) => .error (.fault why)
    | .error (.invalid _) => .ok ""

mutual

/-- The output form of a type expression, where `fallback` stands for interfaces. -/
def outputText (fallback : Text) : TypeExpr → Except ExpressionError Text
  | ref _ package name args => do
    return writtenName package name ++ bracketed (← outputTexts fallback args)
  | pointer _ elem => do return nullable (← elem.outputText fallback)
  | array _ _ elem => do return arrayOf (← elem.outputText fallback)
  | slice _ elem => do return arrayOf (← elem.outputText fallback)
  | map _ _ elem => do return recordOf (← elem.outputText fallback)
  | struct _ fields => do return object (← outputFields fallback {} fields)
  | interface .. => .ok fallback
  | func .. => .error .function
  | chan .. => .error .channel
  | union .. => .error .union
termination_by structural t => t

def outputTexts (fallback : Text) : List TypeExpr → Except ExpressionError (List Text)
  | [] => .ok []
  | t :: ts => do
    let text ← t.outputText fallback
    return text :: (← outputTexts fallback ts)
termination_by structural ts => ts

def outputFields (fallback : Text) (shape : StructShape Text) :
    List (FieldDecl TypeExpr) → Except ExpressionError (StructShape Text)
  | [] => .ok shape
  | f :: fs => do
    let shape ← outputField fallback shape f
    outputFields fallback shape fs
termination_by structural fs => fs

def outputField (fallback : Text) (shape : StructShape Text) :
    FieldDecl TypeExpr → Except ExpressionError (StructShape Text)
  | .named _ names t tag => do
    let type ← t.outputText fallback
    addNames (← tagOf tag) type shape (names.filter isExported)
  | .embedded _ star n tag => do
    let name := writtenName n.package n.name
    addNames (← tagOf tag) (if star then nullable name else name) shape [""]
termination_by structural f => f

end

def output (source : String) (fallback : Text) : Except ExpressionError Text := do
  match TypeExpr.parse source with
  | .ok t => t.outputText fallback
  | .error (.text e) => .error (.unreadable source e.message)
  | .error (.invalid why) => .error (.unreadable source why.message)
  | .error (.fault why) => .error (.fault why)

end TypeExpr

end DeclBridge
