import DeclBridge.Source.Reader.TypeExpr

/-!
# Reading source files

A file is a package clause, then imports, then declarations of constants and types; every one ends
in a semicolon.  The bracket after the name of a declared type may hold type parameters or an
array's length.  Where it can be read as type parameters it is: `type T [P *C] X` declares a generic
type.
-/

namespace DeclBridge.Reader

def importLine : Reader ImportLine := do
  let pos ← position
  let localName ← takeIf fun t => if t.kind = .name ∨ t.kind = .mark .dot then some t.text else none
  let path ← stringLiteral
  return ⟨pos, localName, path⟩

def constLine : Reader ConstLine := do
  let pos ← position
  let names ← separated name
  if ← nextSatisfies fun k => beginsType k || k = .mark .lpar then
    let type ← typeExpr
    mark .equal
    let values ← separated expr
    return ⟨pos, names, some (some type, values)⟩
  else if ← skipIf (.mark .equal) then
    let values ← separated expr
    return ⟨pos, names, some (none, values)⟩
  else return ⟨pos, names, none⟩

/-- Type parameters that share a constraint. -/
def typeParamDecl : Reader TypeParamDecl := do
  let names ← separated name
  let constraint ← constraint typeExpr
  return ⟨names, constraint⟩

/-- What is declared: an alias after an equals sign, a type of its own otherwise. -/
def typeBody (pos : Position) (name : String) (params : List TypeParamDecl) : Reader TypeSpec := do
  let isAlias ← skipIf (.mark .equal)
  let type ← typeExpr
  return ⟨pos, name, params, type, isAlias⟩

def typeSpec : Reader TypeSpec := do
  let pos ← position
  let n ← name
  either (do
    mark .lsqb
    let params ← closed typeParamDecl .rsqb
    typeBody pos n params)
    (typeBody pos n [])

def importDecl : Reader Declaration := do
  keyword .imports
  let lines ← group importLine
  let _ ← token .semicolon
  return .imports lines

/-- A constant or type declaration with its semicolon. -/
def declaration : Reader Declaration := do
  if ← skipIf (.keyword .const) then
    let lines ← group constLine
    let _ ← token .semicolon
    return .consts lines
  else
    keyword .type
    let specs ← group typeSpec
    let _ ← token .semicolon
    return .types specs

/-- Import declarations as long as they last, at most `count`. -/
def importDecls : (count : Nat) → Reader (List Declaration)
  | 0 => return []
  | count + 1 => do
    if ← nextIs (.keyword .imports) then
      let d ← importDecl
      let ds ← importDecls count
      return d :: ds
    else return []

/-- Declarations up to the end of the tokens, at most `count`. -/
def declarations : (count : Nat) → Reader (List Declaration)
  | 0 => return []
  | count + 1 => do
    match ← nextKind with
    | none => return []
    | some _ =>
      let d ← declaration
      let ds ← declarations count
      return d :: ds

def file : Reader FileText := do
  keyword .package
  let package ← name
  let _ ← token .semicolon
  let imports ← fun ts => importDecls ts.length ts
  let others ← fun ts => declarations ts.length ts
  return ⟨package, imports ++ others⟩

end DeclBridge.Reader

namespace DeclBridge

def SourceFile.parse (source : String) (path : Option String) : Except ReadError SourceFile := do
  let text ← (Reader.file.complete (.ofFile source)).mapError .text
  (text.declared path).mapError Refusal.readError

end DeclBridge
