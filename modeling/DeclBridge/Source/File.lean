import DeclBridge.Source.Token
import DeclBridge.Source.TypeExpr

/-!
# Source files

A file as it is written is a `FileText`: groups of imports, constants and types.  A `SourceFile` is
what it declares.  Between the two, literals are read and each group of constants is spelled out: a
line without values repeats the type and the values of the line before it, and every line knows its
number within the group, which is what `iota` stands for.
-/

namespace DeclBridge

/-- A line of an import declaration as it is written. -/
structure ImportLine where
  pos : Position
  localName : Option String
  path : Literal
deriving DecidableEq, Repr

/-- A line of a constant declaration as it is written. -/
structure ConstLine where
  pos : Position
  names : List String
  /-- The type, if any, and the values; nothing when the line before is repeated. -/
  given : Option (Option TypeExpr × List Expr)
deriving Repr

/-- The type parameters that share a constraint. -/
structure TypeParamDecl where
  names : List String
  constraint : TypeExpr
deriving Repr

structure TypeSpec where
  pos : Position
  name : String
  params : List TypeParamDecl
  type : TypeExpr
  isAlias : Bool
deriving Repr

/-- A declaration as it is written, with all its lines. -/
inductive Declaration where
  | imports (lines : List ImportLine)
  | consts (lines : List ConstLine)
  | types (specs : List TypeSpec)
deriving Repr

structure FileText where
  package : String
  declarations : List Declaration
deriving Repr

structure ImportSpec where
  pos : Position
  path : String
  localName : Option String
deriving DecidableEq, Repr

/-- A line of a constant declaration, spelled out. -/
structure ConstSpec where
  pos : Position
  names : List String
  type : Option TypeExpr
  values : List Expr
  /-- The line's number within its group. -/
  iota : Nat
deriving Repr

/-- What a file declares. -/
structure SourceFile where
  package : String
  imports : List ImportSpec
  consts : List ConstSpec
  types : List TypeSpec
  path : Option String
deriving Repr

/-! ## From lines to declarations -/

def ImportLine.spec (line : ImportLine) : Except Refusal ImportSpec := do
  let path ← line.path.stringValue
  return ⟨line.pos, path, line.localName⟩

/-- Refuses the type and values of a line when they have no meaning. -/
def checkGiven (given : Option TypeExpr × List Expr) : Except Refusal Unit := do
  match given.1 with
  | some t => t.check
  | none => .ok ()
  given.2.forM Expr.check

def ConstLine.resolved (line : ConstLine) (before : Option (Option TypeExpr × List Expr)) :
    Except Refusal (Option TypeExpr × List Expr) :=
  match line.given, before with
  | some given, _ => do
    checkGiven given
    return given
  | none, some given => .ok given
  | none, none => .error (.invalid (.missingValue (line.names.headD "") line.pos))

/-- Spells out the lines of a group from the line with number `iota` on, after a line with the type
and values `before`. -/
def ConstLine.expandFrom (iota : Nat) (before : Option (Option TypeExpr × List Expr)) :
    List ConstLine → Except Refusal (List ConstSpec)
  | [] => .ok []
  | line :: rest => do
    let given ← line.resolved before
    if given.2.length ≠ line.names.length then
      .error (.invalid (.countMismatch line.names given.2.length line.pos))
    let specs ← ConstLine.expandFrom (iota + 1) (some given) rest
    return ⟨line.pos, line.names, given.1, given.2, iota⟩ :: specs

/-- Refuses a type declaration that has no meaning. -/
def TypeSpec.check (spec : TypeSpec) : Except Refusal Unit := do
  spec.params.forM fun p => p.constraint.check
  spec.type.check

def SourceFile.add (file : SourceFile) : Declaration → Except Refusal SourceFile
  | .imports lines => do
    let specs ← lines.mapM ImportLine.spec
    return { file with imports := file.imports ++ specs }
  | .consts lines => do
    let specs ← ConstLine.expandFrom 0 none lines
    return { file with consts := file.consts ++ specs }
  | .types specs => do
    specs.forM TypeSpec.check
    return { file with types := file.types ++ specs }

/-- What a file declares, unless one of its declarations is refused. -/
def FileText.declared (text : FileText) (path : Option String) : Except Refusal SourceFile :=
  text.declarations.foldlM SourceFile.add ⟨text.package, [], [], [], path⟩

inductive ReadError where
  | text (error : SyntaxError)
  | invalid (why : Invalid)
  | fault (why : Fault)
deriving DecidableEq, Repr

/-- A refusal as a reason not to read a text. -/
def Refusal.readError : Refusal → ReadError
  | .invalid why => .invalid why
  | .fault why => .fault why

end DeclBridge
