import DeclBridge.Program.Program
import DeclBridge.Resolution.Problem
import DeclBridge.Source.File

/-!
# Outlines of packages

The outline of a package is what its files declare before anything is resolved: the names in the
order of their declaration, and for each name the lines it was declared by, with the file's imports.

A name that is declared twice is a problem.  It keeps its first place, and what kind of symbol it
is, and is resolved by the last lines of that kind.
-/

namespace DeclBridge

/-- A file as names in it see it. -/
structure Scope where
  file : Option String
  /-- The import path for each name that a package is known by in the file. -/
  imports : Table String String
deriving Repr

structure TypeDecl where
  spec : TypeSpec
  scope : Scope
deriving Repr

/-- A declared constant: its line, the expression for it, and its file. -/
structure ConstDecl where
  spec : ConstSpec
  value : Expr
  scope : Scope
deriving Repr

/-- A problem as it is reported for a place in a file. -/
def Problem.diagnostic (why : Problem) (file : Option String) (pos : Position) :
    Except Fault Diagnostic := do
  return { message := ← why.message, phase := some "load", span := .ofPosition file pos }

structure Outline where
  path : String
  name : String := ""
  files : List String := []
  imports : List String := []
  symbols : Table String Symbol := {}
  types : Table String TypeDecl := {}
  consts : Table String ConstDecl := {}
  /-- The names that are declared again, each with the place and the file. -/
  redeclared : List (Problem × Option String × Position) := []
deriving Repr

namespace Outline

def declare (o : Outline) (name : String) (body : SymbolBody) (pos : Position)
    (file : Option String) : Outline :=
  match o.symbols.get? name with
  | some previous =>
    { o with redeclared := o.redeclared ++ [(.redeclared name previous.span, file, pos)] }
  | none =>
    let symbol := { name, package := some o.path, span := .ofPosition file pos, body }
    { o with symbols := o.symbols.insert name symbol }

def addType (o : Outline) (scope : Scope) (spec : TypeSpec) : Outline :=
  let o := o.declare spec.name (.type {}) spec.pos scope.file
  { o with types := o.types.insert spec.name ⟨spec, scope⟩ }

/-- Adds one constant of a line; the blank name declares nothing. -/
def addConst (o : Outline) (scope : Scope) (spec : ConstSpec) (name : String) (value : Expr) :
    Outline :=
  if name = "_" then o
  else
    let o := o.declare name (.const none none) spec.pos scope.file
    { o with consts := o.consts.insert name ⟨spec, value, scope⟩ }

def addImport (o : Outline) (path : String) : Outline :=
  if path ∈ o.imports then o else { o with imports := o.imports ++ [path] }

/-- The names that a file gives to imported packages: its own or the packages'.  A blank import and
one without a name of its own give none. -/
def importNames (program : Program) (imports : List ImportSpec) : Table String String :=
  imports.foldl (fun names spec =>
    let name := spec.localName.getD (program.packageName spec.path)
    if name = "_" ∨ name = "." then names else names.insert name spec.path) {}

/-- Adds a file: its imports, then its types, then its constants. -/
def addFile (program : Program) (o : Outline) (file : SourceFile) : Outline :=
  let o := file.imports.foldl (fun o spec => o.addImport spec.path) o
  let scope := ⟨file.path, importNames program file.imports⟩
  let o := file.types.foldl (·.addType scope) o
  file.consts.foldl (fun o spec =>
    (spec.names.zip spec.values).foldl (fun o (n, value) => o.addConst scope spec n value) o) o

def ofFiles (program : Program) (path : String) (files : List SourceFile) : Outline :=
  files.foldl (addFile program) {
    path
    name := (files.head?.map (·.package)).getD ""
    files := files.map (·.path.getD "") }

/-- The file that a name is declared in, as problems of its declaration are reported. -/
def fileOf (o : Outline) (name : String) : Option String :=
  match o.types.get? name with
  | some decl => decl.scope.file
  | none => (o.consts.get? name).bind (·.scope.file)

/-- The place of a name's declaration, as a cycle through it is reported. -/
def placeOf (o : Outline) (name : String) : Position :=
  match o.types.get? name with
  | some decl => decl.spec.pos
  | none => ((o.consts.get? name).map (·.spec.pos)).getD .start

end Outline

end DeclBridge
