import DeclBridge.Program.LoadError
import DeclBridge.Program.PackageName
import DeclBridge.Program.Symbol

/-!
# Programs

A program is the packages that were loaded and, for those that were not, the reason.  Symbols refer
to each other by package and name; `Program.typeInfo` finds what is known of a type, and nothing is
known of one that no loaded package declares.
-/

namespace DeclBridge

/-- A package: its import path, its name, and what it declares. -/
structure Package where
  path : String
  name : String
  symbols : Table String Symbol := {}
  /-- Import paths in the order of their first mention. -/
  imports : List String := []
  files : List String := []
deriving Repr

def Package.sortedSymbols (p : Package) : List Symbol :=
  Symbol.sort p.symbols.values

/-- The packages of a program and the reasons why others are missing. -/
structure Program where
  packages : Table String Package := {}
  failures : Table String LoadError := {}
deriving Repr

namespace Program

/-- A package that was asked for, or the reason why it is missing. -/
def package (p : Program) (path : String) : Except LoadError Package :=
  match p.packages.get? path with
  | some package => .ok package
  | none =>
    match p.failures.get? path with
    | some e => .error e
    | none => .error ⟨path, .notLoaded, []⟩

/-- The declared name of a package, or the one its import path suggests. -/
def packageName (p : Program) (path : String) : String :=
  match p.packages.get? path with
  | some package => package.name
  | none => defaultPackageName path

def importsOf (p : Program) (path : String) : List String :=
  ((p.packages.get? path).map (·.imports)).getD []

/-- Walks the import graph depth first: `stack` is still to be visited, `seen` has been.  The count
bounds the visits. -/
def visit (p : Program) : (count : Nat) → (seen stack : List String) → List String
  | 0, _, _ => []
  | _ + 1, _, [] => []
  | count + 1, seen, path :: stack =>
    if path ∈ seen then p.visit count seen stack
    else
      let seen := path :: seen
      path :: p.visit count seen ((p.importsOf path).filter (· ∉ seen) ++ stack)

/-- The import paths that can be reached from `roots`, each once, in depth-first order.  Every path
is put on the stack as a root or as an import of a loaded package, which bounds the visits. -/
def reachable (p : Program) (roots : List String) : List String :=
  let imports := p.packages.values.flatMap (·.imports)
  p.visit (roots.length + imports.length) [] roots

def symbols (p : Program) : List Symbol :=
  p.packages.values.flatMap (·.symbols.values)

/-- All types in the declarations of the loaded packages, with the types inside them. -/
def typeParts (p : Program) : List Ty :=
  (p.symbols.flatMap Symbol.types).flatMap Ty.parts

/-- What is known of a type; nothing where no loaded package declares it. -/
def typeInfo (p : Program) (id : SymbolId) : TypeInfo :=
  match id.package.bind p.packages.get? with
  | some package => ((package.symbols.get? id.name).bind Symbol.typeInfo?).getD {}
  | none => {}

/-- The place of a symbol's declaration, unknown where no loaded package declares it. -/
def spanOf (p : Program) (id : SymbolId) : Span :=
  match id.package.bind p.packages.get? with
  | some package =>
    match package.symbols.get? id.name with
    | some symbol => if symbol.typeInfo?.isSome then symbol.span else {}
    | none => {}
  | none => {}

end Program

end DeclBridge
