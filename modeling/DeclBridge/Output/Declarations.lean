import DeclBridge.Output.Definition
import DeclBridge.Text.Lines

/-!
# Declarations of the output

The requested packages are walked symbol by symbol, in the order of name and place, and every type
that a definition refers to is defined in the module of its own package when it is first mentioned,
together with the constants of that type.  A reference to another module is an import.  A type of a
package that was not loaded is defined as the fallback type, which is reported.

A name is reserved in its module before its definition is made, so within a requested symbol `define`
is entered at most once at a time for every symbol; the number of symbols bounds its depth.
-/

namespace DeclBridge

/-- Symbols that can be written: types, and constants with a value. -/
def Symbol.isWritable (s : Symbol) : Bool :=
  match s.body with
  | .const value _ => value.isSome
  | .type _ => true

/-- The symbols of a package that can be written, in the order in which they are. -/
def Package.writable (p : Package) : List Symbol :=
  p.sortedSymbols.filter Symbol.isWritable

namespace Emitting

/-! ## References -/

section References

variable (plan : Plan) (define : Symbol → String → Emitting Unit)

/-- The name of a package's module, which is created if need be. -/
def moduleFor (path : String) : Emitting String := do
  let name ← lift (plan.names.nameOf path)
  modifyGraph (·.withModule name path)
  return name

/-- What is said of a type of which nothing is known: the first line of the reason why its package
is missing. -/
def unknownReason (why : Option LoadError) : Except Fault String :=
  match why with
  | none => .ok "symbol not found"
  | some e =>
    match Text.firstLine? e.text with
    | some line => .ok line
    | none => .error .emptyMessage

/-- Defines a type of which nothing is known as its replacement or as the fallback type. -/
def defineUnknown (id : SymbolId) (path owner : String) (why : Option LoadError) :
    Emitting Unit := do
  match plan.override? (plan.overrideName id) with
  | some text => setDefinition owner id.name ("export type " ++ id.name ++ " = " ++ text)
  | none =>
    let fallback := plan.options.fallback
    setDefinition owner id.name
      ("export type " ++ id.name ++ " = " ++ fallback ++ " /* unresolved: " ++ path ++ " */")
    let reason ← lift (unknownReason why)
    warn (id.qualified ++ ": package " ++ path ++ " could not be loaded (" ++ reason ++
        "); using " ++ fallback.shown)
      "unresolved-reference"
      ("reference to " ++ id.qualified ++ " degraded to " ++ fallback.shown ++ ": " ++ reason)
      (plan.program.spanOf id)

/-- Whether a symbol is a constant that is written along with its type. -/
def isCompanion (id : SymbolId) (symbol : Symbol) : Bool :=
  match symbol.body with
  | .const _ (some (.named type _)) =>
    type = id && (symbol.exported || plan.options.includeUnexported)
  | _ => false

/-- Whether a symbol is written when a type is first mentioned: the type itself, or a constant that
is written along with it. -/
def comesWith (id : SymbolId) (symbol : Symbol) : Bool :=
  symbol.name = id.name || isCompanion plan id symbol

/-- Defines a type in the module of its package, together with its constants. -/
def includeType (id : SymbolId) (path owner : String) : Emitting Unit := do
  match plan.program.package path with
  | .error why => defineUnknown plan id path owner (some why)
  | .ok package =>
    (package.writable.filter (comesWith plan id)).forM (define · owner)
    if !(← isTaken owner id.name) then defineUnknown plan id path owner none

/-- Defines a type in the module of its package, unless its name is taken there. -/
def ensureType (path name owner : String) : Emitting Unit := do
  if !(← isTaken owner name) then includeType plan define ⟨some path, name⟩ path owner

/-- The name of a declared type as seen from a module.  The type is defined if it is not. -/
def refer (module definition path name : String) : Emitting Text := do
  let owner ← moduleFor plan path
  -- the import comes first, so that imports stand in the order of first use
  modifyGraph (·.modify module (·.addImport owner))
  ensureType plan define path name owner
  let text : Text := if owner = module then name else owner ++ "." ++ name
  noteReference { module, definition, path, name, text }
  return text

end References

/-- Defines a symbol in a module, unless its name is taken, within a depth of `count` symbols and
with interfaces expanded to a depth of `limit`. -/
def define (plan : Plan) (limit : Nat) : (count : Nat) → Symbol → String → Emitting Unit
  | 0, _, _ => throw .endlessType
  | count + 1, symbol, module => do
    if ← isTaken module symbol.name then return
    modifyGraph (·.modify module (·.reserve symbol.name))
    let referFrom := refer plan (define plan limit count) module symbol.name
    let render := expandedText plan referFrom limit
    match ← symbolText plan render symbol with
    | some text => setDefinition module symbol.name text
    | none => modifyGraph (·.modify module (·.discard symbol.name))

/-- Defines the requested symbols of a package, within the depths that `define` is given. -/
def definePackage (plan : Plan) (limit count : Nat) (selection : Selection) (package : Package) :
    Emitting Unit := do
  let module ← moduleFor plan package.path
  (package.writable.filter (selection.includes plan.options.includeUnexported)).forM
    (define plan limit count · module)

/-- Defines what is requested of each package, after the primary package has its module. -/
def defineRequested (plan : Plan) (limit count : Nat) (requested : List (Selection × Package)) :
    Emitting Unit := do
  let _ ← moduleFor plan plan.primary
  requested.forM fun (selection, package) => definePackage plan limit count selection package

end Emitting

/-- What a run has made, with the names of its modules. -/
structure Run where
  names : NameTable
  graph : ModuleGraph
  diagnostics : List Diagnostic
  log : List LogLine
  references : List Reference

/-- What a run for the requested packages works with. -/
def Plan.ofRequest (p : Program) (primary : Selection) (others : List Selection)
    (options : Options) : Plan where
  program := p
  primary := primary.path
  names := NameTable.build p primary.path ((primary :: others).map (·.path))
  options := options

/-- What is said of the names of the modules; that of the primary package goes without saying. -/
def Plan.nameLines (plan : Plan) : List LogLine :=
  (plan.names.names.entries.drop 1).map fun (path, name) =>
    LogLine.detail ("module " ++ name ++ " <- " ++ path)

def Plan.start (plan : Plan) : Emission := { log := plan.nameLines }

/-- What a run that ends in a state has made. -/
def Run.ofEmission (plan : Plan) (e : Emission) : Run where
  names := plan.names
  graph := e.graph
  diagnostics := e.diagnostics
  log := e.log ++
    [LogLine.detail ("transpiled " ++ toString e.graph.modules.size ++ " module(s)")]
  references := e.references

/-- Makes the modules for the requested packages, of which the first is the primary one, with the
given limits.  A requested package that is missing is an error. -/
def Program.emitWithin (p : Program) (limit count : Nat) (primary : Selection)
    (others : List Selection) (options : Options) : Except LoadFailure Run := do
  let requested := primary :: others
  let packages ← (requested.mapM fun s => p.package s.path).mapError .error
  let plan := Plan.ofRequest p primary others options
  let make := Emitting.defineRequested plan limit count (requested.zip packages)
  match make.run.run plan.start with
  | (.error why, _) => .error (.fault why)
  | (.ok _, e) => return Run.ofEmission plan e

/-- Makes the modules for the requested packages.  Interfaces are expanded to the number of types
that the program has, and definitions nested to the number of its symbols: what goes beyond has no
end. -/
def Program.emit (p : Program) (primary : Selection) (others : List Selection) (options : Options) :
    Except LoadFailure Run :=
  p.emitWithin p.typeParts.length (p.symbolCount + 2) primary others options

end DeclBridge
