import DeclBridge.Resolution.Package
import DeclBridge.Source.Reader.File
import DeclBridge.Workspace.Sources

/-!
# Loading programs

Packages are loaded depth first: what a package imports is loaded, or recorded as missing, before
the package itself is resolved.  A missing import is not fatal for the package that imports it; it
is logged, and what is referred to through it becomes a stub.  A package that imports itself,
directly or through others, is in error.

Each nested load is of another import path, and apart from the first every one is mentioned in a
file, so the size of the sources bounds the depth.  The course of a load is kept beside the program
(`LoadTrace`); nothing is decided by it.
-/

namespace DeclBridge

/-- The course of a load, the first event first. -/
structure LoadTrace where
  asked : List String := []
  /-- What `Loader.loading` has been. -/
  nestings : List (List String) := []
  /-- The packages that were loaded or recorded as missing. -/
  tried : List String := []
deriving Repr

/-- The program as far as it is loaded. -/
structure Loader where
  program : Program := {}
  /-- The packages whose loading has begun and not ended, the first one first. -/
  loading : List String := []
  log : List LogLine := []
  trace : LoadTrace := {}
deriving Repr

/-- Computations that load packages.  What was loaded is kept also when they fail. -/
abbrev Loading := ExceptT LoadFailure (StateM Loader)

namespace Loading

def say (lines : List LogLine) : Loading Unit :=
  modify fun loader => { loader with log := loader.log ++ lines }

/-- The failure of a package that has a file with an error in its text. -/
def badText (path message : String) (span : Span) : LoadFailure :=
  .error ⟨path, .badText, [{ message, phase := some "load", span }]⟩

def unreadable (path file : String) : ReadError → LoadFailure
  | .text e => badText path e.message ⟨some file, some e.place.1, some e.place.2⟩
  | .invalid why => badText path why.message (.ofPosition? (some file) why.pos?)
  | .fault why => .fault why

def parseFiles (path : String) (files : SourceList) : Except LoadFailure (List SourceFile) :=
  files.mapM fun (file, text) =>
    (SourceFile.parse text (some file)).mapError (unreadable path file)

/-- The import paths that files mention, each once. -/
def importsOf (files : List SourceFile) : List String :=
  (files.flatMap fun f => f.imports.map (·.path)).foldl
    (fun paths path => if path ∈ paths then paths else paths ++ [path]) []

def checkNames (path : String) (files : List SourceFile) : Except LoadFailure Unit :=
  let first := (files.head?.map (·.package)).getD ""
  if files.all (·.package = first) then .ok ()
  else .error (.error ⟨path, .mixedNames (files.map fun f => (f.package, f.path.getD "")), []⟩)

/-- Loads an import of a package, where `load` loads any other package. -/
def loadImport (load : String → Loading Unit) (path dependency : String) : Loading Unit := do
  let loading := (← get).loading
  if dependency ∈ loading then
    let chain := loading.dropWhile (· ≠ dependency) ++ [dependency]
    throw (.error ⟨path, .importCycle chain, []⟩)
  try load dependency
  catch
    | .error why =>
      say [.warning ("package " ++ path ++ ": dependency " ++ dependency ++
        " could not be loaded: " ++ why.text)]
    | .fault why => throw (.fault why)

def ask (sources : Sources) (path : String) : Loading (SourceList × List LogLine) := do
  modify fun loader => { loader with trace.asked := loader.trace.asked ++ [path] }
  ExceptT.mk (pure (sources.read path))

/-- Loads a package that was not tried before: its files, then its imports, then its symbols. -/
def loadFresh (sources : Sources) (load : String → Loading Unit) (path : String) :
    Loading Package := do
  let (texts, lines) ← ask sources path
  say lines
  let files ← ExceptT.mk (pure (parseFiles path texts))
  ExceptT.mk (pure (checkNames path files))
  (importsOf files).forM (loadImport load path)
  let program := (← get).program
  ExceptT.mk (pure ((Outline.ofFiles program path files).resolve program))

/-- Changes what is being loaded. -/
def restack (change : List String → List String) : Loading Unit :=
  modify fun loader =>
    { loader with
      loading := change loader.loading
      trace.nestings := loader.trace.nestings ++ [change loader.loading] }

/-- Begins the loading of a package. -/
def enter (path : String) : Loading Unit := restack (· ++ [path])

/-- Ends the loading of the package that was begun last. -/
def leave : Loading Unit := restack List.dropLast

def recordFailure (path : String) (why : LoadError) : Loading Unit :=
  modify fun loader =>
    { loader with
      program.failures := loader.program.failures.insert path why
      trace.tried := loader.trace.tried ++ [path] }

def recordPackage (path : String) (package : Package) : Loading Unit := do
  modify fun loader =>
    { loader with
      program.packages := loader.program.packages.insert path package
      trace.tried := loader.trace.tried ++ [path] }
  say [.detail ("loaded package " ++ path ++ " (" ++ package.name ++ ", " ++
    toString package.symbols.size ++ " symbol(s))")]

/-- Loads a package, within a depth of `count` packages.  It is an error, here as later, if the
package was tried before and is missing. -/
def load (sources : Sources) : (count : Nat) → String → Loading Unit
  | 0, _ => throw (.fault .endlessType)
  | count + 1, path => do
    let loader ← get
    if loader.program.packages.contains path then return
    match loader.program.failures.get? path with
    | some why => throw (.error why)
    | none =>
      enter path
      let package ←
        try loadFresh sources (load sources count) path
        catch failure =>
          if let .error why := failure then recordFailure path why
          leave
          throw failure
      leave
      recordPackage path package

/-- Loads what a pattern stands for.  Errors are recorded and not passed on. -/
def loadPattern (sources : Sources) (pattern : String) : Loading Unit := do
  match sources.importPath pattern with
  | .error (.error why) => recordFailure pattern why
  | .error (.fault why) => throw (.fault why)
  | .ok path =>
    try load sources (sources.size + 1) path
    catch
      | .error _ => say [.detail ("package " ++ path ++ " failed to load")]
      | .fault why => throw (.fault why)

end Loading

/-- Loads the packages that patterns stand for, with all they import.  The log is given also where a
fault ends the loading. -/
def Program.load (sources : Sources) (patterns : List String) :
    Except Fault Program × List LogLine :=
  let (result, loader) := (patterns.forM (Loading.loadPattern sources)).run.run {}
  match result with
  | .error (.fault why) => (.error why, loader.log)
  | _ => (.ok loader.program, loader.log)

end DeclBridge
