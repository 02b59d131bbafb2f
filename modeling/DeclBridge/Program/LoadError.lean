import DeclBridge.Fault
import DeclBridge.Source.Diagnostic
import DeclBridge.Text.Quoted

/-!
# Packages that are not loaded

Why a package is missing from a program.  Either it was not found, or its sources are in error; in
the second case the diagnostics say where.
-/

namespace DeclBridge

inductive LoadCause where
  /-- A relative path leads out of the module. -/
  | outsideRoot (root : String)
  | noDirectory
  | noSources (directory : String)
  | notLoaded
  | badText
  /-- The files do not agree on the package's name: each name with its file. -/
  | mixedNames (found : List (String × String))
  /-- The package imports itself through others. -/
  | importCycle (chain : List String)
  | unresolved
  /-- A failure known by its text only. -/
  | reported (inSources : Bool) (message : String)
deriving DecidableEq, Repr

structure LoadError where
  path : String
  cause : LoadCause
  diagnostics : List Diagnostic := []
deriving DecidableEq, Repr

namespace LoadError

def inSources (e : LoadError) : Bool :=
  match e.cause with
  | .badText | .mixedNames _ | .importCycle _ | .unresolved => true
  | .reported inSources _ => inSources
  | _ => false

/-- What is said of the failure, without its diagnostics. -/
def message (e : LoadError) : String :=
  match e.cause with
  | .outsideRoot root => e.path ++ " is outside the module root " ++ root
  | .noDirectory => "cannot find package " ++ quotedString e.path
  | .noSources directory => "no Go files in " ++ directory
  | .notLoaded => "package " ++ quotedString e.path ++ " is not part of the loaded program"
  | .badText => "package " ++ e.path ++ ": syntax error"
  | .mixedNames found =>
    "found packages " ++
      ", ".intercalate (found.map fun (name, file) => name ++ " (" ++ file ++ ")") ++
      " in " ++ e.path
  | .importCycle chain => "import cycle not allowed: " ++ " -> ".intercalate chain
  | .unresolved =>
    "package " ++ e.path ++ ": " ++ toString e.diagnostics.length ++ " error(s)"
  | .reported _ message => message

/-- The failure as text: the message, then a line for each diagnostic. -/
def text (e : LoadError) : String :=
  "\n".intercalate (e.message :: e.diagnostics.map Diagnostic.text)

end LoadError

/-- Why a package is not loaded: an error to be recorded, or a fault that ends the run. -/
inductive LoadFailure where
  | error (why : LoadError)
  | fault (why : Fault)
deriving Repr

end DeclBridge
