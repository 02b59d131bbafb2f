import DeclBridge.Command.Arguments
import DeclBridge.Config.Default
import DeclBridge.Config.Settings
import DeclBridge.Output.Declarations
import DeclBridge.Output.Expression
import DeclBridge.Program.Loading
import DeclBridge.Workspace.Checkout

/-!
# Commands

What the program does for its arguments, as a function of the files on disk and of the standard
input: the files afterwards, what is printed, and the exit status.

* `init` writes a configuration to start from.
* `generate` writes the modules for the packages that a configuration names.
* `expr` prints the output form of one type expression.
* `version` prints the version.
-/

namespace DeclBridge.Command

def programName : String := "tgtt"

def version : String := "0.4.0"

def defaultConfigName : String := "tgtt.json"

inductive Request where
  | init (path : PathName) (force : Bool)
  | generate (config : String) (root : Option PathName) (jobs : Option Int) (verbose : Bool)
  | expr (source fallback : String)
  | version
deriving DecidableEq, Repr

/-! ## From arguments to requests -/

def initSignature : Signature := ⟨[{ spellings := ["--force"] }], .optional⟩

def generateSignature : Signature := {
  options := [
    { spellings := ["--root"], kind := .text },
    { spellings := ["--jobs"], kind := .number },
    { spellings := ["--verbose", "-v"] }]
  positional := .optional }

def exprSignature : Signature :=
  ⟨[{ spellings := ["--fallback"], kind := .text }], .required⟩

def versionSignature : Signature := ⟨[], .none⟩

def Request.ofCommand (command : String) (args : List String) : Except Misuse Request :=
  match command with
  | "init" => do
    let given ← initSignature.read args
    return .init (.ofString (given.positional.getD defaultConfigName)) (given.has "--force")
  | "generate" => do
    let given ← generateSignature.read args
    return .generate (given.positional.getD defaultConfigName)
      ((given.value? "--root").map .ofString) ((given.value? "--jobs").bind wholeNumber?)
      (given.has "--verbose")
  | "expr" => do
    let given ← exprSignature.read args
    return .expr (given.positional.getD "") ((given.value? "--fallback").getD "any")
  | "version" => do
    let _ ← versionSignature.read args
    return .version
  | _ => .error .usage

/-- The request that arguments make.  Only a request for help may stand before the command. -/
def Request.read : List String → Except Misuse Request
  | [] => .error .usage
  | arg :: rest =>
    if arg = "--" then .error .usage
    else
      match classify [helpOption] arg with
      | .plain command => Request.ofCommand command rest
      | .unknown =>
        match Request.read rest with
        | .error .help => .error .help
        | _ => .error .usage
      | _ =>
        match versionSignature.read [arg] with
        | .error .help => .error .help
        | _ => .error .usage

/-! ## Running -/

inductive Stop where
  | said (message : String)
  | fault (why : Fault)
deriving Repr

/-- The files, and what was said so far. -/
structure World where
  tree : FileTree
  log : List LogLine := []

abbrev Acting := ExceptT Stop (StateM World)

namespace Acting

def say (lines : List LogLine) : Acting Unit :=
  modify fun w => { w with log := w.log ++ lines }

/-- A result that needs no files. -/
def lift {α : Type} (r : Except Stop α) : Acting α := ExceptT.mk (pure r)

/-- A fault ends a run; a directory in the place of a source file is reported. -/
def ofFault : Fault → Stop
  | .directoryAsFile path => .said (FileError.text ⟨.isDirectory, path⟩)
  | why => .fault why

/-- A package that is missing is reported. -/
def ofLoadFailure : LoadFailure → Stop
  | .error why => .said why.text
  | .fault why => ofFault why

def makeDirectory (p : PathName) : Acting Unit := do
  let w ← get
  let (tree, failure) := w.tree.ensureDirectory p
  set { w with tree }
  match failure with
  | some e => throw (.said e.text)
  | none => return

def writeFile (p : PathName) (text : String) : Acting Unit := do
  let w ← get
  let tree ← lift ((w.tree.write p text.toUTF8).mapError fun e => .said e.text)
  set { w with tree }

def init (path : PathName) (force : Bool) : Acting Unit := do
  if (← get).tree.exists? path && !force then
    throw (.said (path.text ++ " already exists (use --force to overwrite)"))
  makeDirectory path.parent
  writeFile path defaultConfigText
  say [.notice (programName ++ ": wrote " ++ path.text)]

/-! ### Reading a configuration -/

/-- Settings, and the directory that their paths start at. -/
structure Configuration where
  settings : Settings
  base : PathName

def readSettings (label text : String) : Except Stop Settings :=
  match Json.parse text.toList with
  | .error e => .error (.said (label ++ ": invalid JSON: " ++ e.message text.toList))
  | .ok j => (Settings.ofJson j).mapError fun e => .said (e.message label)

def readConfiguration (tree : FileTree) (input name : String) : Except Stop Configuration := do
  if name = "-" then
    let text := String.ofList (Text.unifyNewlines input.toList)
    return ⟨← readSettings "<stdin>" text, tree.resolve {}⟩
  else
    let path := PathName.ofString name
    match tree.read path with
    | .error e =>
      .error (.said ("cannot read config " ++ path.text ++ ": " ++ e.problem.reason))
    | .ok content =>
      match fileText? content with
      | none => .error (.fault .notUtf8)
      | some text => return ⟨← readSettings path.text text, (tree.resolve path).parent⟩

def directoryOf? (base : PathName) (t : Text) : Option PathName :=
  t.toString?.map base.child

def outputDirectory (c : Configuration) : Except Stop PathName :=
  match directoryOf? c.base c.settings.outputPath with
  | none => .error (.fault .loneSurrogate)
  | some path =>
    if path.segments.any ('\x00' ∈ ·.toList) then .error (.fault .nulInPath) else .ok path

/-! ### Writing modules -/

/-- The import path of a package.  One that no file name can spell is no directory of the module. -/
def importPathOf (checkout : Checkout) (path : Text) : Except LoadFailure String :=
  match path.toString? with
  | some pattern => checkout.importPath pattern
  | none =>
    if isRelativePattern path.shown then .error (.fault .loneSurrogate) else .ok path.shown

/-- Adds the packages that no file name can spell to those that are missing. -/
def withUnspellable (patterns : List Text) (program : Program) : Program :=
  (patterns.filter (·.toString?.isNone)).foldl (fun program path =>
    let why : LoadError :=
      ⟨path.shown, .reported false ("cannot find package " ++ path.quoted), []⟩
    { program with failures := program.failures.insert path.shown why }) program

def loadPackages (checkout : Checkout) (patterns : List Text) : Acting Program := do
  let (result, log) := Program.load checkout.sources (patterns.filterMap Text.toString?)
  say log
  let program ← lift (result.mapError ofFault)
  return withUnspellable patterns program

/-- The part of a package that is asked for. -/
def selectionOf (checkout : Checkout) (p : PackageSettings) : Except LoadFailure Selection := do
  return ⟨← importPathOf checkout p.path, p.names.map Text.shown⟩

def writeModules (graph : ModuleGraph) (directory : PathName) (jobs : Int) : Acting Unit := do
  makeDirectory directory
  let write (name text : String) (w : World) : Except FileError World := do
    let target := directory.child (name ++ ".ts")
    let tree ← w.tree.write target text.toUTF8
    return { w with
      tree
      log := w.log ++ [
        .detail ("wrote " ++ target.text),
        .detail ("rendered module " ++ name ++ " (" ++ toString text.utf8ByteSize ++ " bytes)")] }
  let (w, failure) := graph.renderAll jobs [] write (← get)
  set w
  match failure with
  | none => return
  | some (.fault why) => throw (.fault why)
  | some (.refused e) => throw (.said e.text)

/-- Writes the modules for the packages that a configuration names. -/
def generate (input config : String) (root : Option PathName) (jobs : Option Int) :
    Acting Unit := do
  let tree := (← get).tree
  let c ← lift (readConfiguration tree input config)
  let settings := c.settings
  let jobs := jobs.getD settings.jobs
  if jobs < 0 then throw (.said "--jobs must be >= 0")
  let searchPaths := settings.searchPaths.filterMap (directoryOf? c.base)
  let checkout ← lift ((Checkout.ofTree tree (root.getD c.base) searchPaths).mapError ofFault)
  let packages := settings.primary :: settings.secondaries
  let program ← loadPackages checkout (packages.map (·.path))
  let primary ← lift ((selectionOf checkout settings.primary).mapError ofLoadFailure)
  let others ← settings.secondaries.mapM fun p =>
    lift ((selectionOf checkout p).mapError ofLoadFailure)
  let overrides ← lift ((settings.allOverrides fun path =>
    (importPathOf checkout path).map Text.ofString).mapError ofLoadFailure)
  let options : Options := {
    overrides, includeUnexported := settings.includeUnexported, fallback := settings.fallback }
  let run ← lift ((program.emit primary others options).mapError ofLoadFailure)
  say run.log
  let directory ← lift (outputDirectory c)
  writeModules run.graph directory jobs
  let warnings := (run.diagnostics.filter (·.severity = "warning")).length
  say [.notice (programName ++ ": wrote " ++ toString run.graph.modules.size ++
    " module(s) to " ++ directory.text ++ " (" ++ toString warnings ++ " warning(s))")]

end Acting

/-! ## Outcomes -/

inductive Outcome where
  | finished (status : Nat) (output errors : String)
  /-- A fault that nobody is told about in words. -/
  | crashed (why : Fault)
  | misused (how : Misuse)
deriving Repr

def unlines (lines : List String) : String :=
  String.join (lines.map (· ++ "\n"))

/-- The outcome of a computation that changes files: what it says goes to the error output. -/
def outcomeOf (verbose : Bool) (act : Acting Unit) (tree : FileTree) : FileTree × Outcome :=
  match act.run.run { tree } with
  | (.ok _, w) => (w.tree, .finished 0 "" (unlines (shownTexts verbose w.log)))
  | (.error (.said message), w) =>
    (w.tree, .finished 1 "" (unlines (shownTexts verbose w.log ++
      [programName ++ ": error: " ++ message])))
  | (.error (.fault why), w) => (w.tree, .crashed why)

/-- The outcome of printing the output form of a type expression. -/
def exprOutcome (source fallback : String) : Outcome :=
  match TypeExpr.output source fallback with
  | .ok text => .finished 0 (text.shown ++ "\n") ""
  | .error (.fault why) => .crashed why
  | .error e => .finished 1 "" (programName ++ ": error: " ++ e.message ++ "\n")

def run (tree : FileTree) (input : String) (args : List String) : FileTree × Outcome :=
  match Request.read args with
  | .error how => (tree, .misused how)
  | .ok (.init path force) => outcomeOf false (Acting.init path force) tree
  | .ok (.generate config root jobs verbose) =>
    outcomeOf verbose (Acting.generate input config root jobs) tree
  | .ok (.expr source fallback) => (tree, exprOutcome source fallback)
  | .ok .version => (tree, .finished 0 (version ++ "\n") "")

/-! ## What a run looks at -/

def Request.configFile? : Request → Option PathName
  | .generate config _ _ _ => if config = "-" then none else some (.ofString config)
  | _ => none

def Request.readsInput : Request → Bool
  | .generate config _ _ _ => config = "-"
  | _ => false

def Request.places (tree : FileTree) (input : String) : Request → List PathName
  | .init path _ => [path]
  | .generate config root _ _ =>
    match Acting.readConfiguration tree input config with
    | .error _ => []
    | .ok c =>
      let others := (c.settings.outputPath :: c.settings.searchPaths).filterMap
        (Acting.directoryOf? c.base)
      (root.getD c.base) :: others
  | .expr .. | .version => []

def usageText : String := unlines [
  "usage: " ++ programName ++ " init [--force] [path]",
  "       " ++ programName ++ " generate [--root ROOT] [--jobs JOBS] [-v] [path]",
  "       " ++ programName ++ " expr [--fallback FALLBACK] expr",
  "       " ++ programName ++ " version"]

end DeclBridge.Command
