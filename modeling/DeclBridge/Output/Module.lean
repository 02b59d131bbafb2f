import DeclBridge.Fault
import DeclBridge.Table
import DeclBridge.Text.CodePoint

/-!
# Output modules

A module is one output file: what it imports, and its definitions in the order in which their names
were first taken.  A name is *reserved* before its definition is made, and the empty text stands for
a definition in the making; what only has a reservation is not written.

A `ModuleGraph` holds the modules of a run by name.
-/

namespace DeclBridge

structure Module where
  name : String
  packagePath : String
  /-- The names of imported modules, in the order of first use. -/
  imports : List String := []
  definitions : Table String Text := {}
deriving Repr

namespace Module

/-- Whether a name is taken, by a definition or a reservation. -/
def has (m : Module) (name : String) : Bool := m.definitions.contains name

/-- Whether a name has a reservation and no definition yet. -/
def isReserved (m : Module) (name : String) : Bool :=
  (m.definitions.get? name).any Text.isEmpty

/-- Takes a name, unless it is taken already. -/
def reserve (m : Module) (name : String) : Module :=
  if m.has name then m else { m with definitions := m.definitions.insert name .empty }

/-- Gives a name its definition, once. -/
def define (m : Module) (name : String) (text : Text) : Except Fault Module :=
  if m.has name && !m.isReserved name then .error (.alreadyDefined m.name name)
  else .ok { m with definitions := m.definitions.insert name text }

def discard (m : Module) (name : String) : Module :=
  if m.isReserved name then { m with definitions := m.definitions.erase name } else m

def addImport (m : Module) (other : String) : Module :=
  if other = m.name ∨ other ∈ m.imports then m else { m with imports := m.imports ++ [other] }

def importLine (name : String) : Text :=
  "\nimport * as " ++ name ++ " from \"./" ++ name ++ "\";"

/-- The text of a module: a comment with the package, the imports, and the definitions. -/
def text (m : Module) : Text :=
  let definitions := m.definitions.values.filter (!·.isEmpty)
  "/* " ++ m.packagePath ++ " */" ++ Text.join .empty (m.imports.map importLine) ++
    Text.join .empty (definitions.map ("\n\n" ++ ·)) ++ "\n"

/-- The file of a module, which cannot be written if its text holds a surrogate. -/
def render (m : Module) : Except Fault String :=
  match m.text.toString? with
  | some s => .ok s
  | none => .error .loneSurrogate

end Module

/-- The modules of a run by name, in the order of their creation. -/
structure ModuleGraph where
  modules : Table String Module := {}
deriving Repr

inductive RenderFailure (ε : Type) where
  | fault (why : Fault)
  /-- A transformation or a write has failed. -/
  | refused (why : ε)
deriving Repr

namespace ModuleGraph

def withModule (g : ModuleGraph) (name packagePath : String) : ModuleGraph :=
  if g.modules.contains name then g
  else ⟨g.modules.insert name { name, packagePath }⟩

def modify (g : ModuleGraph) (name : String) (f : Module → Module) : ModuleGraph :=
  ⟨g.modules.modify name f⟩

/-- Renders modules one after another: the text goes through the transformations and is then
written.  The first failure ends the work; what was written before it stays. -/
def renderEach {σ ε : Type} (transforms : List (String → Except ε String))
    (write : String → String → σ → Except ε σ) (state : σ) :
    List Module → σ × Option (RenderFailure ε)
  | [] => (state, none)
  | m :: rest =>
    match m.render with
    | .error why => (state, some (.fault why))
    | .ok text =>
      match transforms.foldlM (fun text transform => transform text) text with
      | .error why => (state, some (.refused why))
      | .ok text =>
        match write m.name text state with
        | .error why => (state, some (.refused why))
        | .ok state => renderEach transforms write state rest

/-- Renders all modules.  `limit` is how many may be in work at once, where zero means any number;
it does not change what is written. -/
def renderAll {σ ε : Type} (g : ModuleGraph) (limit : Int)
    (transforms : List (String → Except ε String)) (write : String → String → σ → Except ε σ)
    (state : σ) : σ × Option (RenderFailure ε) :=
  if limit < 0 then (state, some (.fault .negativeLimit))
  else renderEach transforms write state g.modules.values

/-- The texts of all modules, by name. -/
def generate {ε : Type} (g : ModuleGraph) (limit : Int)
    (transforms : List (String → Except ε String)) :
    Except (RenderFailure ε) (List (String × String)) :=
  match g.renderAll limit transforms (fun name text files => .ok (files ++ [(name, text)])) [] with
  | (_, some why) => .error why
  | (files, none) => .ok (files.mergeSort fun a b => decide (a.1 ≤ b.1))

end ModuleGraph

end DeclBridge
