import DeclBridge.Table
import DeclBridge.Text.Lines
import DeclBridge.Text.Quoted
import DeclBridge.Workspace.PathName

/-!
# File trees

A file tree is a file system as a value: for each path from the root a file with its bytes, or a
directory, and the directory that path names are looked up from.  Looking up a path walks through
its segments, and every one but the last must be a directory.

Operations on a tree fail as those of a file system do, with a `FileError` that names the path as it
was written.
-/

namespace DeclBridge

inductive Entry where
  | file (content : ByteArray)
  | directory

/-- Files and directories by their path from the root. -/
structure FileTree where
  entries : Table (List String) Entry := {}
  /-- The directory that path names start at. -/
  here : List String := []

inductive FileProblem where
  | notFound | exists | notDirectory | isDirectory
deriving DecidableEq, Repr

structure FileError where
  problem : FileProblem
  path : String
deriving DecidableEq, Repr

namespace FileProblem

/-- The number under which a problem is known. -/
def number : FileProblem → Nat
  | notFound => 2
  | «exists» => 17
  | notDirectory => 20
  | isDirectory => 21

def reason : FileProblem → String
  | notFound => "No such file or directory"
  | «exists» => "File exists"
  | notDirectory => "Not a directory"
  | isDirectory => "Is a directory"

end FileProblem

def FileError.text (e : FileError) : String :=
  "[Errno " ++ toString e.problem.number ++ "] " ++ e.problem.reason ++ ": " ++ quotedString e.path

namespace FileTree

def entryAt (t : FileTree) (path : List String) : Option Entry :=
  if path.isEmpty then some .directory else t.entries.get? path

/-- Puts a directory at a path, with all that lead to it. -/
def addDirectory (t : FileTree) (path : List String) : FileTree :=
  (List.range (path.length + 1)).foldl (fun t count =>
    if (t.entryAt (path.take count)).isSome then t
    else { t with entries := t.entries.insert (path.take count) .directory }) t

/-- Puts a file at a path, with the directories that lead to it. -/
def addFile (t : FileTree) (path : List String) (content : ByteArray) : FileTree :=
  let t := t.addDirectory path.dropLast
  { t with entries := t.entries.insert path (.file content) }

def startOf (t : FileTree) (p : PathName) : List String :=
  if p.start = .here then t.here else []

/-- Walks from a directory through the segments of a path name. -/
def walk (t : FileTree) (current : List String) : List String → Except FileProblem (List String)
  | [] => .ok current
  | segment :: rest =>
    match t.entryAt current with
    | none => .error .notFound
    | some (.file _) => .error .notDirectory
    | some .directory =>
      if segment = ".." then t.walk current.dropLast rest
      else if (t.entryAt (current ++ [segment])).isSome then t.walk (current ++ [segment]) rest
      else .error .notFound

/-- The path from the root that a path name leads to, and what is found there. -/
def lookup (t : FileTree) (p : PathName) : Except FileProblem (List String × Entry) := do
  let path ← t.walk (t.startOf p) p.segments
  match t.entryAt path with
  | some entry => return (path, entry)
  | none => .error .notFound

def exists? (t : FileTree) (p : PathName) : Bool := (t.lookup p).toBool

def isDirectory (t : FileTree) (p : PathName) : Bool :=
  match t.lookup p with
  | .ok (_, .directory) => true
  | _ => false

def isFile (t : FileTree) (p : PathName) : Bool :=
  match t.lookup p with
  | .ok (_, .file _) => true
  | _ => false

/-- A path name from the root, with double points taken back by their spelling alone. -/
def resolve (t : FileTree) (p : PathName) : PathName :=
  { start := .root
    segments := p.segments.foldl (fun path segment =>
      if segment = ".." then path.dropLast else path ++ [segment]) (t.startOf p) }

def read (t : FileTree) (p : PathName) : Except FileError ByteArray :=
  match t.lookup p with
  | .ok (_, .file content) => .ok content
  | .ok (_, .directory) => .error ⟨.isDirectory, p.text⟩
  | .error problem => .error ⟨problem, p.text⟩

def namesIn (t : FileTree) (path : List String) : List String :=
  let names := t.entries.keys.filterMap fun entry =>
    match entry.getLast? with
    | some name => if entry.dropLast = path then some name else none
    | none => none
  names.mergeSort fun a b => decide (a ≤ b)

/-- The path from the root at which something new can be put. -/
def placeFor (t : FileTree) (p : PathName) : Except FileError (List String) :=
  match t.lookup p.parent with
  | .ok (path, .directory) => .ok (path ++ [p.lastSegment])
  | .ok (_, .file _) => .error ⟨.notDirectory, p.text⟩
  | .error problem => .error ⟨problem, p.text⟩

/-- Writes a file, in the place of what it held before. -/
def write (t : FileTree) (p : PathName) (content : ByteArray) : Except FileError FileTree :=
  match t.lookup p with
  | .ok (path, .file _) => .ok { t with entries := t.entries.insert path (.file content) }
  | .ok (_, .directory) => .error ⟨.isDirectory, p.text⟩
  | .error _ => do
    let path ← t.placeFor p
    return { t with entries := t.entries.insert path (.file content) }

/-- Makes a directory whose parent is there. -/
def makeDirectory (t : FileTree) (p : PathName) : Except FileError FileTree :=
  match t.lookup p with
  | .ok _ => .error ⟨.exists, p.text⟩
  | .error _ => do
    let path ← t.placeFor p
    return { t with entries := t.entries.insert path .directory }

/-- Makes a directory unless there is one.  A missing parent is an error. -/
def ensureOne (t : FileTree) (p : PathName) : FileTree × Option FileError :=
  match t.makeDirectory p with
  | .ok t => (t, none)
  | .error e => (t, if e.problem ≠ .notFound ∧ t.isDirectory p then none else some e)

/-- Makes a directory unless there is one, and its parents up to `depth` levels.  Parents that were
made stay also when a later step fails. -/
def ensureWithin (t : FileTree) (p : PathName) : (depth : Nat) → FileTree × Option FileError
  | 0 => t.ensureOne p
  | depth + 1 =>
    match t.ensureOne p with
    | (t, some ⟨.notFound, _⟩) =>
      match t.ensureWithin p.parent depth with
      | (t, none) => t.ensureOne p
      | failed => failed
    | result => result

/-- Makes a directory and what leads to it, unless it is there. -/
def ensureDirectory (t : FileTree) (p : PathName) : FileTree × Option FileError :=
  t.ensureWithin p p.segments.length

end FileTree

/-- The text of a file: its bytes are UTF-8, and every kind of line end is read as a line feed. -/
def fileText? (content : ByteArray) : Option String :=
  (String.fromUTF8? content).map fun s => String.ofList (Text.unifyNewlines s.toList)

end DeclBridge
