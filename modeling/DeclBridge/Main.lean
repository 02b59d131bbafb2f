import DeclBridge.Command.Run

/-!
# The program

The outer layer of the command line: it takes a picture of the files that a request looks at, runs
the command on it, and carries the changes over to the disk.
-/

namespace DeclBridge.Main

def absoluteText (path : List String) : String := "/" ++ "/".intercalate path

/-- Whether a run may read the content of a file with this name. -/
def isOfInterest (name : String) : Bool :=
  ".go".toList.isSuffixOf name.toList || name = "go.mod"

/-- How deep directories are looked into. -/
def depthLimit : Nat := 64

/-- Adds what is on disk at a path, and under it down to a depth, to a picture.  Contents that no
run reads are left out. -/
partial def picture (wanted : List String → Bool) (depth : Nat) (tree : FileTree)
    (path : List String) : IO FileTree := do
  let place := (← IO.currentDir) / absoluteText path
  if ← place.isDir then
    let tree := tree.addDirectory path
    if depth = 0 then return tree
    let mut tree := tree
    for entry in ← place.readDir do
      tree ← picture wanted (depth - 1) tree (path ++ [entry.fileName])
    return tree
  else if (tree.entryAt path).isSome then return tree
  else if ← place.pathExists then
    if wanted path then return tree.addFile path (← IO.FS.readBinFile place)
    else return tree.addFile path .empty
  else return tree

/-- Adds what is at a path, and the directories that lead to it as far as they are on disk. -/
def pictureOf (wanted : List String → Bool) (depth : Nat) (tree : FileTree) (p : PathName) :
    IO FileTree := do
  let path := (tree.resolve p).segments
  let mut tree := tree
  for count in List.range path.length do
    tree ← picture wanted 0 tree (path.take count)
  picture wanted depth tree path

/-- Carries the differences between two pictures over to the disk. -/
def carryOver (before after : FileTree) : IO Unit := do
  for (path, entry) in after.entries.entries do
    match entry, before.entries.get? path with
    | .directory, none => IO.FS.createDirAll (absoluteText path)
    | .file new, some (.file old) =>
      if new.toList ≠ old.toList then IO.FS.writeBinFile (absoluteText path) new
    | .file new, _ => IO.FS.writeBinFile (absoluteText path) new
    | _, _ => pure ()

/-- A picture of all that a request looks at. -/
def pictureFor (input : String) (request : Command.Request) : IO FileTree := do
  let here := (PathName.ofString (toString (← IO.currentDir))).segments
  let start : FileTree := FileTree.addDirectory { here } here
  let first ← match request.configFile? with
    | some file => pictureOf (fun _ => true) 0 start file
    | none => pure start
  let wanted (path : List String) : Bool := (path.getLast?).any isOfInterest
  (request.places first input).foldlM (pictureOf wanted depthLimit) first

/-- Prints how a command has ended and gives the exit status. -/
def report : Command.Outcome → IO UInt32
  | .finished status output errors => do
    IO.print output
    IO.eprint errors
    return status.toUInt32
  | .crashed _ => do
    IO.eprintln (Command.programName ++ ": a value could not be represented")
    return 1
  | .misused .help => do
    IO.print Command.usageText
    return 0
  | .misused .usage => do
    IO.eprint Command.usageText
    return 2

def run (args : List String) : IO UInt32 := do
  match Command.Request.read args with
  | .error how => report (.misused how)
  | .ok request =>
    let input ← if request.readsInput then (← IO.getStdin).readToEnd else pure ""
    let before ← pictureFor input request
    let (after, outcome) := Command.run before input args
    carryOver before after
    report outcome

end DeclBridge.Main

def main (args : List String) : IO UInt32 := DeclBridge.Main.run args
