import DeclBridge.Workspace.FileTree
import DeclBridge.Workspace.Sources

/-!
# Checkouts

A checkout is a directory that holds a module: its `go.mod` gives the import path of the module, and
a package of the module is in the directory of the same name.  Other packages are looked for under
`vendor` and then in further directories.

The source files of a package are those with the ending `.go`, without tests and without files that
say on a line of their own that they are to be ignored.
-/

namespace DeclBridge

/-! ## Lines of source files -/

namespace ModuleFile

/-- The ends of a text that begin at a line. -/
def laterLines : List Char → List (List Char)
  | [] => []
  | c :: rest => if c = '\n' then rest :: laterLines rest else laterLines rest

/-- The text, and its ends that begin at a later line. -/
def fromLines (cs : List Char) : List (List Char) := cs :: laterLines cs

/-- Whether only blanks are left up to the end of a line. -/
def endsLine (cs : List Char) : Bool :=
  let blanks := cs.takeWhile Text.isBlank
  '\n' ∈ blanks || blanks.length = cs.length

def afterWord? (word : String) (cs : List Char) : Option (List Char) :=
  if word.toList.isPrefixOf cs then some (cs.drop word.length) else none

/-- The text after at least one blank. -/
def afterBlanks? (cs : List Char) : Option (List Char) :=
  if cs.head?.any Text.isBlank then some (cs.dropWhile Text.isBlank) else none

def afterQuote : List Char → List Char
  | '"' :: rest => rest
  | cs => cs

def isPathChar (c : Char) : Bool := !Text.isBlank c && c != '"'

/-- The path that a text gives on its first line with more than blanks. -/
def pathAt? (cs : List Char) : Option String := do
  let rest ← afterWord? "module" (cs.dropWhile Text.isBlank)
  let rest := afterQuote (← afterBlanks? rest)
  let path := rest.takeWhile isPathChar
  if path.isEmpty || !endsLine (afterQuote (rest.drop path.length)) then none
  else some (String.ofList path)

/-- The module's path in the text of a `go.mod`. -/
def modulePath? (text : String) : Option String :=
  (fromLines text.toList).findSome? pathAt?

/-- Whether a source file says that it is to be ignored. -/
def isIgnored (text : String) : Bool :=
  (fromLines text.toList).any fun cs =>
    match (afterWord? "//go:build" cs).bind afterBlanks? |>.bind (afterWord? "ignore") with
    | some rest => endsLine rest
    | none => false

end ModuleFile

/-! ## Packages on disk -/

structure Checkout where
  tree : FileTree
  root : PathName
  searchPaths : List PathName := []
  /-- The import path of the module, if it is known. -/
  modulePath : Option String := none

namespace Checkout

def readText (tree : FileTree) (p : PathName) : Except Fault String :=
  match tree.read p with
  | .error e => .error (.directoryAsFile e.path)
  | .ok content =>
    match fileText? content with
    | some text => .ok text
    | none => .error .notUtf8

/-- Opens a checkout: reads the import path of its module. -/
def ofTree (tree : FileTree) (root : PathName) (searchPaths : List PathName) :
    Except Fault Checkout := do
  let moduleFile := root.child "go.mod"
  if tree.isFile moduleFile then
    let text ← readText tree moduleFile
    return { tree, root, searchPaths, modulePath := ModuleFile.modulePath? text }
  else return { tree, root, searchPaths }

def segmentsAfter? (base path : List String) : Option (List String) :=
  if base.isPrefixOf path then some (path.drop base.length) else none

def importPath (c : Checkout) (pattern : String) : Except LoadFailure String :=
  if !isRelativePattern pattern then .ok pattern
  else if '\x00' ∈ pattern.toList then .error (.fault .nulInPath)
  else
    let target := c.tree.resolve (c.root.child pattern)
    match segmentsAfter? (c.tree.resolve c.root).segments target.segments with
    | some rest => .ok (importPathWithin c.modulePath (PathName.mk .here rest).text)
    | none => .error (.error ⟨pattern, .outsideRoot c.root.text, []⟩)

/-- The directory of a package within the module. -/
def ownDirectory? (c : Checkout) (path : String) : Option PathName :=
  match c.modulePath with
  | none => some (c.root.child path)
  | some modulePath =>
    if path = modulePath then some c.root
    else if (modulePath ++ "/").toList.isPrefixOf path.toList then
      some (c.root.child (String.ofList (path.toList.drop (modulePath.length + 1))))
    else none

/-- The directories in which a package may be, in the order in which they are tried. -/
def candidates (c : Checkout) (path : String) : List PathName :=
  (c.ownDirectory? path).toList ++
    ((c.root.child "vendor").child path :: c.searchPaths.map (·.child path))

def locate (c : Checkout) (path : String) : Option PathName :=
  (c.candidates path).find? c.tree.isDirectory

def isSourceFile (name : String) : Bool :=
  ".go".toList.isSuffixOf name.toList && !isTestFile name

def sourceNames (c : Checkout) (directory : PathName) : List String :=
  match c.tree.lookup directory with
  | .ok (path, .directory) => (c.tree.namesIn path).filter isSourceFile
  | _ => []

/-- The files of a package, and what is to be logged about them. -/
def read (c : Checkout) (path : String) : Except LoadFailure (SourceList × List LogLine) := do
  match c.locate path with
  | none => .error (.error ⟨path, .noDirectory, []⟩)
  | some directory =>
    let files ← (c.sourceNames directory).mapM fun name => do
      let file := directory.child name
      let text ← (readText c.tree file).mapError LoadFailure.fault
      return (file.text, text)
    let files := files.filter fun (_, text) => !ModuleFile.isIgnored text
    if files.isEmpty then .error (.error ⟨path, .noSources directory.text, []⟩)
    else
      return (files, [.detail ("package " ++ path ++ ": " ++ toString files.length ++
        " file(s) in " ++ directory.text)])

def treeSize (tree : FileTree) : Nat :=
  tree.entries.values.foldl (fun size entry =>
    match entry with
    | .file content => size + content.size
    | .directory => size) 0

/-- A checkout as a place that packages are read from. -/
def sources (c : Checkout) : Sources where
  importPath := c.importPath
  read := c.read
  size := treeSize c.tree

end Checkout

end DeclBridge
