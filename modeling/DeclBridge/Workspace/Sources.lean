import DeclBridge.Log
import DeclBridge.Program.LoadError
import DeclBridge.Table
import DeclBridge.Workspace.PathName

/-!
# Where sources come from

`Sources` is what loading needs of a place that holds packages: the import path that a pattern
stands for, and the files of a package.  `SourceTable` is the simplest such place, a table in
memory.
-/

namespace DeclBridge

/-- The files of a package, each with its name and its text, in order. -/
abbrev SourceList := List (String × String)

structure Sources where
  /-- The import path that a pattern stands for. -/
  importPath : String → Except LoadFailure String
  /-- The files of a package, and what is to be logged about them. -/
  read : String → Except LoadFailure (SourceList × List LogLine)
  /-- At least the number of import paths that the files mention. -/
  size : Nat

/-- Whether a file holds tests, which declare nothing for others. -/
def isTestFile (name : String) : Bool :=
  "_test.go".toList.isSuffixOf name.toList

/-- Packages in memory: for each import path its files by name. -/
structure SourceTable where
  packages : Table String (Table String String)
  modulePath : Option String := none

namespace SourceTable

def importPath (t : SourceTable) (pattern : String) : String :=
  if isRelativePattern pattern then
    importPathWithin t.modulePath (PathName.ofString pattern).text
  else pattern

/-- The files of a package by name, without those that hold tests. -/
def read (t : SourceTable) (path : String) : Except LoadFailure SourceList :=
  match t.packages.get? path with
  | none | some ⟨[]⟩ => .error (.error ⟨path, .noDirectory, []⟩)
  | some files =>
    .ok ((files.entries.filter (!isTestFile ·.1)).mergeSort fun a b => decide (a.1 ≤ b.1))

/-- A table as a place that packages are read from. -/
def sources (t : SourceTable) : Sources where
  importPath pattern := .ok (t.importPath pattern)
  read path := (t.read path).map (·, [])
  size := (t.packages.values.flatMap (·.values)).foldl (fun size text => size + text.length) 0

end SourceTable

end DeclBridge
