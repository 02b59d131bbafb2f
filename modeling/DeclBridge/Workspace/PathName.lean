/-!
# Path names

A path name is where it starts and the segments that follow.  Reading one drops empty segments and
single points, keeps double points, and tells a leading pair of slashes from one slash or from more
than two.
-/

namespace DeclBridge

inductive PathStart where
  /-- At the directory it is looked up from. -/
  | here
  | root
  /-- At the root, spelled with exactly two slashes. -/
  | doubleRoot
deriving DecidableEq, Repr, Inhabited

structure PathName where
  start : PathStart := .here
  segments : List String := []
deriving DecidableEq, Repr, Inhabited

namespace PathName

def startOf (cs : List Char) : PathStart :=
  match (cs.takeWhile (· = '/')).length with
  | 0 => .here
  | 2 => .doubleRoot
  | _ => .root

/-- The segments that are spelled, without those that lead nowhere. -/
def segmentsOf (cs : List Char) : List String :=
  ((cs.splitOn '/').filter fun s => !s.isEmpty && s != ['.']).map String.ofList

def ofString (s : String) : PathName :=
  ⟨startOf s.toList, segmentsOf s.toList⟩

/-- A path name as text; the one without segments is a point. -/
def text (p : PathName) : String :=
  let segments := "/".intercalate p.segments
  match p.start with
  | .here => if p.segments.isEmpty then "." else segments
  | .root => "/" ++ segments
  | .doubleRoot => "//" ++ segments

/-- A path followed by another; one that starts at the root replaces what is before it. -/
def join (p q : PathName) : PathName :=
  if q.start = .here then ⟨p.start, p.segments ++ q.segments⟩ else q

/-- A path with a spelled one after it. -/
def child (p : PathName) (s : String) : PathName := p.join (ofString s)

def parent (p : PathName) : PathName := { p with segments := p.segments.dropLast }

def lastSegment (p : PathName) : String := p.segments.getLast?.getD ""

end PathName

/-- Whether a pattern names a directory relative to a module instead of an import path. -/
def isRelativePattern (pattern : String) : Bool :=
  pattern == "." || pattern == ".." || "./".toList.isPrefixOf pattern.toList ||
    "../".toList.isPrefixOf pattern.toList

def importPathWithin (modulePath : Option String) (directory : String) : String :=
  if directory = "" ∨ directory = "." then
    match modulePath with
    | some path => if path.isEmpty then "." else path
    | none => "."
  else
    match modulePath with
    | some path => path ++ "/" ++ directory
    | none => directory

end DeclBridge
