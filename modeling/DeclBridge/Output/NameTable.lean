import DeclBridge.Program.Program

/-!
# Module names

Every package that can be reached from the requested ones has an output module with a name of its
own, fixed before anything is written.  The primary package's module is `index`.  The others are
named after their packages, in the order of the length of their path, then of their name, then of
their path; a name that is taken already gets the first free number.
-/

namespace DeclBridge

structure NameTable where
  names : Table String String
deriving Repr

namespace NameTable

def index : String := "index"

/-- A name with a number; zero is the bare name. -/
def candidate (base : String) (number : Nat) : String :=
  if number = 0 then base else base ++ "_" ++ toString number

/-- The first candidate for a name that is not taken.  One more candidate than names are taken is
enough. -/
def freshName (taken : List String) (base : String) : String :=
  (((List.range (taken.length + 1)).map (candidate base)).find? (· ∉ taken)).getD base

/-- The order in which packages are named. -/
def namedBefore (p : Program) (a b : String) : Bool :=
  ((compare a.length b.length).then
    ((compare (p.packageName a) (p.packageName b)).then (compare a b))) != .gt

def add (p : Program) (names : Table String String) (path : String) : Table String String :=
  names.insert path (freshName names.values (p.packageName path))

/-- The names for the packages that can be reached from `roots` and the primary package. -/
def build (p : Program) (primary : String) (roots : List String) : NameTable :=
  let roots := if primary ∈ roots then roots else primary :: roots
  let paths := ((p.reachable roots).filter (· ≠ primary)).mergeSort (namedBefore p)
  ⟨paths.foldl (add p) (Table.empty.insert primary index)⟩

def nameOf (t : NameTable) (path : String) : Except Fault String :=
  match t.names.get? path with
  | some name => .ok name
  | none => .error (.unnamedModule path)

def contains (t : NameTable) (path : String) : Bool := t.names.contains path

def size (t : NameTable) : Nat := t.names.size

end NameTable

end DeclBridge
