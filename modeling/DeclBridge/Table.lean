/-!
# Tables in order of insertion

A finite map that remembers in which order its keys were first put in.  A later value for a key
takes the place of the earlier one and leaves the order alone, so a walk over a table is the same in
every run.
-/

namespace DeclBridge

/-- Keys with their values, in the order in which the keys were first inserted. -/
structure Table (κ α : Type) where
  entries : List (κ × α) := []
deriving Repr, Inhabited

namespace Table

variable {κ α : Type} [DecidableEq κ]

def empty : Table κ α := ⟨[]⟩

def get? (t : Table κ α) (k : κ) : Option α :=
  (t.entries.find? (·.1 = k)).map (·.2)

def contains (t : Table κ α) (k : κ) : Bool :=
  (t.get? k).isSome

/-- The entries with a new value for a key. -/
def insertEntry (k : κ) (v : α) : List (κ × α) → List (κ × α)
  | [] => [(k, v)]
  | (k', v') :: rest => if k' = k then (k, v) :: rest else (k', v') :: insertEntry k v rest

/-- Gives a key a value: in the place of the old one, or at the end. -/
def insert (t : Table κ α) (k : κ) (v : α) : Table κ α :=
  ⟨insertEntry k v t.entries⟩

def erase (t : Table κ α) (k : κ) : Table κ α :=
  ⟨t.entries.filter (·.1 ≠ k)⟩

def modify (t : Table κ α) (k : κ) (f : α → α) : Table κ α :=
  ⟨t.entries.map fun (k', v) => if k' = k then (k', f v) else (k', v)⟩

def keys (t : Table κ α) : List κ := t.entries.map (·.1)

def values (t : Table κ α) : List α := t.entries.map (·.2)

def size (t : Table κ α) : Nat := t.entries.length

/-- A table from a list of entries, where the last value of a key counts. -/
def ofList (entries : List (κ × α)) : Table κ α :=
  entries.foldl (fun t e => t.insert e.1 e.2) empty

/-- One table laid over another: where both have a key the second counts. -/
def union (t u : Table κ α) : Table κ α :=
  u.entries.foldl (fun t e => t.insert e.1 e.2) t

end Table

end DeclBridge
