import DeclBridge.Program.Program

/-!
# Type sets of interfaces

An interface may restrict the types that satisfy it to a list of terms.  A union restricts to its
terms; an interface to the terms that all its restricting elements have in common; a declared
interface to what its definition restricts to.  An interface with methods only does not restrict,
and neither does one that is embedded in itself.  Every other type restricts to itself alone.
-/

namespace DeclBridge

namespace TermSet

/-- The terms that two sets have in common, in the order of the first. -/
def common (a b : List Ty) : List Ty :=
  a.filter fun t => b.any (t.same ·)

/-- The terms that all restricting sets have in common; nothing when none restricts. -/
def meet (sets : List (Option (List Ty))) : Option (List Ty) :=
  match sets.filterMap id with
  | [] => none
  | first :: others => some (others.foldl common first)

mutual

/-- The terms that a type restricts to, where `declared` gives those of a reference to a declared
type. -/
def ofTy (declared : SymbolId → Ty → Option (List Ty)) : Ty → Option (List Ty)
  | .union terms => some (Ty.dedupe (terms.map (·.type)))
  | .named id args =>
    if id.package.isSome then declared id (.named id args)
    else if id.name = "error" then none
    else some [.named id args]
  | .aliased id args =>
    if id.package.isSome then declared id (.aliased id args) else some [.aliased id args]
  | .interface embeds _ => meet (ofTys declared embeds)
  | t => some [t]
termination_by structural t => t

def ofTys (declared : SymbolId → Ty → Option (List Ty)) : List Ty → List (Option (List Ty))
  | [] => []
  | t :: ts => ofTy declared t :: ofTys declared ts
termination_by structural ts => ts

end

/-- The terms that a type restricts to, within the definitions of `seen` and through at most `count`
others. -/
def within (info : SymbolId → TypeInfo) : (count : Nat) → List SymbolId → Ty → Option (List Ty)
  | 0, _, _ => none
  | count + 1, seen, t =>
    ofTy (fun id reference =>
      match (info id).underlying with
      | some (.interface embeds methods) =>
        if id ∈ seen then none else within info count (id :: seen) (.interface embeds methods)
      | _ => some [reference]) t

end TermSet

def Program.symbolCount (p : Program) : Nat := p.symbols.length

/-- The terms that a type restricts to; nothing when it does not restrict.  Every declared type is
entered once at most, so the number of symbols bounds the depth. -/
def Program.termSet (p : Program) (t : Ty) : Option (List Ty) :=
  TermSet.within p.typeInfo (p.symbolCount + 1) [] t

end DeclBridge
