import DeclBridge.Resolution.Store

/-!
# References to declared types

What a name refers to, and what lies behind a reference: `typeNamed` gives the type that a name
stands for, `underlying` its structure and `kindOf` its basic kind.  Where this depends on another
declaration of the same package, that one is resolved first, through the argument `resolve`; its
meaning is then found in the store.

A reference is known by package and name only, so one to the package that is being resolved is read
as one to its own declaration.  No other kind comes up in a load, where a package that imports
itself, directly or through others, is refused before it is resolved.
-/

namespace DeclBridge.Resolving

variable (env : Surroundings) (resolve : String → Resolving Unit)

/-- What is known of a type so far. -/
def typeInfo (id : SymbolId) : Resolving TypeInfo := do
  if id.package = some env.outline.path then
    let store ← get
    return ((store.symbols.get? id.name).bind Symbol.typeInfo?).getD {}
  else return env.program.typeInfo id

/-- The type of all errors: an interface with one method. -/
def errorInterface : Ty := .interface [] ["Error"]

/-- A type with its parameters replaced by arguments. -/
def instantiate (params : List TypeParam) (args : List Ty) (type : Ty) : Ty :=
  type.subst (.ofList ((params.map (·.name)).zip args))

/-- What a reference to a declared type leads to by one step: the part that `part` takes of its
declaration, with the arguments put in.  A stub leads nowhere. -/
def follow (part : TypeInfo → Option Ty) (id : SymbolId) (args : List Ty) :
    Resolving (Option Ty) := do
  match id.package with
  | none => return if id.name = "error" then some errorInterface else none
  | some path =>
    if path = env.outline.path then resolve id.name
    let info ← typeInfo env id
    return (part info).map (instantiate info.params args)

/-- The structural type behind a type, through at most `count` aliases. -/
def underlyingWithin : (count : Nat) → Ty → Resolving Ty
  | 0, _ => throw (.fault .endlessType)
  | count + 1, t =>
    match t with
    | .named id args => do return (← follow env resolve (·.underlying) id args).getD t
    | .aliased id args => do
      match ← follow env resolve (·.rhs) id args with
      | some aliased => underlyingWithin count aliased
      | none => return t
    | t => return t

def underlying (t : Ty) : Resolving Ty := underlyingWithin env resolve env.limit t

def kindOf (t : Ty) : Resolving (Option Kind) := do
  match t with
  | .basic k => return some k
  | .named .. | .aliased .. =>
    match ← underlying env resolve t with
    | .basic k => return some k
    | _ => return none
  | _ => return none

def imported (scope : Scope) (package name : String) (pos : Position) : Resolving Symbol := do
  match scope.imports.get? package with
  | none => problem (.undefined package) pos
  | some path =>
    match env.program.packages.get? path with
    | none => return { name, package := some path, body := .type {} }
    | some p =>
      match p.symbols.get? name with
      | some symbol =>
        if symbol.exported then return symbol
        else problem (.undefined (package ++ "." ++ name)) pos
      | none => problem (.undefined (package ++ "." ++ name)) pos

def predeclared? (name : String) : Option Ty :=
  match Kind.ofTypeName? name with
  | some kind => some (.basic kind)
  | none =>
    match name with
    | "error" | "comparable" => some (.named ⟨none, name⟩ [])
    | "any" => some (.interface [] [])
    | _ => none

def reference (isAlias : Bool) (id : SymbolId) (args : List Ty) : Ty :=
  if isAlias then .aliased id args else .named id args

def typeNamed (scope : Scope) (params : Table String Ty) (pos : Position)
    (package : Option String) (name : String) (args : List Ty) : Resolving Ty := do
  match package with
  | some package =>
    let symbol ← imported env scope package name pos
    match symbol.body with
    | .const .. => problem (.notAType (package ++ "." ++ name)) pos
    | .type info => return reference info.isAlias symbol.id args
  | none =>
    match params.get? name with
    | some param => return param
    | none =>
      match env.outline.symbols.get? name with
      | some symbol =>
        match symbol.body with
        | .const .. => problem (.notAType name) pos
        | .type _ =>
          -- the declaration says whether it is an alias, also before it is resolved
          let isAlias := (env.outline.types.get? name).any (·.spec.isAlias)
          return reference isAlias symbol.id args
      | none =>
        match predeclared? name with
        | some type => return type
        | none => problem (.undefined name) pos

end DeclBridge.Resolving
