import DeclBridge.Resolution.Meaning

/-!
# Resolving a package

The symbols of a package are resolved in the order of their declaration, each with what it depends
on before it.  A symbol that is needed while its own resolution has only started is part of a cycle.
Every problem is reported once, for the declaration that was being resolved, and the package is
accepted when there is none.

Each nested resolution starts another symbol, so the number of symbols bounds the depth.
-/

namespace DeclBridge

namespace Resolving

def setBody (name : String) (body : SymbolBody) : Resolving Unit :=
  modify fun store =>
    { store with symbols := store.symbols.modify name fun symbol => { symbol with body } }

def setProgress (name : String) (progress : Progress) : Resolving Unit :=
  modify fun store => { store with progress := store.progress.insert name progress }

/-- The type parameters of a declaration as types, by name, each with the count of names before. -/
def paramTypes (decls : List TypeParamDecl) : Table String Ty :=
  let names := decls.flatMap (·.names)
  names.foldl (fun params name => params.insert name (.param name params.size)) {}

/-- The number of a type parameter. -/
def paramIndex (params : Table String Ty) (name : String) : Nat :=
  match params.get? name with
  | some (.param _ index) => index
  | _ => 0

section

variable (env : Surroundings) (resolve : String → Resolving Unit)

/-- The type parameters of a declaration with their constraints. -/
def paramsOf (scope : Scope) (params : Table String Ty) :
    List TypeParamDecl → Resolving (List TypeParam)
  | [] => return []
  | decl :: decls => do
    let constraint ← typeOf env resolve scope params decl.constraint
    let here := decl.names.map fun name => ⟨name, paramIndex params name, some constraint⟩
    return here ++ (← paramsOf scope params decls)

/-- Resolves a declared type: its parameters, what it stands for, and the structure behind it. -/
def resolveType (name : String) (decl : TypeDecl) : Resolving Unit := do
  let paramTable := paramTypes decl.spec.params
  let params ← paramsOf env resolve decl.scope paramTable decl.spec.params
  let info : TypeInfo := { params }
  setBody name (.type info)
  let type ← typeOf env resolve decl.scope paramTable decl.spec.type
  let info := if decl.spec.isAlias then { info with isAlias := true, rhs := some type } else info
  setBody name (.type info)
  let behind ← underlying env resolve type
  setBody name (.type { info with underlying := some behind })

def resolveConst (name : String) (decl : ConstDecl) : Resolving Unit := do
  let x ← eval env resolve decl.scope (some decl.spec.iota) decl.value
  let x ← match decl.spec.type with
    | some t => do
      let target ← typeOf env resolve decl.scope {} t
      convert env resolve x target decl.spec.pos
    | none => pure x
  setBody name (.const x.value (if x.type.isUntyped then none else some x.type))

/-- Resolves a declaration by the lines of its kind.  A name without one is a fault: what is written
in the package refers to its own declarations only, but a package that imports itself, or one that
was loaded before, may refer to another. -/
def resolveBody (name : String) : Resolving Unit := do
  match env.outline.symbols.get? name with
  | none => throw (.fault (.undeclared name))
  | some symbol =>
    match symbol.body with
    | .type _ =>
      match env.outline.types.get? name with
      | some decl => resolveType env resolve name decl
      | none => return
    | .const .. =>
      match env.outline.consts.get? name with
      | some decl => resolveConst env resolve name decl
      | none => return

end

/-- Resolves a symbol, unless that was tried before, within a depth of `count` symbols. -/
def resolveSymbol (env : Surroundings) : (count : Nat) → String → Resolving Unit
  | 0, _ => throw (.fault .endlessType)
  | count + 1, name => do
    match (← get).progress.get? name with
    | some .started => problem (.recursive name) (env.outline.placeOf name)
    | some _ => return
    | none =>
      setProgress name .started
      try resolveBody env (resolveSymbol env count) name
      catch failure =>
        setProgress name .failed
        throw failure
      setProgress name .done

end Resolving

namespace Outline

/-- Resolves symbols one after another and gathers what is reported of them. -/
def resolveAll (env : Surroundings) (store : Store) :
    List String → Except Fault (Store × List Diagnostic)
  | [] => .ok (store, [])
  | name :: names => do
    let depth := env.outline.symbols.size + 1
    let (result, store) := (Resolving.resolveSymbol env depth name).run.run store
    let reported ← match result with
      | .ok _ => pure []
      | .error (.problem why pos) => do
        pure [← why.diagnostic (env.outline.fileOf name) pos]
      | .error (.fault why) => .error why
    let (store, more) ← resolveAll env store names
    return (store, reported ++ more)

/-- What is reported of names that are declared again. -/
def redeclarations (o : Outline) : Except Fault (List Diagnostic) :=
  o.redeclared.mapM fun (why, file, pos) => why.diagnostic file pos

/-- The package with a given outline, in a program that holds what it imports, where no more than
`limit` aliases are followed in a row. -/
def resolveWithin (limit : Nat) (o : Outline) (program : Program) : Except LoadFailure Package := do
  let redeclared ← o.redeclarations.mapError .fault
  let (store, reported) ←
    (resolveAll ⟨o, program, limit⟩ { symbols := o.symbols } o.symbols.keys).mapError .fault
  let diagnostics := redeclared ++ reported
  if diagnostics.isEmpty then
    return { path := o.path, name := o.name, symbols := store.symbols, imports := o.imports,
             files := o.files }
  else .error (.error ⟨o.path, .unresolved, diagnostics⟩)

/-- The length of the longest chain of aliases that is followed. -/
def aliasLimit : Nat := 1000

def resolve (o : Outline) (program : Program) : Except LoadFailure Package :=
  o.resolveWithin aliasLimit program

end Outline

end DeclBridge
