import DeclBridge.Resolution.Evaluation

/-!
# The meaning of type expressions

`typeOf` recurses on what is written and gives the resolved type.  The lengths of arrays are
constant expressions, and what an interface embeds is resolved before the interface is.
-/

namespace DeclBridge.Resolving

variable (env : Surroundings) (resolve : String → Resolving Unit)

def tagText (pos : Position) (tag : Option Literal) : Resolving String :=
  match tag with
  | some l => lift (l.stringValue.mapError (Failure.ofRefusal pos))
  | none => return ""

def lineFields (scope : Scope) (pos : Position) (type : Ty) (tag : String) (embedded : Bool)
    (seen : List String) : List String → Resolving (List (Field Ty))
  | [] => return []
  | name :: names => do
    if name ≠ "_" ∧ name ∈ seen then problem (.duplicateField name) pos
    else
      let field := {
        name, type, tag, embedded, exported := isExported name, span := .ofPosition scope.file pos }
      return field :: (← lineFields scope pos type tag embedded (name :: seen) names)

def arrayLength (scope : Scope) (pos : Position) (length : Expr) : Resolving Int := do
  match (← eval env resolve scope none length).value with
  | some (.int n) => if 0 ≤ n then return n else problem .arrayLength pos
  | _ => problem .arrayLength pos

mutual

/-- The type that a type expression stands for, where `params` are the type parameters in reach. -/
def typeOf (scope : Scope) (params : Table String Ty) : TypeExpr → Resolving Ty
  | .ref pos package name args => do
    let args ← typesOf scope params args
    typeNamed env scope params pos package name args
  | .pointer _ elem => do return .pointer (← typeOf scope params elem)
  | .slice _ elem => do return .slice (← typeOf scope params elem)
  | .array pos length elem => do
    let n ← arrayLength env resolve scope pos length
    return .array (← typeOf scope params elem) n
  | .map _ key elem => do
    let key ← typeOf scope params key
    return .map key (← typeOf scope params elem)
  | .chan _ dir elem => do return .chan (← typeOf scope params elem) dir
  | .func _ ps rs variadic => do
    let ps ← typesOf scope params ps
    return .func ps (← typesOf scope params rs) variadic
  | .struct _ fields => do return .struct (← fieldsOf scope params [] fields)
  | .interface _ embeds methods => do
    let embeds ← typesOf scope params embeds
    -- what is embedded must be complete before the interface is
    embeds.forM fun t => do let _ ← underlying env resolve t
    return .interface embeds methods
  | .union _ terms => do return .union (← termsOf scope params terms)
termination_by structural t => t

def typesOf (scope : Scope) (params : Table String Ty) : List TypeExpr → Resolving (List Ty)
  | [] => return []
  | t :: ts => do
    let type ← typeOf scope params t
    return type :: (← typesOf scope params ts)
termination_by structural ts => ts

/-- The fields that the lines of a struct declare after fields with the names `seen`. -/
def fieldsOf (scope : Scope) (params : Table String Ty) (seen : List String) :
    List (FieldDecl TypeExpr) → Resolving (List (Field Ty))
  | [] => return []
  | d :: ds => do
    let fields ← fieldOf scope params seen d
    return fields ++ (← fieldsOf scope params (fields.map (·.name) ++ seen) ds)
termination_by structural ds => ds

def fieldOf (scope : Scope) (params : Table String Ty) (seen : List String) :
    FieldDecl TypeExpr → Resolving (List (Field Ty))
  | .named pos names t tag => do
    let type ← typeOf scope params t
    lineFields scope pos type (← tagText pos tag) false seen names
  | .embedded pos pointer n tag => do
    let type ← typeNamed env scope params n.pos n.package n.name []
    lineFields scope pos (if pointer then .pointer type else type) (← tagText pos tag) true seen
      [n.name]
termination_by structural d => d

def termsOf (scope : Scope) (params : Table String Ty) :
    List (Term TypeExpr) → Resolving (List (Term Ty))
  | [] => return []
  | t :: ts => do
    let term ← termOf scope params t
    return term :: (← termsOf scope params ts)
termination_by structural ts => ts

def termOf (scope : Scope) (params : Table String Ty) : Term TypeExpr → Resolving (Term Ty)
  | ⟨tilde, t⟩ => do return ⟨tilde, ← typeOf scope params t⟩
termination_by structural t => t

end

end DeclBridge.Resolving
