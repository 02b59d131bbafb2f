import DeclBridge.Resolution.Reference

/-!
# The value of constant expressions

`eval` recurses on an expression and gives the value and the type of a constant.  The value is
unknown where it comes from a package that was not loaded; operators pass that on.
-/

namespace DeclBridge.Resolving

variable (env : Surroundings) (resolve : String → Resolving Unit)

/-- An operand converted to a type.  A constant of a type of which nothing is known keeps its value
as it is. -/
def convert (x : Operand) (target : Ty) (pos : Position) : Resolving Operand := do
  match ← kindOf env resolve target with
  | some kind =>
    match x.value with
    | none => return ⟨none, target⟩
    | some value => return ⟨some (← lift (value.convert kind pos)), target⟩
  | none =>
    match target with
    | .named id _ | .aliased id _ =>
      if (← typeInfo env id).isStub then return ⟨x.value, target⟩
      else problem .nonBasicTarget pos
    | _ => problem .nonBasicTarget pos

def unary (op : UnaryOp) (pos : Position) (x : Operand) : Resolving Operand := do
  match op, x.value with
  | _, none => return x
  | .not, some (.bool b) => return ⟨some (.bool !b), x.type⟩
  | .not, some _ => problem .negatedNonBool pos
  | op, some (.bool b) => problem (.undefinedOperator op (.bool b)) pos
  | op, some (.str t) => problem (.undefinedOperator op (.str t)) pos
  | .plus, some _ => return x
  | .minus, some value => return ⟨some value.negate, x.type⟩
  | .complement, some (.int n) =>
    return ⟨some (.int (Constant.complement n (← kindOf env resolve x.type))), x.type⟩
  | .complement, some _ => problem .complementedNonInteger pos

/-- The common type of two operands.  A typed operand decides for an untyped one; of two untyped
numbers the one of the wider kind decides. -/
def commonType (op : BinaryOp) (pos : Position) (x y : Operand) : Resolving Ty := do
  let xKind ← kindOf env resolve x.type
  let yKind ← kindOf env resolve y.type
  match x.type.isUntyped, y.type.isUntyped with
  | false, false =>
    if x.type.same y.type then return x.type else problem (.mismatchedTypes op) pos
  | false, true => return x.type
  | true, false => return y.type
  | true, true =>
    match xKind.bind Kind.untypedRank?, yKind.bind Kind.untypedRank? with
    | some m, some n => return if n ≤ m then x.type else y.type
    | _, _ => if xKind = yKind then return x.type else problem (.mismatchedKinds op) pos

def isComparison : BinaryOp → Bool
  | .eq | .ne | .lt | .le | .gt | .ge => true
  | _ => false

/-- The result of a shift: its type is that of the left operand. -/
def shift (op : BinaryOp) (pos : Position) (x y : Operand) : Resolving Operand := do
  let type := if x.type.isUntyped then .basic .untypedInt else x.type
  match x.value, y.value with
  | some a, some n => return ⟨some (← lift (a.shift op n pos)), type⟩
  | _, _ => return ⟨none, type⟩

/-- The result of an operator with two operands, unknown when one of theirs is. -/
def binary (op : BinaryOp) (pos : Position) (x y : Operand) : Resolving Operand := do
  if op = .shiftLeft ∨ op = .shiftRight then shift op pos x y
  else
    let type ← commonType env resolve op pos x y
    let resultType := if isComparison op then .basic .untypedBool else type
    match x.value, y.value with
    | some a, some b =>
      if isComparison op then
        return ⟨some (.bool (← lift (Constant.compareWith op a b pos))), resultType⟩
      else if op = .and ∨ op = .or then
        match a, b with
        | .bool p, .bool q => return ⟨some (.bool (if op = .and then p && q else p || q)), type⟩
        | _, _ => problem (.nonBoolOperands op) pos
      else
        let kind ← kindOf env resolve type
        return ⟨some (← lift (Constant.arith op a b kind pos)), type⟩
    | _, _ => return ⟨none, resultType⟩

/-- The value of a name: a constant of the package, the line number of a constant group, or a truth
value. -/
def evalName (iota : Option Nat) (pos : Position) (name : String) : Resolving Operand := do
  match env.outline.symbols.get? name with
  | some symbol =>
    match symbol.body with
    | .type _ => problem (.notAnExpression name) pos
    | .const .. =>
      resolve name
      let store ← get
      let body : Option SymbolBody := (store.symbols.get? name).map (·.body)
      match body with
      | some (.const value type) => return constant value type
      | _ => problem (.notAnExpression name) pos
  | none =>
    match name with
    | "iota" =>
      match iota with
      | some n => return ⟨some (.int n), .basic .untypedInt⟩
      | none => problem .iotaOutside pos
    | "true" => return ⟨some (.bool true), .basic .untypedBool⟩
    | "false" => return ⟨some (.bool false), .basic .untypedBool⟩
    | _ => problem (.undefined name) pos

/-- The value of a name of another package.  Through a package that was not loaded it is unknown. -/
def evalImported (scope : Scope) (pos : Position) (package name : String) : Resolving Operand := do
  let symbol ← imported env scope package name pos
  match symbol.body with
  | .const value type => return constant value type
  | .type info =>
    if info.isStub then return ⟨none, .basic .untypedInt⟩
    else problem (.notAnExpression (package ++ "." ++ name)) pos

/-- The length of a string in bytes. -/
def lengthOf (pos : Position) (x : Operand) : Resolving Operand := do
  match x.value with
  | none => return ⟨none, .basic .int⟩
  | some (.str t) =>
    match t.toString? with
    | some s => return ⟨some (.int s.utf8ByteSize), .basic .int⟩
    | none => throw (.fault .loneSurrogate)
  | some _ => problem .lengthArgument pos

def eval (scope : Scope) (iota : Option Nat) : Expr → Resolving Operand
  | .lit pos l => do
    let value ← lift ((l.constant pos).mapError (Failure.ofRefusal pos))
    return ⟨some value, .basic l.kind.untyped⟩
  | .ident pos name => evalName env resolve iota pos name
  | .select pos x name =>
    match x with
    | .ident _ package => evalImported env scope pos package name
    | _ => problem .notConstant pos
  | .unary pos op x => do unary env resolve op pos (← eval scope iota x)
  | .binary pos op x y => do
    let left ← eval scope iota x
    let right ← eval scope iota y
    binary env resolve op pos left right
  | .call pos callee x =>
    match callee with
    | .ident calleePos name => do
      if name = "len" ∧ !env.outline.symbols.contains name then
        lengthOf pos (← eval scope iota x)
      else
        let target ← typeNamed env scope {} calleePos none name []
        convert env resolve (← eval scope iota x) target pos
    | .select calleePos (.ident _ package) name => do
      let target ← typeNamed env scope {} calleePos (some package) name []
      convert env resolve (← eval scope iota x) target pos
    | _ => problem .notConstant pos

end DeclBridge.Resolving
