import DeclBridge.Source.Reader.Expr

/-!
# Reading type expressions

Two places in the grammar can be read in more than one way.

* A name before an opening bracket, in a parameter or a struct line, may be the name of something
  with an array type, or a type with arguments.  Only one of the readings can be continued, and it
  may take the whole bracket to tell; both are tried.
* After `chan`, an arrow may belong to the channel or begin a receiving channel as its element.  The
  second reading is taken whenever what follows can be read so: `chan <- chan T` is
  `chan (<-chan T)`.

Everywhere else one token decides.  A type in parentheses leaves no node.

## Nesting

`typeWithin` is a reader for types that nest less than a given depth.  Its parts are readers of
their own which take the reader for the types inside as an argument; the number of tokens is always
depth enough, because something is read before any type inside.
-/

namespace DeclBridge.Reader

variable (inner : Reader TypeExpr)

def qualifiedName : Reader (Option String × String) := do
  let first ← name
  if ← skipIf (.mark .dot) then
    let second ← name
    return (some first, second)
  else return (none, first)

/-- Type arguments, if a bracket follows. -/
def typeArgs : Reader (List TypeExpr) := do
  if ← skipIf (.mark .lsqb) then closed inner .rsqb else return []

def typeName : Reader TypeExpr := do
  let pos ← position
  let (package, name) ← qualifiedName
  let args ← typeArgs inner
  return .ref pos package name args

def arrayOrSlice : Reader TypeExpr := do
  let pos ← position
  mark .lsqb
  if ← skipIf (.mark .rsqb) then return .slice pos (← inner)
  else
    let length ← expr
    mark .rsqb
    let elem ← inner
    return .array pos length elem

def mapType : Reader TypeExpr := do
  let pos ← position
  keyword .map
  mark .lsqb
  let key ← inner
  mark .rsqb
  let elem ← inner
  return .map pos key elem

def chanType : Reader TypeExpr := do
  let pos ← position
  keyword .chan
  either (do return .chan pos .both (← inner))
    (do
      mark .arrow
      return .chan pos .send (← inner))

def recvType : Reader TypeExpr := do
  let pos ← position
  mark .arrow
  keyword .chan
  return .chan pos .recv (← inner)

/-! ## Functions -/

/-- The type of a parameter, and whether dots stand before it. -/
def variadicType : Reader (TypeExpr × Bool) := do
  let dots ← skipIf (.mark .ellipsis)
  let type ← inner
  return (type, dots)

def parameter : Reader (TypeExpr × Bool) :=
  either (do
    let _ ← name
    variadicType inner)
    (variadicType inner)

/-- A parameter list: the types, and whether one of them has dots before it. -/
def parameters : Reader (List TypeExpr × Bool) := do
  mark .lpar
  if ← skipIf (.mark .rpar) then return ([], false)
  else
    let params ← closed (parameter inner) .rpar
    return (params.map (·.1), params.any (·.2))

/-- The kinds of tokens that a type can begin with, other than a parenthesis. -/
def beginsType : TokenKind → Bool
  | .name => true
  | .mark .star | .mark .lsqb | .mark .arrow => true
  | .keyword .map | .keyword .chan | .keyword .func | .keyword .struct | .keyword .interface => true
  | _ => false

/-- The results of a function: a list in parentheses, a type, or nothing. -/
def results : Reader (List TypeExpr) := do
  if ← nextIs (.mark .lpar) then
    let (types, _) ← parameters inner
    return types
  else if ← nextSatisfies beginsType then return [← inner]
  else return []

def signature (pos : Position) : Reader TypeExpr := do
  let (params, variadic) ← parameters inner
  let results ← results inner
  return .func pos params results variadic

def funcType : Reader TypeExpr := do
  let pos ← position
  keyword .func
  signature inner pos

/-! ## Structs and interfaces -/

def stringLiteral : Reader Literal := do
  match ← takeIf fun t => if t.kind = .string ∨ t.kind = .rawString then literal? t else none with
  | some l => return l
  | none => fail

def tag : Reader (Option Literal) :=
  takeIf fun t => if t.kind = .string ∨ t.kind = .rawString then literal? t else none

def namedFields (pos : Position) : Reader (FieldDecl TypeExpr) := do
  let names ← separated name
  let type ← inner
  let tag ← tag
  return .named pos names type tag

def embeddedField (pos : Position) : Reader (FieldDecl TypeExpr) := do
  let pointer ← skipIf (.mark .star)
  let namePos ← position
  let (package, name) ← qualifiedName
  let args ← typeArgs inner
  let tag ← tag
  return .embedded pos pointer ⟨namePos, package, name, !args.isEmpty⟩ tag

def structLine : Reader (FieldDecl TypeExpr) := do
  let pos ← position
  either (namedFields inner pos) (embeddedField inner pos)

def structType : Reader TypeExpr := do
  let pos ← position
  keyword .struct
  mark .lbrace
  let fields ← lines (structLine inner) .rbrace
  return .struct pos fields

def unionTerm : Reader (Term TypeExpr) := do
  let tilde ← skipIf (.mark .tilde)
  let type ← inner
  return ⟨tilde, type⟩

def unionTerms : (count : Nat) → Reader (List (Term TypeExpr))
  | 0 => do return [← unionTerm inner]
  | count + 1 => do
    let t ← unionTerm inner
    if ← skipIf (.mark .bar) then
      let ts ← unionTerms count
      return t :: ts
    else return [t]

/-- A constraint: a union, or the type itself where there is one term without a tilde. -/
def constraint : Reader TypeExpr := do
  let pos ← position
  let terms ← fun ts => unionTerms inner ts.length ts
  match terms with
  | [⟨false, t⟩] => return t
  | terms => return .union pos terms

/-- A line of an interface: the name of a method, or an embedded constraint. -/
def interfaceLine : Reader (String ⊕ TypeExpr) :=
  either (do
    let pos ← position
    let method ← name
    let _ ← signature inner pos
    return .inl method)
    (do return .inr (← constraint inner))

def interfaceType : Reader TypeExpr := do
  let pos ← position
  keyword .interface
  mark .lbrace
  let elements ← lines (interfaceLine inner) .rbrace
  return .interface pos (elements.filterMap Sum.getRight?) (elements.filterMap Sum.getLeft?)

/-! ## Types -/

def parenType : Reader TypeExpr := do
  mark .lpar
  let t ← inner
  mark .rpar
  return t

def pointerType : Reader TypeExpr := do
  let pos ← position
  mark .star
  return .pointer pos (← inner)

def typeOver : Reader TypeExpr := do
  match ← nextKind with
  | some .name => typeName inner
  | some (.mark .lpar) => parenType inner
  | some (.mark .star) => pointerType inner
  | some (.mark .lsqb) => arrayOrSlice inner
  | some (.mark .arrow) => recvType inner
  | some (.keyword .map) => mapType inner
  | some (.keyword .chan) => chanType inner
  | some (.keyword .func) => funcType inner
  | some (.keyword .struct) => structType inner
  | some (.keyword .interface) => interfaceType inner
  | _ => fail

/-- A type that nests less than `depth` deep. -/
def typeWithin : (depth : Nat) → Reader TypeExpr
  | 0 => fail
  | depth + 1 => typeOver (typeWithin depth)

def typeExpr : Reader TypeExpr := fun ts => typeWithin ts.length ts

end DeclBridge.Reader

namespace DeclBridge

def TypeExpr.parse (source : String) : Except ReadError TypeExpr := do
  let t ← (Reader.typeExpr.complete (.ofFragment source)).mapError .text
  t.check.mapError Refusal.readError
  return t

end DeclBridge
