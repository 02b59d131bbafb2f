import DeclBridge.Source.File
import DeclBridge.Source.Reader

/-!
# Reading constant expressions

Five levels of binary operators, each grouping to the left, over unary operators, over selections
and calls.  One token decides at every point, so reading an expression never has to be taken back.

## Shape of an expression

* `expr` — the levels from `||` down to `*`, each a `chain` of operands of the next.
* `unary` — any number of operators with one operand, then a primary expression.
* `primary` — an operand with selections `.name` and calls `(expr)` after it.
* `operand` — a literal, a name, or an expression in parentheses, which leave no trace but the place
  of the nodes that begin with them.
-/

namespace DeclBridge.Reader

/-- The operators of the loosest level. -/
def orOp? : TokenKind → Option BinaryOp
  | .mark .orOr => some .or
  | _ => none

/-- The operators of the second level. -/
def andOp? : TokenKind → Option BinaryOp
  | .mark .andAnd => some .and
  | _ => none

def relationOp? : TokenKind → Option BinaryOp
  | .mark .equalEqual => some .eq
  | .mark .notEqual => some .ne
  | .mark .less => some .lt
  | .mark .lessEqual => some .le
  | .mark .greater => some .gt
  | .mark .greaterEqual => some .ge
  | _ => none

/-- The operators of addition's level. -/
def sumOp? : TokenKind → Option BinaryOp
  | .mark .plus => some .add
  | .mark .minus => some .sub
  | .mark .bar => some .bitOr
  | .mark .circumflex => some .bitXor
  | _ => none

/-- The operators of multiplication's level. -/
def productOp? : TokenKind → Option BinaryOp
  | .mark .star => some .mul
  | .mark .slash => some .div
  | .mark .percent => some .rem
  | .mark .shiftLeft => some .shiftLeft
  | .mark .shiftRight => some .shiftRight
  | .mark .ampersand => some .bitAnd
  | .mark .andNot => some .bitClear
  | _ => none

def unaryOp? : TokenKind → Option UnaryOp
  | .mark .plus => some .plus
  | .mark .minus => some .minus
  | .mark .bang => some .not
  | .mark .circumflex => some .complement
  | _ => none

def literalKind? : TokenKind → Option LiteralKind
  | .int => some .int
  | .float => some .float
  | .imag => some .imag
  | .char => some .char
  | .string => some .string
  | .rawString => some .rawString
  | _ => none

def literal? (t : Token) : Option Literal :=
  (literalKind? t.kind).map (⟨·, t.text⟩)

/-- An operand, given a reader for the expression in parentheses. -/
def operand (inner : Reader Expr) : Reader Expr := do
  let pos ← position
  match ← takeIf literal? with
  | some l => return .lit pos l
  | none =>
    if ← skipIf (.mark .lpar) then
      let x ← inner
      mark .rpar
      return x
    else return .ident pos (← name)

/-- The selections and calls after an operand, at most `count`. -/
def selections (inner : Reader Expr) (pos : Position) : (count : Nat) → Expr → Reader Expr
  | 0, x => return x
  | count + 1, x => do
    if ← skipIf (.mark .dot) then
      let n ← name
      selections inner pos count (.select pos x n)
    else if ← skipIf (.mark .lpar) then
      let y ← inner
      let _ ← skipIf (.mark .comma)
      mark .rpar
      selections inner pos count (.call pos x y)
    else return x

def primary (inner : Reader Expr) : Reader Expr := do
  let pos ← position
  let x ← operand inner
  fun ts => selections inner pos ts.length x ts

/-- At most `count` operators with one operand, then a primary expression. -/
def unaryFrom (inner : Reader Expr) : (count : Nat) → Reader Expr
  | 0 => primary inner
  | count + 1 => do
    let pos ← position
    match ← takeIf (unaryOp? ·.kind) with
    | some op => return .unary pos op (← unaryFrom inner count)
    | none => primary inner

/-- Operators with one operand, then a primary expression. -/
def unary (inner : Reader Expr) : Reader Expr := fun ts =>
  unaryFrom inner ts.length ts

/-- At most `count` operators of one level with the operands after them. -/
def chainFrom (op? : TokenKind → Option BinaryOp) (next : Reader Expr) (pos : Position) :
    (count : Nat) → Expr → Reader Expr
  | 0, x => return x
  | count + 1, x => do
    match ← takeIf (op? ·.kind) with
    | some op =>
      let y ← next
      chainFrom op? next pos count (.binary pos op x y)
    | none => return x

/-- Operands with the operators of one level between them, grouped to the left. -/
def chain (op? : TokenKind → Option BinaryOp) (next : Reader Expr) : Reader Expr := do
  let pos ← position
  let x ← next
  fun ts => chainFrom op? next pos ts.length x ts

/-- An expression with parentheses nested less than `depth` deep. -/
def exprWithin : (depth : Nat) → Reader Expr
  | 0 => fail
  | depth + 1 =>
    chain orOp? <| chain andOp? <| chain relationOp? <| chain sumOp? <| chain productOp? <|
      unary (exprWithin depth)

def expr : Reader Expr := fun ts => exprWithin ts.length ts

end DeclBridge.Reader

namespace DeclBridge

def Expr.parse (source : String) : Except ReadError Expr := do
  let x ← (Reader.expr.complete (.ofFragment source)).mapError .text
  x.check.mapError Refusal.readError
  return x

end DeclBridge
