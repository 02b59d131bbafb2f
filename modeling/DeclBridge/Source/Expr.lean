import DeclBridge.Source.Literal

/-!
# Constant expressions

The expressions that constants and array lengths are written with.  Every node carries the place of
its first token; parentheses leave no node of their own.  Literals are kept as they are spelled:
`Expr.check` reads them all, from left to right, and reports the first that spells no value.
-/

namespace DeclBridge

inductive UnaryOp where
  | plus | minus | not | complement
deriving DecidableEq, Repr, Inhabited

inductive BinaryOp where
  | or | and
  | eq | ne | lt | le | gt | ge
  | add | sub | bitOr | bitXor
  | mul | div | rem | shiftLeft | shiftRight | bitAnd | bitClear
deriving DecidableEq, Repr, Inhabited

def UnaryOp.spelling : UnaryOp → String
  | .plus => "+"
  | .minus => "-"
  | .not => "!"
  | .complement => "^"

def BinaryOp.spelling : BinaryOp → String
  | .or => "||"
  | .and => "&&"
  | .eq => "=="
  | .ne => "!="
  | .lt => "<"
  | .le => "<="
  | .gt => ">"
  | .ge => ">="
  | .add => "+"
  | .sub => "-"
  | .bitOr => "|"
  | .bitXor => "^"
  | .mul => "*"
  | .div => "/"
  | .rem => "%"
  | .shiftLeft => "<<"
  | .shiftRight => ">>"
  | .bitAnd => "&"
  | .bitClear => "&^"

inductive Expr where
  | lit (pos : Position) (literal : Literal)
  | ident (pos : Position) (name : String)
  /-- A name qualified by what is before the point. -/
  | select (pos : Position) (value : Expr) (name : String)
  | unary (pos : Position) (op : UnaryOp) (operand : Expr)
  | binary (pos : Position) (op : BinaryOp) (left right : Expr)
  /-- A conversion, or the length of a string. -/
  | call (pos : Position) (callee argument : Expr)
deriving DecidableEq, Repr, Inhabited

namespace Expr

/-- Refuses an expression with a literal that spells no value. -/
def check : Expr → Except Refusal Unit
  | lit p l => (l.constant p).map fun _ => ()
  | ident _ _ => .ok ()
  | select _ x _ => x.check
  | unary _ _ x => x.check
  | binary _ _ x y => do
    x.check
    y.check
  | call _ f x => do
    f.check
    x.check

end Expr

end DeclBridge
