import DeclBridge.Source.Expr
import DeclBridge.Types.Kind

/-!
# Problems of declarations

What can be wrong with a declaration that is written correctly: a name without a meaning, a cycle,
or a constant expression without a value.  A `Problem` has a place and a message, and the other
declarations of the package are still resolved after it.  A `Failure` is a problem, or a fault that
ends the resolution of the package at once.
-/

namespace DeclBridge

inductive Problem where
  /-- The name is already declared, at the given place. -/
  | redeclared (name : String) (previous : Span)
  /-- The declaration needs its own meaning. -/
  | recursive (name : String)
  | undefined (name : String)
  | notAType (name : String)
  | notAnExpression (name : String)
  | arrayLength
  | duplicateField (name : String)
  | literal (why : Invalid)
  /-- An expression of a form that no constant has. -/
  | notConstant
  /-- The line number of a constant group, used elsewhere. -/
  | iotaOutside
  | lengthArgument
  | nonBasicTarget
  | unsupportedTarget (kind : Kind)
  | cannotConvert (value : Constant) (target : String)
  | truncatedToReal (value : Constant)
  | truncatedToInteger (value : Constant)
  | notAnInteger (value : Constant)
  /-- The negation of something that is no truth value. -/
  | negatedNonBool
  | complementedNonInteger
  | undefinedOperator (op : UnaryOp) (value : Constant)
  | nonBoolOperands (op : BinaryOp)
  | stringOperands (op : BinaryOp)
  | boolOperands (op : BinaryOp)
  | nonIntegerOperands (op : BinaryOp)
  /-- An order asked of values that have none. -/
  | unordered (op : BinaryOp)
  | mismatchedTypes (op : BinaryOp)
  | mismatchedKinds (op : BinaryOp)
  | divisionByZero
  | negativeShift
  | largeShift
deriving Repr

inductive Failure where
  | problem (why : Problem) (pos : Position)
  | fault (why : Fault)
deriving Repr

/-- The failure to read a literal, at a place. -/
def Failure.ofRefusal (pos : Position) : Refusal → Failure
  | .invalid why => .problem (.literal why) pos
  | .fault why => .fault why

namespace Problem

/-- What is said of an operator that some operands do not have. -/
def operatorText (op what : String) : String :=
  "operator " ++ op ++ " not defined on " ++ what

/-- What is said of a problem.  There is nothing to say where a value in it cannot be written. -/
def message : Problem → Except Fault String
  | redeclared name previous =>
    .ok (name ++ " redeclared in this block (previous declaration at " ++ previous.text ++ ")")
  | recursive name => .ok ("invalid recursive declaration of " ++ name)
  | undefined name => .ok ("undefined: " ++ name)
  | notAType name => .ok (name ++ " is not a type")
  | notAnExpression name => .ok (name ++ " is not an expression")
  | arrayLength => .ok "array length must be a non-negative integer constant"
  | duplicateField name => .ok ("duplicate field " ++ name)
  | literal why => .ok why.message
  | notConstant => .ok "invalid constant expression"
  | iotaOutside => .ok "cannot use iota outside constant declaration"
  | lengthArgument => .ok "invalid argument for len"
  | nonBasicTarget => .ok "cannot convert constant to non-basic type"
  | unsupportedTarget kind => .ok ("cannot convert constant to " ++ kind.spelling)
  | cannotConvert value target => do
    return "cannot convert " ++ (← value.cited) ++ " to " ++ target
  | truncatedToReal value => do return "constant " ++ (← value.plain) ++ " truncated to real"
  | truncatedToInteger value => do return "constant " ++ (← value.plain) ++ " truncated to integer"
  | notAnInteger value => do return "constant " ++ (← value.cited) ++ " is not an integer"
  | negatedNonBool => .ok (operatorText "!" "non-bool constant")
  | complementedNonInteger => .ok (operatorText "^" "non-integer constant")
  | undefinedOperator op value => do return operatorText op.spelling (← value.cited)
  | nonBoolOperands op => .ok (operatorText op.spelling "non-bool constants")
  | stringOperands op => .ok (operatorText op.spelling "string constants")
  | boolOperands op => .ok (operatorText op.spelling "bool constants")
  | nonIntegerOperands op => .ok (operatorText op.spelling "non-integer constants")
  | unordered op => .ok (operatorText op.spelling "this constant kind")
  | mismatchedTypes op => .ok ("invalid operation: mismatched types in " ++ op.spelling)
  | mismatchedKinds op => .ok ("invalid operation: mismatched constant kinds in " ++ op.spelling)
  | divisionByZero => .ok "invalid operation: division by zero"
  | negativeShift => .ok "invalid shift count"
  | largeShift => .ok "shift count too large"

end Problem

end DeclBridge
