import DeclBridge.Number.Bits
import DeclBridge.Resolution.Problem

/-!
# Constant arithmetic

Operations on constant values.  Integers and fractions are exact; complex numbers are computed in
doubles.  Division of integers drops the fraction and a remainder has the sign of the dividend.  The
kind of the operands' common type decides between the two divisions: with an integer kind every
operand must be a whole number, with any other kind numbers are fractions or complex.
-/

namespace DeclBridge.Constant

open Number

def problem {α : Type} (why : Problem) (pos : Position) : Except Failure α :=
  .error (.problem why pos)

def exactDouble (x : Float) : Except Failure Rat :=
  match rational? x with
  | some q => .ok q
  | none => .error (.fault (if x.isNaN then .notANumber else .beyondDouble))

def wholeNumber (c : Constant) (pos : Position) : Except Failure Int :=
  let whole (q : Rat) : Except Failure Int :=
    if q.den = 1 then .ok q.num else problem (.truncatedToInteger c) pos
  match c with
  | bool _ | str _ | complex _ => problem (.notAnInteger c) pos
  | int n => .ok n
  | rat q => whole q
  | float x => (exactDouble x).bind whole

def nearestDouble (q : Rat) : Except Failure Float :=
  match nearest? q with
  | some x => .ok x
  | none => .error (.fault .beyondDouble)

/-- A number as a fraction; what is no number counts as zero. -/
def toFraction : Constant → Except Failure Rat
  | int n => .ok n
  | rat q => .ok q
  | float x => exactDouble x
  | complex z => exactDouble z.re
  | bool _ | str _ => .ok 0

def toComplex : Constant → Except Failure ComplexDouble
  | complex z => .ok z
  | float x => .ok (.ofReal x)
  | c => do return .ofReal (← nearestDouble (← c.toFraction))

/-! ## Conversion -/

/-- The text that consists of one code point; a number that is none gives the replacement
character. -/
def ofCodePoint (n : Int) : Constant :=
  match n with
  | .ofNat k => if h : k < 0x110000 then str ⟨[⟨k, h⟩]⟩ else str "�"
  | .negSucc _ => str "�"

/-- A number, by now with no imaginary part, as one of a kind. -/
def convertNumber (c : Constant) (kind : Kind) (pos : Position) : Except Failure Constant :=
  if kind.isInteger then (c.wholeNumber pos).map int
  else if kind.isFloat then c.toFraction.map rat
  else if kind.isComplex then c.toComplex.map complex
  else problem (.unsupportedTarget kind) pos

/-- A value as one of a basic kind. -/
def convert (c : Constant) (kind : Kind) (pos : Position) : Except Failure Constant :=
  match c with
  | bool _ =>
    if kind = .bool ∨ kind = .untypedBool then .ok c
    else problem (.cannotConvert c kind.spelling) pos
  | str _ =>
    if kind = .bool ∨ kind = .untypedBool then problem (.cannotConvert c "bool") pos
    else if kind = .string ∨ kind = .untypedString then .ok c
    else problem (.cannotConvert c kind.spelling) pos
  | _ =>
    if kind = .bool ∨ kind = .untypedBool then problem (.cannotConvert c "bool") pos
    else if kind = .string ∨ kind = .untypedString then
      match c with
      | int n => .ok (ofCodePoint n)
      | _ => problem (.cannotConvert c "string") pos
    else
      match c with
      | complex z =>
        if kind.isComplex then .ok c
        else if z.im != 0.0 then problem (.truncatedToReal c) pos
        else do (rat (← exactDouble z.re)).convertNumber kind pos
      | _ => c.convertNumber kind pos

/-! ## Operators -/

def negate : Constant → Constant
  | int n => int (-n)
  | rat q => rat (-q)
  | float x => float (-x)
  | complex z => complex z.neg
  | c => c

/-- The complement of an integer, within the bits of an unsigned kind. -/
def complement (n : Int) (kind : Option Kind) : Int :=
  match kind.bind Kind.unsignedBits? with
  | some bits => bitAnd (bitNot n) (Int.ofNat (powTwo bits) - 1)
  | none => bitNot n

/-- What a comparison makes of the order of its operands. -/
def orderHolds (op : BinaryOp) (order : Ordering) : Bool :=
  match op with
  | .lt => order.isLT
  | .le => order.isLE
  | .gt => order.isGT
  | _ => order.isGE

def compareRat (p q : Rat) : Ordering :=
  if p < q then .lt else if p = q then .eq else .gt

def compareWith (op : BinaryOp) (a b : Constant) (pos : Position) : Except Failure Bool :=
  match op with
  | .eq => .ok (a.same b)
  | .ne => .ok (!a.same b)
  | _ =>
    match a, b with
    | bool _, _ | complex _, _ | _, bool _ | _, complex _ => problem (.unordered op) pos
    | str s, str t => .ok (orderHolds op (compare s t))
    | str _, _ | _, str _ => problem (.mismatchedKinds op) pos
    | _, _ => do return orderHolds op (compareRat (← a.toFraction) (← b.toFraction))

/-- Arithmetic on whole numbers.  The divisor is not zero. -/
def intArith (op : BinaryOp) (a b : Int) : Int :=
  match op with
  | .add => a + b
  | .sub => a - b
  | .mul => a * b
  | .div => a.tdiv b
  | .rem => a.tmod b
  | .bitAnd => bitAnd a b
  | .bitOr => bitOr a b
  | .bitXor => bitXor a b
  | _ => bitClear a b

def ratArith (op : BinaryOp) (a b : Rat) : Rat :=
  match op with
  | .add => a + b
  | .sub => a - b
  | .mul => a * b
  | _ => a / b

def complexArith (op : BinaryOp) (a b : ComplexDouble) : ComplexDouble :=
  match op with
  | .add => a.add b
  | .sub => a.sub b
  | .mul => a.mul b
  | _ => a.div b

/-- Operators that only whole numbers have. -/
def needsIntegers : BinaryOp → Bool
  | .rem | .bitAnd | .bitOr | .bitXor | .bitClear => true
  | _ => false

def isComplex : Constant → Bool
  | complex _ => true
  | _ => false

/-- The result of an arithmetic operator on values of a common type of the given kind. -/
def arith (op : BinaryOp) (a b : Constant) (kind : Option Kind) (pos : Position) :
    Except Failure Constant :=
  match a, b with
  | str s, str t => if op = .add then .ok (str (s ++ t)) else problem (.stringOperands op) pos
  | str _, _ | _, str _ => problem (.stringOperands op) pos
  | bool _, _ | _, bool _ => problem (.boolOperands op) pos
  | _, _ =>
    if (op = .div ∨ op = .rem) ∧ b.same (int 0) then problem .divisionByZero pos
    else if kind.any Kind.isInteger then do
      let m ← a.wholeNumber pos
      let n ← b.wholeNumber pos
      return int (intArith op m n)
    else if needsIntegers op then problem (.nonIntegerOperands op) pos
    else if kind.any Kind.isComplex || a.isComplex || b.isComplex then do
      let z ← a.toComplex
      let w ← b.toComplex
      -- a fraction that is not zero may be too small for a double
      if op = .div ∧ w.isZero then .error (.fault .zeroDivisor)
      else return complex (complexArith op z w)
    else do
      let p ← a.toFraction
      let q ← b.toFraction
      return rat (ratArith op p q)

/-- The greatest number of places that a shift may move. -/
def shiftLimit : Int := 65536

def shift (op : BinaryOp) (a count : Constant) (pos : Position) : Except Failure Constant := do
  let m ← a.wholeNumber pos
  let n ← count.wholeNumber pos
  if n < 0 then problem .negativeShift pos
  else if shiftLimit < n then problem .largeShift pos
  else return int (if op = .shiftLeft then shiftLeft m n.toNat else shiftRight m n.toNat)

end DeclBridge.Constant
