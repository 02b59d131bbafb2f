import DeclBridge.Number.Style

/-!
# Complex numbers with double parts

Sums and products go by parts.  A quotient scales by the larger part of the divisor first, which
keeps the intermediate values in range; when the parts cannot be compared the result is not a
number.
-/

namespace DeclBridge.Number

structure ComplexDouble where
  re : Float
  im : Float
deriving DecidableEq, Repr

namespace ComplexDouble

def ofReal (x : Float) : ComplexDouble := ⟨x, 0.0⟩

def add (a b : ComplexDouble) : ComplexDouble := ⟨a.re + b.re, a.im + b.im⟩

def sub (a b : ComplexDouble) : ComplexDouble := ⟨a.re - b.re, a.im - b.im⟩

def mul (a b : ComplexDouble) : ComplexDouble :=
  ⟨a.re * b.re - a.im * b.im, a.re * b.im + a.im * b.re⟩

def neg (a : ComplexDouble) : ComplexDouble := ⟨-a.re, -a.im⟩

def nan : Float := Float.ofBits 0x7FF8000000000000

/-- The quotient, scaled by the larger part of the divisor. -/
def div (a b : ComplexDouble) : ComplexDouble :=
  if b.re.abs ≥ b.im.abs then
    let ratio := b.im / b.re
    let denominator := b.re + b.im * ratio
    ⟨(a.re + a.im * ratio) / denominator, (a.im - a.re * ratio) / denominator⟩
  else if b.im.abs ≥ b.re.abs then
    let ratio := b.re / b.im
    let denominator := b.re * ratio + b.im
    ⟨(a.re * ratio + a.im) / denominator, (a.im * ratio - a.re) / denominator⟩
  else ⟨nan, nan⟩

def isZero (a : ComplexDouble) : Bool := a.re == 0.0 && a.im == 0.0

/-- A complex number as messages show it: the imaginary part alone when the real part is plain zero,
otherwise both parts in parentheses. -/
def text (a : ComplexDouble) : String :=
  if a.re.toBits == 0 then Style.complexPart.text a.im ++ "j"
  else "(" ++ Style.complexPart.text a.re ++ Style.complexPart.signedText a.im ++ "j)"

end ComplexDouble

end DeclBridge.Number
