import DeclBridge.Number.Power

/-!
# Bitwise operations on integers

An integer is read as an infinite two's-complement word, so a negative number has ones all the way
to the left and the complement of `n` is `-n - 1`.  The operations on natural numbers do the work; a
negative operand enters through its complement, which is a natural number.
-/

namespace DeclBridge.Number

def bitNot (a : Int) : Int := -a - 1

def bitAnd : Int → Int → Int
  | .ofNat m, .ofNat n => .ofNat (m &&& n)
  | .ofNat m, .negSucc n => .ofNat (m - (m &&& n))
  | .negSucc m, .ofNat n => .ofNat (n - (n &&& m))
  | .negSucc m, .negSucc n => .negSucc (m ||| n)

def bitOr (a b : Int) : Int := bitNot (bitAnd (bitNot a) (bitNot b))

/-- The bits set in the first and not in the second. -/
def bitClear (a b : Int) : Int := bitAnd a (bitNot b)

/-- The bits set in exactly one. -/
def bitXor (a b : Int) : Int := bitOr (bitClear a b) (bitClear b a)

def shiftLeft (a : Int) (n : Nat) : Int := a * Int.ofNat (powTwo n)

/-- A shift towards the low bits, which rounds down. -/
def shiftRight (a : Int) (n : Nat) : Int := a / Int.ofNat (powTwo n)

end DeclBridge.Number
