/-!
# Powers of the two bases

Numbers are held with a power of two and written with a power of ten.
-/

namespace DeclBridge.Number

def powTwo (n : Nat) : Nat := Nat.pow 2 n

def powTen (n : Nat) : Nat := Nat.pow 10 n

end DeclBridge.Number
