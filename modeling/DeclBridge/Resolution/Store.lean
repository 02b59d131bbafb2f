import DeclBridge.Resolution.Arithmetic
import DeclBridge.Resolution.Outline

/-!
# The store of a resolution

The `Store` holds the symbols of a package as far as they are resolved and, for each, how far its
resolution has come.  A problem does not undo what was stored before it: a type whose body has a
problem keeps its parameters.
-/

namespace DeclBridge

/-- How far the resolution of a symbol has come. -/
inductive Progress where
  | started | failed | done
deriving DecidableEq, Repr

/-- The symbols of a package as far as they are resolved. -/
structure Store where
  symbols : Table String Symbol
  progress : Table String Progress := {}
deriving Repr

/-- Computations that resolve symbols on their way.  The store is kept also when they fail. -/
abbrev Resolving := ExceptT Failure (StateM Store)

/-- A constant operand: its value, unless that is unknown, and its type. -/
structure Operand where
  value : Option Constant
  type : Ty
deriving Repr

/-- What declarations are resolved in: the package's own outline, and the packages loaded before. -/
structure Surroundings where
  outline : Outline
  program : Program
  /-- The length of the longest chain of aliases that is followed. -/
  limit : Nat
deriving Repr

def LiteralKind.untyped : LiteralKind → Kind
  | .int => .untypedInt
  | .char => .untypedRune
  | .float => .untypedFloat
  | .imag => .untypedComplex
  | .string | .rawString => .untypedString

def Constant.untypedKind : Option Constant → Kind
  | some (.bool _) => .untypedBool
  | some (.str _) => .untypedString
  | some (.complex _) => .untypedComplex
  | some (.rat _) | some (.float _) => .untypedFloat
  | some (.int _) | none => .untypedInt

namespace Resolving

/-- A result that needs no store. -/
def lift {α : Type} (r : Except Failure α) : Resolving α := ExceptT.mk (pure r)

def problem {α : Type} (why : Problem) (pos : Position) : Resolving α :=
  throw (.problem why pos)

def constant (value : Option Constant) (type : Option Ty) : Operand :=
  ⟨value, type.getD (.basic (Constant.untypedKind value))⟩

end Resolving

end DeclBridge
