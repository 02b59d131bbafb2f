import DeclBridge.Text.Uppercase
import DeclBridge.Types.Ty

/-!
# Symbols

A symbol is a declared constant or a declared type.  The parts of its meaning may be missing: a
constant has no value when its expression depends on a package that was not loaded, and a type for
which nothing at all is known is a *stub*.
-/

namespace DeclBridge

structure TypeParam where
  name : String
  index : Nat
  constraint : Option Ty
deriving Repr

/-- What is known of a declared type. -/
structure TypeInfo where
  /-- The structural type, for a defined type as for an alias. -/
  underlying : Option Ty := none
  params : List TypeParam := []
  isAlias : Bool := false
  rhs : Option Ty := none
deriving Repr, Inhabited

/-- Whether nothing is known of a type. -/
def TypeInfo.isStub (info : TypeInfo) : Bool :=
  info.underlying.isNone && info.rhs.isNone

inductive SymbolBody where
  | const (value : Option Constant) (type : Option Ty)
  | type (info : TypeInfo)
deriving Repr

structure Symbol where
  name : String
  package : Option String
  span : Span := {}
  body : SymbolBody
deriving Repr

/-- A name is exported when it begins with an upper-case letter. -/
def isExported (name : String) : Bool :=
  name.toList.head?.any Text.isUppercase

namespace SymbolId

/-- A symbol's name with its package in front. -/
def qualified (id : SymbolId) : String :=
  match id.package with
  | some path => path ++ "." ++ id.name
  | none => id.name

end SymbolId

namespace Symbol

def id (s : Symbol) : SymbolId := ⟨s.package, s.name⟩

def exported (s : Symbol) : Bool := isExported s.name

def typeInfo? (s : Symbol) : Option TypeInfo :=
  match s.body with
  | .type info => some info
  | .const .. => none

def types (s : Symbol) : List Ty :=
  match s.body with
  | .const _ type => type.toList
  | .type info =>
    info.params.filterMap (·.constraint) ++ info.rhs.toList ++ info.underlying.toList

/-- Whether one symbol stands before another, by name and then by place. -/
def le (a b : Symbol) : Bool :=
  ((compare a.name b.name).then (Span.compareKeys a.span.sortKey b.span.sortKey)) != .gt

/-- Symbols by name and then by place; those that agree in both keep their order. -/
def sort (symbols : List Symbol) : List Symbol :=
  symbols.mergeSort le

end Symbol

end DeclBridge
