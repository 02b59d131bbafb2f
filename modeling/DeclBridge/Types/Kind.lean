/-!
# Basic kinds

The predeclared types of the source language, and the kinds that untyped constants have.
-/

namespace DeclBridge

/-- A predeclared type, or the kind of an untyped constant. -/
inductive Kind where
  | bool
  | int | int8 | int16 | int32 | int64
  | uint | uint8 | uint16 | uint32 | uint64 | uintptr
  | float32 | float64
  | complex64 | complex128
  | string
  | unsafePointer
  | untypedBool | untypedInt | untypedRune | untypedFloat | untypedComplex | untypedString
  | untypedNil
deriving DecidableEq, Repr, Inhabited

namespace Kind

def all : List Kind := [
  bool, int, int8, int16, int32, int64, uint, uint8, uint16, uint32, uint64, uintptr,
  float32, float64, complex64, complex128, string, unsafePointer,
  untypedBool, untypedInt, untypedRune, untypedFloat, untypedComplex, untypedString, untypedNil]

def spelling : Kind → String
  | bool => "bool"
  | int => "int"
  | int8 => "int8"
  | int16 => "int16"
  | int32 => "int32"
  | int64 => "int64"
  | uint => "uint"
  | uint8 => "uint8"
  | uint16 => "uint16"
  | uint32 => "uint32"
  | uint64 => "uint64"
  | uintptr => "uintptr"
  | float32 => "float32"
  | float64 => "float64"
  | complex64 => "complex64"
  | complex128 => "complex128"
  | string => "string"
  | unsafePointer => "unsafe.Pointer"
  | untypedBool => "untyped bool"
  | untypedInt => "untyped int"
  | untypedRune => "untyped rune"
  | untypedFloat => "untyped float"
  | untypedComplex => "untyped complex"
  | untypedString => "untyped string"
  | untypedNil => "untyped nil"

def ofSpelling? (name : String) : Option Kind :=
  all.find? (·.spelling == name)

def isUntyped : Kind → Bool
  | untypedBool | untypedInt | untypedRune | untypedFloat | untypedComplex | untypedString
  | untypedNil => true
  | _ => false

def isInteger : Kind → Bool
  | int | int8 | int16 | int32 | int64 => true
  | uint | uint8 | uint16 | uint32 | uint64 | uintptr => true
  | untypedInt | untypedRune => true
  | _ => false

def isFloat : Kind → Bool
  | float32 | float64 | untypedFloat => true
  | _ => false

def isComplex : Kind → Bool
  | complex64 | complex128 | untypedComplex => true
  | _ => false

def unsignedBits? : Kind → Option Nat
  | uint8 => some 8
  | uint16 => some 16
  | uint32 => some 32
  | uint64 | uint | uintptr => some 64
  | _ => none

/-- The rank of an untyped number: where two are mixed the greater one wins. -/
def untypedRank? : Kind → Option Nat
  | untypedInt => some 0
  | untypedRune => some 1
  | untypedFloat => some 2
  | untypedComplex => some 3
  | _ => none

/-- The kind that a predeclared type name stands for; `byte` and `rune` are second names. -/
def ofTypeName? (name : String) : Option Kind :=
  match name with
  | "byte" => some uint8
  | "rune" => some int32
  | _ => all.find? fun k => k.spelling == name && !k.isUntyped && k != unsafePointer

end Kind

end DeclBridge
