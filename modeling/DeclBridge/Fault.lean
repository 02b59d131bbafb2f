import DeclBridge.Text.Quoted

/-!
# Faults

A *fault* ends a run at once.  It is not a problem that is collected and reported with a position,
as a diagnostic is: it arises where a value has no representation in the form that is asked of it.
Each constructor names one cause; which outcome a caller makes of it is the caller's business.
-/

namespace DeclBridge

inductive Fault where
  /-- An integer literal with a digit its base does not have, or with no digit at all. -/
  | malformedInteger
  /-- An integer of more decimal digits than are ever read or written. -/
  | tooManyDigits
  /-- An escape that spells a number above the last code point. -/
  | codePointOutOfRange (value : Nat)
  /-- A surrogate in a text that must be written as UTF-8. -/
  | loneSurrogate
  /-- A file whose bytes are not UTF-8. -/
  | notUtf8
  /-- A directory in the place of a source file. -/
  | directoryAsFile (path : String)
  /-- A number with no finite double near it. -/
  | beyondDouble
  /-- A real number asked of a NaN. -/
  | notANumber
  /-- A reference to a package that no output module was named for. -/
  | unnamedModule (path : String)
  /-- A type asked of a symbol that has none. -/
  | missingType
  | alreadyDefined (module name : String)
  /-- A negative number of modules to render at once. -/
  | negativeLimit
  /-- A chain of aliases, or of types within types, that does not end. -/
  | endlessType
  /-- A complex divisor that is not zero but becomes zero as a double. -/
  | zeroDivisor
  /-- A reference to a name of the package that is being resolved, which it does not declare. -/
  | undeclared (name : String)
  /-- A failure with an empty message, of which a first line was asked. -/
  | emptyMessage
  /-- A path with a NUL in it, handed to the file system. -/
  | nulInPath
deriving DecidableEq, Repr, Inhabited

/-- What is said of a fault, where it comes with a message of its own. -/
def Fault.message? : Fault → Option String
  | .unnamedModule path => some ("no module name assigned to package " ++ quotedString path)
  | .alreadyDefined module name => some (module ++ ": " ++ name ++ " is already defined")
  | .negativeLimit => some "limit must be >= 0"
  | _ => none

end DeclBridge
