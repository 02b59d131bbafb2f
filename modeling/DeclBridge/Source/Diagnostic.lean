import DeclBridge.Source.Span

/-!
# Diagnostics

A diagnostic describes a problem that was recovered from: a declaration that could not be resolved,
a constant that was left out, a reference that lost its target.  It carries its place in the program
where one is known.
-/

namespace DeclBridge

structure Diagnostic where
  message : String
  /-- A short name of the kind of problem. -/
  code : Option String := none
  /-- The part of the run that found it: `load` or `transpile`. -/
  phase : Option String := none
  severity : String := "error"
  span : Span := {}
  notes : List String := []
deriving DecidableEq, Repr, Inhabited

/-- A diagnostic as text: place, severity, code and message on the first line, then the notes. -/
def Diagnostic.text (d : Diagnostic) : String :=
  let place := if d.span.isKnown then d.span.text ++ ": " else ""
  let code := match d.code with
    | some c => if c.isEmpty then "" else "[" ++ c ++ "] "
    | none => ""
  place ++ d.severity ++ ": " ++ code ++ d.message ++
    String.join (d.notes.map fun note => "\n  note: " ++ note)

end DeclBridge
