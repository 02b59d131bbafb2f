/-!
# Positions and spans

A `Position` is a place in one text: line and column, both counted from one, the column in
characters.  A `Span` is a place in a program, as far as it is known: file, line and column may each
be missing.  Spans order by file, line and column, an unknown part before every known one.
-/

namespace DeclBridge

structure Position where
  line : Nat
  column : Nat
deriving DecidableEq, Repr, Inhabited

def Position.start : Position := ⟨1, 1⟩

def Position.advance (p : Position) (c : Char) : Position :=
  if c = '\n' then ⟨p.line + 1, 1⟩ else ⟨p.line, p.column + 1⟩

/-- A place in a program, as far as it is known. -/
structure Span where
  file : Option String := none
  line : Option Int := none
  column : Option Int := none
deriving DecidableEq, Repr, Inhabited

namespace Span

def unknown : Span := {}

def ofPosition (file : Option String) (p : Position) : Span :=
  ⟨file, some p.line, some p.column⟩

/-- The span of a place in a file, where the place may be unknown. -/
def ofPosition? (file : Option String) : Option Position → Span
  | some p => ofPosition file p
  | none => ⟨file, none, none⟩

/-- What spans are ordered by. -/
def sortKey (s : Span) : String × Int × Int :=
  (s.file.getD "", s.line.getD 0, s.column.getD 0)

/-- The order of two sort keys, component by component. -/
def compareKeys (a b : String × Int × Int) : Ordering :=
  (compare a.1 b.1).then ((compare a.2.1 b.2.1).then (compare a.2.2 b.2.2))

/-- Whether `a` stands before `b` or in the same place. -/
def le (a b : Span) : Bool :=
  compareKeys a.sortKey b.sortKey != .gt

/-- Spans in order; those with equal keys keep their order. -/
def sort (spans : List Span) : List Span :=
  spans.mergeSort le

/-- A span as text: the file, then the line and the column as far as they are known. -/
def text (s : Span) : String :=
  let file := match s.file with
    | some f => if f.isEmpty then "<unknown>" else f
    | none => "<unknown>"
  match s.line, s.column with
  | none, _ => file
  | some l, none => file ++ ":" ++ toString l
  | some l, some c => file ++ ":" ++ toString l ++ ":" ++ toString c

/-- Whether a span is worth a mention: it has a file or a line. -/
def isKnown (s : Span) : Bool :=
  s.file.any (!·.isEmpty) || s.line.any (· ≠ 0)

end Span

end DeclBridge
