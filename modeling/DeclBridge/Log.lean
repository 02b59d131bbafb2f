/-!
# Log lines

What a run says of itself while it works, in order.  Warnings and the notice of what was done are
always shown; details only when they are asked for.
-/

namespace DeclBridge

inductive LogLevel where
  | detail | notice | warning
deriving DecidableEq, Repr

structure LogLine where
  level : LogLevel
  text : String
deriving DecidableEq, Repr

/-- A line that is only shown on request. -/
def LogLine.detail (text : String) : LogLine := ⟨.detail, text⟩

/-- A line that says what was done. -/
def LogLine.notice (text : String) : LogLine := ⟨.notice, text⟩

/-- A line that says what went wrong. -/
def LogLine.warning (text : String) : LogLine := ⟨.warning, text⟩

def warningTexts (log : List LogLine) : List String :=
  (log.filter (·.level = .warning)).map (·.text)

/-- The texts that are shown, with or without the details. -/
def shownTexts (verbose : Bool) (log : List LogLine) : List String :=
  (log.filter fun line => verbose || line.level ≠ .detail).map (·.text)

end DeclBridge
