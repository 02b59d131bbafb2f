import DeclBridge.Fault
import DeclBridge.Source.Span
import DeclBridge.Text.Quoted

/-!
# Constructs that are refused

A text may be in the language and still be refused: a literal may spell no value, or a declaration
may be incomplete.  `Invalid` names these causes; some of them know their place.  A `Refusal` is
either such a cause or a fault, and the first one in reading order counts.
-/

namespace DeclBridge

inductive Invalid where
  | octalEscape (value : Nat)
  /-- A text that should be between double quotes. -/
  | notQuoted (text : String)
  | escapedQuote
  /-- A quoted text with a stray quote, backslash or line break. -/
  | malformedString (text : String)
  /-- A rune literal that is not one character or one escape. -/
  | runeLiteral (text : String) (pos : Position)
  | missingValue (name : String) (pos : Position)
  /-- A line of a constant group has more or fewer names than values. -/
  | countMismatch (names : List String) (values : Nat) (pos : Position)
  /-- An embedded field with type arguments. -/
  | embeddedGeneric (name : String) (pos : Position)
deriving DecidableEq, Repr

namespace Invalid

def message : Invalid → String
  | octalEscape value => "octal escape value " ++ toString value ++ " > 255"
  | notQuoted text => "not a quoted string: " ++ quotedString text
  | escapedQuote => "invalid escape \\' in string"
  | malformedString text => "malformed string literal " ++ quotedString text
  | runeLiteral text _ => "invalid rune literal " ++ text
  | missingValue name _ => "missing init expr for const declaration of " ++ name
  | countMismatch names values _ =>
    "const declaration of " ++ ", ".intercalate names ++ ": " ++ toString names.length ++
      " names but " ++ toString values ++ " values"
  | embeddedGeneric name _ => "embedded generic instantiation " ++ name ++ "[...] is not supported"

/-- The place of the cause, where it is known. -/
def pos? : Invalid → Option Position
  | runeLiteral _ pos | missingValue _ pos | countMismatch _ _ pos => some pos
  | embeddedGeneric _ pos => some pos
  | _ => none

end Invalid

/-- Why a text of the language has no meaning. -/
inductive Refusal where
  | invalid (why : Invalid)
  | fault (why : Fault)
deriving DecidableEq, Repr

end DeclBridge
