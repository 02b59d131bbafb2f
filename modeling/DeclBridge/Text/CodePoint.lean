/-!
# Text as a sequence of code points

A `String` holds Unicode scalar values only.  Constants of the source language may also hold a lone
surrogate (the conversion of `0xD800` to a string yields one), and so may the texts of a
configuration file.  `Text` carries those: it is a list of code points, surrogates included.  What
is written to a file must be a `String` again, and `Text.toString?` is the one place where that can
fail.

## Shape of a text

* `CodePoint` — a number below `0x110000`.
* `Text.ofString`, `Text.toString?` — the embedding of strings, and its partial inverse.
* `Text.shown` — a total view for messages, with each surrogate spelled as an escape.
-/

namespace DeclBridge

/-- A Unicode code point: a scalar value or a surrogate. -/
abbrev CodePoint := Fin 0x110000

def CodePoint.ofChar (c : Char) : CodePoint :=
  ⟨c.toNat, by
    have h := c.valid
    simp only [UInt32.isValidChar, Nat.isValidChar] at h
    have : c.toNat = c.val.toNat := rfl
    omega⟩

/-- The character of a code point, if it is a scalar value. -/
def CodePoint.toChar? (p : CodePoint) : Option Char :=
  if h : p.val.isValidChar then some (Char.ofNatAux p.val h) else none

structure Text where
  points : List CodePoint
deriving DecidableEq, Inhabited, Repr

namespace Text

def ofString (s : String) : Text :=
  ⟨s.toList.map CodePoint.ofChar⟩

instance : Coe String Text := ⟨ofString⟩

def empty : Text := ⟨[]⟩

instance : Append Text := ⟨fun a b => ⟨a.points ++ b.points⟩⟩
instance : HAppend String Text Text := ⟨fun a b => ofString a ++ b⟩
instance : HAppend Text String Text := ⟨fun a b => a ++ ofString b⟩

def isEmpty (t : Text) : Bool := t.points.isEmpty

/-- The texts one after another, with `separator` between neighbours. -/
def join (separator : Text) : List Text → Text
  | [] => empty
  | [t] => t
  | t :: rest => t ++ separator ++ join separator rest

def endsWith (t suffix : Text) : Bool :=
  suffix.points.isSuffixOf t.points

/-- `t` without its last `n` code points. -/
def dropEnd (t : Text) (n : Nat) : Text :=
  ⟨t.points.take (t.points.length - n)⟩

def occursIn (part : List CodePoint) : List CodePoint → Bool
  | [] => part.isEmpty
  | p :: rest => part.isPrefixOf (p :: rest) || occursIn part rest

def contains (t part : Text) : Bool :=
  occursIn part.points t.points

/-- Order by code point, a proper beginning first. -/
def comparePoints : List CodePoint → List CodePoint → Ordering
  | [], [] => .eq
  | [], _ :: _ => .lt
  | _ :: _, [] => .gt
  | p :: ps, q :: qs => (compare p.val q.val).then (comparePoints ps qs)

instance : Ord Text := ⟨fun a b => comparePoints a.points b.points⟩

def charsOf? : List CodePoint → Option (List Char)
  | [] => some []
  | p :: rest =>
    match p.toChar?, charsOf? rest with
    | some c, some cs => some (c :: cs)
    | _, _ => none

/-- The string of a text, which exists exactly when the text has no surrogate. -/
def toString? (t : Text) : Option String :=
  (charsOf? t.points).map String.ofList

/-- `n` in hexadecimal, lower case, with leading zeros up to `width` digits. -/
def hex (width n : Nat) : String :=
  let digits := Nat.toDigits 16 n
  String.ofList (List.replicate (width - digits.length) '0' ++ digits)

/-- A text as it is shown in messages: a surrogate appears as its escape. -/
def shown (t : Text) : String :=
  String.join (t.points.map fun p =>
    match p.toChar? with
    | some c => String.singleton c
    | none => "\\u" ++ hex 4 p.val)

end Text

end DeclBridge
