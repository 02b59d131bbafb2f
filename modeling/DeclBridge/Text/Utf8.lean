/-!
# Decoding UTF-8 with replacement

String literals of the source language may spell arbitrary bytes.  `decodeLossy` reads them as UTF-8
and puts U+FFFD in place of what is ill-formed: one replacement for each longest beginning of a
well-formed sequence that is cut short, and one for each byte that can begin no sequence.

## Shape of a sequence

`secondByte` gives the range that the byte after a lead byte must lie in, which is where overlong
forms, surrogates and numbers above U+10FFFF are ruled out; every later byte lies in `0x80` to
`0xBF`.  `sequence` reads one character and says how many bytes after the lead byte it used.
-/

namespace DeclBridge.Text

def replacement : Char := '�'

/-- A byte that continues a sequence. -/
def isContinuation (b : UInt8) : Bool := 0x80 ≤ b && b ≤ 0xBF

/-- How many bytes follow a lead byte of a longer sequence. -/
def followers (lead : UInt8) : Nat :=
  if 0xC2 ≤ lead && lead ≤ 0xDF then 1
  else if 0xE0 ≤ lead && lead ≤ 0xEF then 2
  else if 0xF0 ≤ lead && lead ≤ 0xF4 then 3
  else 0

/-- Whether `b` may stand right after `lead`. -/
def secondByte (lead b : UInt8) : Bool :=
  if lead == 0xE0 then 0xA0 ≤ b && b ≤ 0xBF
  else if lead == 0xED then 0x80 ≤ b && b ≤ 0x9F
  else if lead == 0xF0 then 0x90 ≤ b && b ≤ 0xBF
  else if lead == 0xF4 then 0x80 ≤ b && b ≤ 0x8F
  else isContinuation b

/-- The bytes after `lead` that belong to its sequence, at most `followers lead` of them. -/
def tailBytes (lead : UInt8) (rest : List UInt8) : List UInt8 :=
  match rest with
  | [] => []
  | b :: more =>
    if followers lead == 0 || !secondByte lead b then []
    else b :: (more.take (followers lead - 1)).takeWhile isContinuation

/-- The number that a lead byte and its tail spell. -/
def sequenceValue (lead : UInt8) (tail : List UInt8) : Nat :=
  let head := match tail.length with
    | 0 => lead.toNat
    | 1 => lead.toNat % 0x20
    | 2 => lead.toNat % 0x10
    | _ => lead.toNat % 0x08
  tail.foldl (fun n b => n * 0x40 + b.toNat % 0x40) head

/-- The character that begins with `lead`, and how many of the bytes after it belong to it. -/
def sequence (lead : UInt8) (rest : List UInt8) : Char × Nat :=
  if lead < 0x80 then (Char.ofNat lead.toNat, 0)
  else
    let tail := tailBytes lead rest
    if followers lead ≠ 0 ∧ tail.length = followers lead then
      (Char.ofNat (sequenceValue lead tail), tail.length)
    else (replacement, tail.length)

/-- Reads on after `skip` bytes that belong to the character before. -/
def decodeFrom (skip : Nat) : List UInt8 → List Char
  | [] => []
  | b :: rest =>
    match skip with
    | n + 1 => decodeFrom n rest
    | 0 =>
      let (c, used) := sequence b rest
      c :: decodeFrom used rest

/-- Bytes as UTF-8, with U+FFFD for what is ill-formed. -/
def decodeLossy (bytes : List UInt8) : String :=
  String.ofList (decodeFrom 0 bytes)

def encodeChar (c : Char) : List UInt8 :=
  let n := c.toNat
  if n < 0x80 then [n.toUInt8]
  else if n < 0x800 then [(0xC0 + n / 0x40).toUInt8, (0x80 + n % 0x40).toUInt8]
  else if n < 0x10000 then
    [(0xE0 + n / 0x1000).toUInt8, (0x80 + n / 0x40 % 0x40).toUInt8, (0x80 + n % 0x40).toUInt8]
  else
    [(0xF0 + n / 0x40000).toUInt8, (0x80 + n / 0x1000 % 0x40).toUInt8,
      (0x80 + n / 0x40 % 0x40).toUInt8, (0x80 + n % 0x40).toUInt8]

end DeclBridge.Text
