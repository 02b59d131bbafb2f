import DeclBridge.Source.TokenStream

/-!
# Reading tokens

A reader takes tokens from the front of a list and yields a value, or it fails.  A failure is the
list of tokens that were left where reading stopped: its first token is one that no continuation
admits, and the empty list means that the text ended too early.

## Choice

`either p q` reads with `p`, and with `q` where `p` fails.  Of two failures the one that came
further counts.  If `p` came further before it failed than `q` reads at all, then what follows
cannot be read after `q` either, since `p` had already taken it; in that case the failure of `p`
stands.  With this rule the token that is blamed is the first that no reading of the text admits.
-/

namespace DeclBridge

/-- Takes tokens from the front of a list, or fails with the tokens that were left. -/
abbrev Reader := StateT (List Token) (Except (List Token))

namespace Reader

variable {α : Type}

def fail : Reader α := fun ts => .error ts

def position : Reader Position := fun ts =>
  .ok ((ts.head?.map (·.pos)).getD default, ts)

/-- Takes the next token if it is of the given kind, and fails otherwise. -/
def token (kind : TokenKind) : Reader Token := fun ts =>
  match ts with
  | t :: rest => if t.kind = kind then .ok (t, rest) else .error ts
  | [] => .error []

def mark (m : Mark) : Reader Unit := do
  let _ ← token (.mark m)

def keyword (k : Keyword) : Reader Unit := do
  let _ ← token (.keyword k)

def name : Reader String := do
  let t ← token .name
  return t.text

def nextKind : Reader (Option TokenKind) := fun ts =>
  .ok (ts.head?.map Token.kind, ts)

def nextSatisfies (p : TokenKind → Bool) : Reader Bool := do
  return (← nextKind).any p

def nextIs (kind : TokenKind) : Reader Bool := nextSatisfies (· = kind)

/-- Takes the next token if it is of the given kind, and says whether it did. -/
def skipIf (kind : TokenKind) : Reader Bool := fun ts =>
  match ts with
  | t :: rest => if t.kind = kind then .ok (true, rest) else .ok (false, ts)
  | [] => .ok (false, [])

/-- Takes the next token if `f` gives it a meaning. -/
def takeIf (f : Token → Option α) : Reader (Option α) := fun ts =>
  match ts with
  | t :: rest =>
    match f t with
    | some x => .ok (some x, rest)
    | none => .ok (none, ts)
  | [] => .ok (none, [])

/-- Of two failures the one that came further. -/
def further (f g : List Token) : List Token := if f.length ≤ g.length then f else g

def either (p q : Reader α) : Reader α := fun ts =>
  match p ts with
  | .ok r => .ok r
  | .error f =>
    match q ts with
    | .ok (x, rest) => if f.length < rest.length then .error f else .ok (x, rest)
    | .error g => .error (further f g)

/-! ## Repetition

The loops count down from the number of tokens; since every item takes at least one, the count never
runs out before the tokens do. -/

/-- Items with commas between them, at most `count + 1`. -/
def separatedFrom (item : Reader α) : (count : Nat) → Reader (List α)
  | 0 => do return [← item]
  | count + 1 => do
    let x ← item
    if ← skipIf (.mark .comma) then
      let xs ← separatedFrom item count
      return x :: xs
    else return [x]

def separated (item : Reader α) : Reader (List α) := fun ts =>
  separatedFrom item ts.length ts

/-- Items with commas between them and the closing mark, at most `count` of them; a comma may stand
before the closing mark. -/
def closedFrom (item : Reader α) (close : Mark) : (count : Nat) → Reader (List α)
  | 0 => fail
  | count + 1 => do
    let x ← item
    if ← skipIf (.mark .comma) then
      if ← skipIf (.mark close) then return [x]
      else
        let xs ← closedFrom item close count
        return x :: xs
    else
      mark close
      return [x]

/-- One item or more with commas between them, up to the closing mark. -/
def closed (item : Reader α) (close : Mark) : Reader (List α) := fun ts =>
  closedFrom item close (ts.length + 1) ts

/-- Lines up to the closing mark, fewer than `count`; the last needs no semicolon. -/
def linesFrom (line : Reader α) (close : Mark) : (count : Nat) → Reader (List α)
  | 0 => fail
  | count + 1 => do
    if ← skipIf (.mark close) then return []
    else
      let x ← line
      if ← skipIf .semicolon then
        let xs ← linesFrom line close count
        return x :: xs
      else
        mark close
        return [x]

def lines (line : Reader α) (close : Mark) : Reader (List α) := fun ts =>
  linesFrom line close (ts.length + 1) ts

/-- A declaration after its reserved word: one line, or lines in parentheses. -/
def group (line : Reader α) : Reader (List α) := do
  if ← skipIf (.mark .lpar) then lines line .rpar
  else return [← line]

/-! ## Whole texts -/

/-- Reads all tokens of a stream.  A stray character is what is wrong with the text if every token
before it is in order. -/
def complete (reader : Reader α) (s : TokenStream) : Except SyntaxError α :=
  match reader s.tokens with
  | .ok (_, t :: _) | .error (t :: _) => .error (.token t)
  | .ok (x, []) =>
    match s.stray with
    | some c => .error (.character c)
    | none => .ok x
  | .error [] =>
    match s.stray with
    | some c => .error (.character c)
    | none => .error .endOfInput

end Reader

end DeclBridge
