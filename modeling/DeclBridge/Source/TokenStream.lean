import DeclBridge.Source.Lexeme

/-!
# Token streams

`TokenStream` is what a text amounts to: its tokens, and the stray character that cut them short if
there is one.  The tokens before a stray character are kept, because a reader that takes tokens one
by one sees them, and may object to one of them first.

Three passes make the stream of a file.

* `scan` — lexemes become tokens; blanks and comments disappear.
* `insertSemicolons` — a line break becomes a semicolon when the line ends in a token that can end a
  statement.  The semicolon is passed on together with the token after it, so that a stray character
  right after the line break takes the semicolon with it.
* `skipDeclarations` — top-level `func` and `var` declarations, which say nothing about types or
  constants, are left out whole.
-/

namespace DeclBridge

/-- The tokens of a text, up to the end or to a character that begins no token. -/
structure TokenStream where
  tokens : List Token
  stray : Option StrayCharacter := none
deriving DecidableEq, Repr

namespace TokenStream

def cons (t : Token) (s : TokenStream) : TokenStream := ⟨t :: s.tokens, s.stray⟩

/-- Reads on at `pos`, after `skip` characters that belong to the lexeme before. -/
def scanFrom (dialect : Dialect) (skip : Nat) (pos : Position) : List Char → TokenStream
  | [] => ⟨[], none⟩
  | c :: rest =>
    match skip with
    | n + 1 => scanFrom dialect n (pos.advance c) rest
    | 0 =>
      match lexeme? dialect (c :: rest) with
      | none => ⟨[], some ⟨c, pos⟩⟩
      | some ⟨none, length⟩ => scanFrom dialect (length - 1) (pos.advance c) rest
      | some ⟨some kind, length⟩ =>
        cons ⟨kind, String.ofList ((c :: rest).take length), pos⟩
          (scanFrom dialect (length - 1) (pos.advance c) rest)

/-- The tokens of a text, line breaks included. -/
def scan (dialect : Dialect) (source : String) : TokenStream :=
  scanFrom dialect 0 .start source.toList

/-! ## Semicolons -/

/-- The tokens that can end a statement: words, literals, `++` and `--`, and closing brackets. -/
def endsStatement : TokenKind → Bool
  | .name | .int | .float | .imag | .char | .string | .rawString | .incDec => true
  | .mark .rpar | .mark .rsqb | .mark .rbrace => true
  | _ => false

def finalSemicolon (last pending : Option Token) : List Token :=
  match pending, last with
  | some semicolon, _ => [semicolon]
  | none, some t => if endsStatement t.kind then [⟨.semicolon, "", t.pos⟩] else []
  | none, none => []

/-- Semicolons for line breaks, after the token `last` and with the semicolon `pending` still to be
passed on; `closing` tells whether the end of the text gets one too. -/
def semicolonsFrom (closing : Bool) (last pending : Option Token) : List Token → List Token
  | [] => if closing then finalSemicolon last pending else []
  | t :: rest =>
    if t.kind = .newline then
      if last.any (endsStatement ·.kind) then
        let semicolon : Token := ⟨.semicolon, "\n", t.pos⟩
        semicolonsFrom closing (some semicolon) (some semicolon) rest
      else semicolonsFrom closing last pending rest
    else pending.toList ++ t :: semicolonsFrom closing (some t) none rest

/-- Line breaks turned into semicolons, or dropped. -/
def insertSemicolons (atEnd : Bool) (s : TokenStream) : TokenStream :=
  ⟨semicolonsFrom (atEnd && s.stray.isNone) none none s.tokens, s.stray⟩

/-! ## Declarations that are left out -/

def depthAfter (depth : Nat) : TokenKind → Nat
  | .mark .lpar | .mark .lsqb | .mark .lbrace => depth + 1
  | .mark .rpar | .mark .rsqb | .mark .rbrace => depth - 1
  | _ => depth

/-- Whether a token that begins a declaration begins one that is left out. -/
def beginsSkipped (t : Token) : Bool := t.text == "func" || t.text == "var"

/-- Leaves out declarations, at bracket depth `depth`; `fresh` at the start of a declaration,
`skipping` within one that is left out. -/
def skipFrom (depth : Nat) (fresh skipping : Bool) : List Token → List Token
  | [] => []
  | t :: rest =>
    let depth := depthAfter depth t.kind
    let ends := t.kind = .semicolon && depth == 0
    if skipping then skipFrom depth (ends || fresh) (!ends) rest
    else if fresh && depth == 0 && beginsSkipped t then skipFrom depth fresh true rest
    else t :: skipFrom depth ends false rest

/-- The stream without top-level `func` and `var` declarations. -/
def skipDeclarations (s : TokenStream) : TokenStream :=
  ⟨skipFrom 0 true false s.tokens, s.stray⟩

/-- The tokens of a file, as its declarations are read. -/
def ofFile (source : String) : TokenStream :=
  ((scan .file source).insertSemicolons true).skipDeclarations

/-- The tokens of a type or an expression on its own. -/
def ofFragment (source : String) : TokenStream :=
  (scan .fragment source).insertSemicolons false

end TokenStream

end DeclBridge
