import DeclBridge.Proofs.Literals

/-!
# Tokens of types

`Alphabet.tokens` cuts a text into the tokens that types of the output language consist of, and
skips blanks and comments.  It goes through the text character by character, and so the tokens of a
text are those of its parts, one after another, as long as no identifier goes on from one part to
the next (`Alphabet.tokens_append`).

Which characters beyond ASCII an identifier may hold depends on the version of the language, so that
is left to an `Alphabet`.
-/

namespace DeclBridge.TypeGrammar

open List

variable {p : CodePoint} {w : Text}

/-! ## Tokens -/

/-- A symbol of the output language. -/
inductive Token where
  | word (text : Text)
  | string (value : Text)
  | mark (c : Char)
deriving DecidableEq

/-- The characters of identifiers beyond ASCII: `letters` may begin one, `others` only go on. -/
structure Alphabet where
  letters : CodePoint → Bool
  others : CodePoint → Bool

/-- Whether the number is the code of an ASCII character that may begin an identifier. -/
def isAsciiLetter (n : Nat) : Bool :=
  (65 ≤ n && n ≤ 90) || (97 ≤ n && n ≤ 122) || n == '_'.toNat || n == '$'.toNat

/-- Whether the number is the code of a decimal digit. -/
def isAsciiDigit (n : Nat) : Bool := 48 ≤ n && n ≤ 57

/-- The marks that stand in types. -/
def marks : List Char :=
  ['(', ')', '[', ']', '\x7b', '\x7d', '<', '>', ',', ';', ':', '?', '.', '|', '&']

/-- What the escape with a letter stands for. -/
def escapes : List (Char × Char) :=
  [('"', '"'), ('\\', '\\'), ('/', '/'), ('n', '\n'), ('r', '\r'), ('t', '\t'), ('f', '\x0c'),
    ('b', '\x08')]

/-- The value of a hexadecimal digit. -/
def hexValue? (p : CodePoint) : Option Nat :=
  if 48 ≤ p.val ∧ p.val ≤ 57 then some (p.val - 48)
  else if 97 ≤ p.val ∧ p.val ≤ 102 then some (p.val - 87)
  else if 65 ≤ p.val ∧ p.val ≤ 70 then some (p.val - 55)
  else none

/-- Where in a text the division into tokens stands. -/
inductive Place where
  /-- Between two tokens. -/
  | between
  /-- In an identifier, after some of its characters. -/
  | word (read : List CodePoint)
  /-- After a slash. -/
  | slash
  /-- In a comment. -/
  | comment
  /-- In a comment, after an asterisk. -/
  | star
  /-- In a string with the given value so far. -/
  | string (read : List CodePoint)
  /-- In a string, after a backslash. -/
  | escape (read : List CodePoint)
  /-- In a string, in an escape with `left` more digits after the next. -/
  | hex (read : List CodePoint) (left code : Nat)

/-- The token that ends with the text, if the text may end at the place. -/
def Place.rest : Place → Option (List Token)
  | .between => some []
  | .word read => some [.word ⟨read⟩]
  | _ => none

namespace Alphabet

variable (A : Alphabet)

/-- Whether an identifier may begin with a character. -/
def starts (p : CodePoint) : Bool :=
  if p.val < 128 then isAsciiLetter p.val else A.letters p

/-- Whether an identifier may go on with a character. -/
def continues (p : CodePoint) : Bool :=
  if p.val < 128 then isAsciiLetter p.val || isAsciiDigit p.val else A.letters p || A.others p

/-- The step on a character between two tokens. -/
def enter (p : CodePoint) : Option (List Token × Place) :=
  if p ∈ [.ofChar ' ', .ofChar '\t', .ofChar '\n'] then some ([], .between)
  else if p = .ofChar '/' then some ([], .slash)
  else if p = .ofChar '"' then some ([], .string [])
  else if A.starts p then some ([], .word [p])
  else (marks.find? (CodePoint.ofChar · = p)).map fun c => ([.mark c], .between)

/-- The step on a character: the tokens that it ends, and the place after it. -/
def next : Place → CodePoint → Option (List Token × Place)
  | .between, p => A.enter p
  | .word read, p =>
    if A.continues p then some ([], .word (read ++ [p]))
    else (A.enter p).map fun r => (.word ⟨read⟩ :: r.1, r.2)
  | .slash, p => if p = .ofChar '*' then some ([], .comment) else none
  | .comment, p => some ([], if p = .ofChar '*' then .star else .comment)
  | .star, p =>
    some ([], if p = .ofChar '/' then .between else if p = .ofChar '*' then .star else .comment)
  | .string read, p =>
    if p = .ofChar '"' then some ([.string ⟨read⟩], .between)
    else if p = .ofChar '\\' then some ([], .escape read)
    else if p.val < 0x20 then none
    else some ([], .string (read ++ [p]))
  | .escape read, p =>
    if p = .ofChar 'u' then some ([], .hex read 3 0)
    else (escapes.find? (CodePoint.ofChar ·.1 = p)).map fun e =>
      ([], .string (read ++ [.ofChar e.2]))
  | .hex read left code, p =>
    match left, hexValue? p with
    | _, none => none
    | 0, some digit =>
      if h : code * 16 + digit < 0x110000 then some ([], .string (read ++ [⟨code * 16 + digit, h⟩]))
      else none
    | left + 1, some digit => some ([], .hex read left (code * 16 + digit))

/-- The steps on some characters. -/
def scan (place : Place) : List CodePoint → Option (List Token × Place)
  | [] => some ([], place)
  | p :: ps => do
    let r ← A.next place p
    let r' ← scan r.2 ps
    return (r.1 ++ r'.1, r'.2)

/-- The tokens of a text. -/
def tokens (text : Text) : Option (List Token) := do
  let r ← A.scan .between text.points
  return r.1 ++ (← r.2.rest)

end Alphabet

/-! ## Tokens of texts -/

namespace Alphabet

variable {A : Alphabet} {place place' place'' : Place} {ps qs : List CodePoint}
  {ts us : List Token} {text text' : Text}

theorem scan_append (h : A.scan place ps = some (ts, place'))
    (h' : A.scan place' qs = some (us, place'')) :
    A.scan place (ps ++ qs) = some (ts ++ us, place'') := by
  induction ps generalizing place ts with
  | nil =>
    cases h
    exact h'
  | cons p ps ih =>
    simp only [scan, Option.bind_eq_bind, Option.bind_eq_some_iff, Option.pure_def,
      Option.some.injEq] at h
    obtain ⟨⟨vs, first⟩, hnext, ⟨ws, last⟩, hscan, heq⟩ := h
    cases heq
    rw [cons_append, scan, hnext]
    simp only [Option.bind_eq_bind, Option.bind_some, ih hscan]
    rw [append_assoc]
    rfl

theorem tokens_eq_some : A.tokens text = some ts ↔ ∃ us place rest,
    A.scan .between text.points = some (us, place) ∧ place.rest = some rest ∧ ts = us ++ rest := by
  simp only [tokens, Option.bind_eq_bind, Option.bind_eq_some_iff, Option.pure_def,
    Option.some.injEq, Prod.exists]
  constructor
  · rintro ⟨us, place, hscan, rest, hrest, rfl⟩
    exact ⟨us, place, rest, hscan, hrest, rfl⟩
  · rintro ⟨us, place, rest, hscan, hrest, rfl⟩
    exact ⟨us, place, hscan, rest, hrest, rfl⟩

theorem tokens_of_scan (h : A.scan .between text.points = some (ts, .between)) :
    A.tokens text = some ts :=
  tokens_eq_some.2 ⟨ts, .between, [], h, rfl, (append_nil ts).symm⟩

/-- A text behind one that ends between two tokens. -/
theorem tokens_append_of_scan (h : A.scan .between text.points = some (ts, .between))
    (h' : A.tokens text' = some us) : A.tokens (text ++ text') = some (ts ++ us) := by
  obtain ⟨vs, place, rest, hscan, hrest, rfl⟩ := tokens_eq_some.1 h'
  exact tokens_eq_some.2 ⟨ts ++ vs, place, rest, scan_append h hscan, hrest,
    (append_assoc ts vs rest).symm⟩

/-- A text that does not go on with an identifier at the end of the one before. -/
theorem tokens_append (h : A.tokens text = some ts) (h' : A.tokens text' = some us)
    (hhead : ∀ p ∈ text'.points.head?, A.continues p = false) :
    A.tokens (text ++ text') = some (ts ++ us) := by
  obtain ⟨vs, place, rest, hscan, hrest, rfl⟩ := tokens_eq_some.1 h
  obtain ⟨vs', place', rest', hscan', hrest', rfl⟩ := tokens_eq_some.1 h'
  cases place with
  | between =>
    cases hrest
    rw [append_nil]
    exact tokens_append_of_scan hscan h'
  | word read =>
    cases hrest
    obtain ⟨points⟩ := text'
    cases points with
    | nil =>
      cases hscan'
      cases hrest'
      have hnil : text ++ ⟨[]⟩ = text := congrArg Text.mk (append_nil text.points)
      rw [hnil, h, append_nil, append_nil]
    | cons p ps =>
      have hword : A.scan (.word read) (p :: ps) = some (.word ⟨read⟩ :: vs', place') := by
        simp only [scan, next, Option.bind_eq_bind, Option.bind_eq_some_iff, Option.pure_def,
          Option.some.injEq, hhead p rfl, Bool.false_eq_true, if_false, Option.map_eq_some_iff]
          at hscan' ⊢
        obtain ⟨r, hr, r', hr', heq⟩ := hscan'
        cases heq
        exact ⟨_, ⟨r, hr, rfl⟩, r', hr', rfl⟩
      exact tokens_eq_some.2 ⟨_, place', rest', scan_append hscan hword, hrest', by simp⟩
  | _ => cases hrest

/-- Whether a word is an identifier, unless the language reserves it. -/
def isIdentifier (A : Alphabet) (w : Text) : Bool :=
  match w.points with
  | [] => false
  | p :: ps => A.starts p && ps.all A.continues

theorem continues_of_starts (h : A.starts p = true) : A.continues p = true := by
  rw [starts] at h
  rw [continues]
  split_ifs at h ⊢ <;> simp [h]

theorem not_mem_of_isIdentifier (h : A.isIdentifier w = true) : .ofChar ' ' ∉ w.points := by
  obtain ⟨points⟩ := w
  cases points with
  | nil => cases h
  | cons p ps =>
    obtain ⟨hp, hps⟩ := Bool.and_eq_true_iff.1 h
    have hall : ∀ q ∈ p :: ps, A.continues q = true :=
      forall_mem_cons.2 ⟨continues_of_starts hp, all_eq_true.1 hps⟩
    intro hblank
    cases hall _ hblank

theorem enter_of_starts (h : A.starts p = true) : A.enter p = some ([], .word [p]) := by
  have hne : ∀ c : Char, A.starts (.ofChar c) = false → p ≠ .ofChar c := by
    rintro c hc rfl
    cases hc.symm.trans h
  rw [enter, if_neg, if_neg (hne '/' rfl), if_neg (hne '"' rfl), if_pos h]
  simp only [mem_cons, not_mem_nil, or_false, not_or]
  exact ⟨hne ' ' rfl, hne '\t' rfl, hne '\n' rfl⟩

theorem tokens_word (h : A.isIdentifier w = true) : A.tokens w = some [.word w] := by
  obtain ⟨points⟩ := w
  cases points with
  | nil => cases h
  | cons p ps =>
    obtain ⟨hp, hps⟩ := Bool.and_eq_true_iff.1 h
    have hscan : ∀ read, A.scan (.word read) ps = some ([], .word (read ++ ps)) := by
      clear hp h
      induction ps with
      | nil => simp [scan]
      | cons q ps ih =>
        intro read
        obtain ⟨hq, hps⟩ := Bool.and_eq_true_iff.1 hps
        simp [scan, next, hq, ih hps]
    refine tokens_eq_some.2 ⟨[], .word (p :: ps), [.word ⟨p :: ps⟩], ?_, rfl, rfl⟩
    simp [scan, next, enter_of_starts hp, hscan]

theorem scan_comment (h : .ofChar '*' ∉ ps) : A.scan .comment ps = some ([], .comment) := by
  induction ps with
  | nil => rfl
  | cons p ps ih =>
    obtain ⟨hp, hps⟩ := not_or.1 (mt mem_cons.2 h)
    simp [scan, next, Ne.symm hp, ih hps]

theorem tokens_comment (h : .ofChar '*' ∉ text.points) :
    A.tokens (" /* " ++ text ++ " */") = some [] := by
  have hbegin : A.scan .between (" /* " : Text).points = some ([], .comment) := rfl
  have hend : A.scan .comment (" */" : Text).points = some ([], .between) := rfl
  exact tokens_of_scan (scan_append (scan_append hbegin (scan_comment h)) hend)

theorem hexValue?_digitChar {d : ℕ} (hd : d < 16) :
    hexValue? (.ofChar (Nat.digitChar d)) = some d := by
  interval_cases d <;> rfl

theorem scan_jsonPoint (p : CodePoint) (read : List CodePoint) :
    A.scan (.string read) (Text.jsonPoint p).points = some ([], .string (read ++ [p])) := by
  have hpoint : ∀ {n : ℕ} (hn : n < 0x110000), (p.val == n) = true → p = ⟨n, hn⟩ :=
    fun _ h => Fin.ext (beq_iff_eq.1 h)
  rw [Text.jsonPoint]
  split_ifs with hquote hescape hline hreturn htab hfeed hback hcontrol
  · exact hpoint (by decide) hquote ▸ rfl
  · exact hpoint (by decide) hescape ▸ rfl
  · exact hpoint (by decide) hline ▸ rfl
  · exact hpoint (by decide) hreturn ▸ rfl
  · exact hpoint (by decide) htab ▸ rfl
  · exact hpoint (by decide) hfeed ▸ rfl
  · exact hpoint (by decide) hback ▸ rfl
  · have hpoints : (Text.ofString ("\\u" ++ Text.hex 4 p.val)).points =
        ['\\', 'u', '0', '0'].map .ofChar ++
          [.ofChar (Nat.digitChar (p.val / 16)), .ofChar (Nat.digitChar (p.val % 16))] := by
      rw [Text.ofString, String.toList_append, StringLiteral.toList_hex hcontrol]
      rfl
    have hbegin : A.scan (.string read) (['\\', 'u', '0', '0'].map .ofChar) =
        some ([], .hex read 1 0) := rfl
    have hvalue : p.val / 16 * 16 + p.val % 16 = p.val := Nat.div_add_mod' _ _
    rw [hpoints]
    refine scan_append hbegin ?_
    simp [scan, next, hexValue?_digitChar (show p.val / 16 < 16 by omega),
      hexValue?_digitChar (show p.val % 16 < 16 by omega), hvalue]
  · have hne : ∀ c : Char, (p.val == c.toNat) = false → p ≠ .ofChar c := by
      rintro c hc rfl
      exact absurd hc (by simp [CodePoint.ofChar])
    simp [scan, next, hne '"' (by simpa using hquote), hne '\\' (by simpa using hescape), hcontrol]

theorem scan_jsonQuoted (t : Text) :
    A.scan .between t.jsonQuoted.points = some ([.string t], .between) := by
  have hbody : ∀ points read : List CodePoint,
      A.scan (.string read) (points.flatMap fun p => (Text.jsonPoint p).points) =
        some ([], .string (read ++ points)) := by
    intro points
    induction points with
    | nil =>
      intro read
      rw [append_nil]
      rfl
    | cons p points ih =>
      intro read
      rw [flatMap_cons]
      rw [scan_append (scan_jsonPoint p read) (ih _), append_assoc]
      rfl
  have hbegin : A.scan .between ("\"" : Text).points = some ([], .string []) := rfl
  have hend : A.scan (.string t.points) ("\"" : Text).points = some ([.string t], .between) := rfl
  exact scan_append (scan_append hbegin (hbody t.points [])) hend

end Alphabet

end DeclBridge.TypeGrammar
