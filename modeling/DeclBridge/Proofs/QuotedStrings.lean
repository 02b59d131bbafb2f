import DeclBridge.Proofs.Utf8
import DeclBridge.Source.Literal
import Mathlib.Data.List.Forall2
import Mathlib.Tactic.IntervalCases

/-!
# Double-quoted strings

A string can be quoted in many ways: each character as itself, by a letter, by its number, or byte
by byte.  `Quotes s q` is the relation of a string and its quotations, and every quotation is read
as the string it quotes.  A text that is no sequence of characters and escapes between double quotes
is refused.

Reading goes by pieces.  The pieces of a text do not depend on what comes after it
(`EscapeForm.readFrom_append`), because the form of an escape says how long it is; so the pieces of
a quotation are those of its characters one after another, and only their bytes are put together
before they are decoded.
-/

namespace DeclBridge

open Escape List Piece

variable {c : Char} {cs w : List Char} {e : Escape} {base count d v : Nat} {bs : List UInt8}
    {ps : List Piece}

/-! ## Quotations -/

/-- A digit of a base, in upper or lower case. -/
def IsDigit (base : Nat) (c : Char) (d : Nat) : Prop :=
  d < base ∧ (c = d.digitChar ∨ c = d.digitChar.toUpper)

instance : Decidable (IsDigit base c d) := inferInstanceAs (Decidable (_ ∧ (_ ∨ _)))

/-- The number that a given count of digits spell. -/
def Numeral (base count : Nat) (cs : List Char) (value : Nat) : Prop :=
  cs.length = count ∧
    ∃ ds, List.Forall₂ (IsDigit base) cs ds ∧ ds.foldl (fun n d => n * base + d) 0 = value

/-- The letters of escapes in strings, with the characters they stand for. -/
def escapeLetters : List (Char × Char) :=
  [('a', '\x07'), ('b', '\x08'), ('f', '\x0c'), ('n', '\n'), ('r', '\r'), ('t', '\t'), ('v', '\x0b'),
    ('\\', '\\'), ('"', '"')]

/-- What the escapes in strings look like. -/
inductive EscapeForm : List Char → Escape → Prop
  | letter {l c : Char} (h : (l, c) ∈ escapeLetters) : EscapeForm ['\\', l] (.letter l c)
  | octal {cs : List Char} {v : Nat} (h : Numeral 8 3 cs v) : EscapeForm ('\\' :: cs) (.octal v)
  | byte {cs : List Char} {v : Nat} (h : Numeral 16 2 cs v) :
    EscapeForm ('\\' :: 'x' :: cs) (.byte v)
  | short {cs : List Char} {v : Nat} (h : Numeral 16 4 cs v) :
    EscapeForm ('\\' :: 'u' :: cs) (.point v)
  | long {cs : List Char} {v : Nat} (h : Numeral 16 8 cs v) :
    EscapeForm ('\\' :: 'U' :: cs) (.point v)

/-- A character that may stand for itself between double quotes. -/
def IsPlain (c : Char) : Prop := c ≠ '\\' ∧ c ≠ '"' ∧ c ≠ '\n'

instance (c : Char) : Decidable (IsPlain c) := inferInstanceAs (Decidable (_ ∧ _ ∧ _))

/-- The ways to write a character between double quotes. -/
inductive WritesChar (c : Char) : List Char → Prop
  | plain (h : IsPlain c) : WritesChar c [c]
  | letter {l : Char} {w : List Char} (h : EscapeForm w (.letter l c)) : WritesChar c w
  | point {w : List Char} (h : EscapeForm w (.point c.toNat)) : WritesChar c w
  | bytes {ws : List (List Char)}
    (h : List.Forall₂ (fun b w => EscapeForm w (.octal b.toNat) ∨ EscapeForm w (.byte b.toNat))
      (String.utf8EncodeChar c) ws) : WritesChar c ws.flatten

def enclosed (body : List Char) : String := String.ofList ('"' :: (body ++ ['"']))

def Quotes (s q : String) : Prop :=
  ∃ ws, List.Forall₂ WritesChar s.toList ws ∧ q = enclosed ws.flatten

/-- A sequence of characters that may stand for themselves and escapes. -/
inductive QuotedBody : List Char → Prop
  | nil : QuotedBody []
  | plain {c : Char} {cs : List Char} (hc : IsPlain c) (h : QuotedBody cs) : QuotedBody (c :: cs)
  | escape {w cs : List Char} {e : Escape} (hw : EscapeForm w e) (h : QuotedBody cs) :
    QuotedBody (w ++ cs)

/-! ## Digits -/

namespace Escape

theorem digitValue_eq_some_iff (hbase : base ≤ 16) :
    digitValue? base c = some d ↔ IsDigit base c d := by
  have hle {a b : Char} : a ≤ b ↔ a.toNat ≤ b.toNat := Iff.rfl
  constructor
  · intro h
    obtain ⟨n, hn, rfl⟩ : ∃ n, c.toNat = n ∧ c = Char.ofNat n :=
      ⟨_, rfl, (Char.ofNat_toNat c).symm⟩
    simp only [digitValue?, hle, hn, Char.reduceToNat, Option.ite_none_right_eq_some,
      Option.some.injEq] at h
    have hcases : d < base ∧ (48 ≤ n ∧ n ≤ 57 ∧ d = n - 48 ∨ 97 ≤ n ∧ n ≤ 102 ∧ d = n - 87 ∨
        65 ≤ n ∧ n ≤ 70 ∧ d = n - 55) := by
      split_ifs at h <;> omega
    obtain ⟨hd, ⟨h₁, h₂, rfl⟩ | ⟨h₁, h₂, rfl⟩ | ⟨h₁, h₂, rfl⟩⟩ := hcases
    all_goals
      refine ⟨hd, ?_⟩
      interval_cases n <;> decide
  · rintro ⟨hd, hc⟩
    have h16 : digitValue? 16 c = some d := by
      have hlt : d < 16 := by omega
      interval_cases d <;> rcases hc with rfl | rfl <;> decide
    simp only [digitValue?, Option.ite_none_right_eq_some, Option.some.injEq] at h16 ⊢
    split_ifs at h16 ⊢ <;> omega

/-- Digits at the head are read as the number they spell, whatever comes after them. -/
theorem number_of_digits (hbase : base ≤ 16) {ds : List Nat}
    (h : List.Forall₂ (IsDigit base) cs ds) (n : Nat) (rest : List Char) :
    number? base cs.length n (cs ++ rest) = some (ds.foldl (fun n d => n * base + d) n) := by
  induction h generalizing n with
  | nil => rfl
  | cons hd _ ih =>
    rw [length_cons, cons_append, number?, (digitValue_eq_some_iff hbase).2 hd]
    exact ih _

theorem digits_of_number (hbase : base ≤ 16) {n : Nat} (h : number? base count n cs = some v) :
    (cs.take count).length = count ∧ ∃ ds, List.Forall₂ (IsDigit base) (cs.take count) ds ∧
      ds.foldl (fun n d => n * base + d) n = v := by
  fun_induction number? base count n cs with
  | case1 n cs => exact ⟨by simp, [], by simp, Option.some.inj h⟩
  | case2 => cases h
  | case3 count n c rest d hd ih =>
    obtain ⟨hlength, ds, hds, hv⟩ := ih h
    exact ⟨by simp [hlength], d :: ds, .cons ((digitValue_eq_some_iff hbase).1 hd) hds, hv⟩
  | case4 => cases h

theorem number_of_numeral (hbase : base ≤ 16) (h : Numeral base count cs v) (rest : List Char) :
    number? base count 0 (cs ++ rest) = some v := by
  obtain ⟨rfl, ds, hds, rfl⟩ := h
  exact number_of_digits hbase hds 0 rest

/-! ## Escapes -/

theorem letter_eq_some_iff {l : Char} :
    letter? l = some c ↔ l = '\'' ∧ c = '\'' ∨ (l, c) ∈ escapeLetters := by
  constructor
  · intro h
    unfold letter? at h
    split at h <;> cases h <;> simp [escapeLetters]
  · simp only [escapeLetters, mem_cons, Prod.mk.injEq, not_mem_nil, or_false]
    rintro (⟨rfl, rfl⟩ | ⟨rfl, rfl⟩ | ⟨rfl, rfl⟩ | ⟨rfl, rfl⟩ | ⟨rfl, rfl⟩ | ⟨rfl, rfl⟩ | ⟨rfl, rfl⟩ |
      ⟨rfl, rfl⟩ | ⟨rfl, rfl⟩ | ⟨rfl, rfl⟩) <;> rfl

theorem not_letter_of_isDigit (h : IsDigit 8 c d) :
    letter? c = none ∧ c ≠ 'x' ∧ c ≠ 'u' ∧ c ≠ 'U' := by
  obtain ⟨hd, hc⟩ := h
  interval_cases d <;> rcases hc with rfl | rfl <;> decide

theorem read_of_octal (h : letter? c = none ∧ c ≠ 'x' ∧ c ≠ 'u' ∧ c ≠ 'U') :
    read? (c :: cs) = (number? 8 3 0 (c :: cs)).map (.octal ·, 3) := by
  unfold read?
  simp only [h.1]
  split <;> simp_all

end Escape

/-- An escape is read as such, whatever comes after it. -/
theorem EscapeForm.read_append (h : EscapeForm w e) :
    ∃ cs, w = '\\' :: cs ∧ ∀ rest, read? (cs ++ rest) = some (e, cs.length) := by
  cases h with
  | @letter l c h =>
    refine ⟨[l], rfl, fun rest => ?_⟩
    simp [read?, letter_eq_some_iff.2 (.inr h)]
  | @octal cs v h =>
    refine ⟨cs, rfl, fun rest => ?_⟩
    have hnumber := number_of_numeral (by omega) h rest
    obtain ⟨hlength, ds, hds, -⟩ := h
    cases hds with
    | nil => cases hlength
    | cons hd hds =>
      rw [cons_append] at hnumber ⊢
      rw [read_of_octal (not_letter_of_isDigit hd), hnumber, hlength]
      rfl
  | @byte cs v h =>
    refine ⟨'x' :: cs, rfl, fun rest => ?_⟩
    simp [read?, letter?, number_of_numeral (by omega) h rest, h.1]
  | @short cs v h =>
    refine ⟨'u' :: cs, rfl, fun rest => ?_⟩
    simp [read?, letter?, number_of_numeral (by omega) h rest, h.1]
  | @long cs v h =>
    refine ⟨'U' :: cs, rfl, fun rest => ?_⟩
    simp [read?, letter?, number_of_numeral (by omega) h rest, h.1]

/-- What is read as an escape has the form of one, or is an escaped single quote. -/
theorem EscapeForm.of_read {used : Nat} (h : read? cs = some (e, used)) :
    e = .letter '\'' '\'' ∨ EscapeForm ('\\' :: cs.take used) e := by
  have hnumeral {base count n : Nat} {cs : List Char} {make : Nat → Escape}
      (h : (number? base count 0 cs).map (make ·, n) = some (e, used)) (hbase : base ≤ 16) :
      used = n ∧ ∃ v, make v = e ∧ Numeral base count (cs.take count) v := by
    obtain ⟨v, hv, heq⟩ := Option.map_eq_some_iff.1 h
    cases heq
    exact ⟨rfl, v, rfl, digits_of_number hbase hv⟩
  cases cs with
  | nil => cases h
  | cons c rest =>
    unfold read? at h
    cases hletter : letter? c with
    | some meant =>
      simp only [hletter, Option.some.injEq, Prod.mk.injEq] at h
      obtain ⟨rfl, rfl⟩ := h
      rcases letter_eq_some_iff.1 hletter with ⟨rfl, rfl⟩ | hmem
      · exact .inl rfl
      · exact .inr (.letter hmem)
    | none =>
      simp only [hletter] at h
      split at h
      · obtain ⟨rfl, v, rfl, hv⟩ := hnumeral h (by omega)
        exact .inr (.byte hv)
      · obtain ⟨rfl, v, rfl, hv⟩ := hnumeral h (by omega)
        exact .inr (.short hv)
      · obtain ⟨rfl, v, rfl, hv⟩ := hnumeral h (by omega)
        exact .inr (.long hv)
      · obtain ⟨rfl, v, rfl, hv⟩ := hnumeral h (by omega)
        exact .inr (.octal hv)

/-! ## Pieces -/

namespace Piece

/-- A piece that may stand between double quotes. -/
def Admitted (p : Piece) : Prop := p.isEscapedQuote = false ∧ p.isForbidden = false

theorem readFrom_skip (n : Nat) (cs : List Char) : readFrom n cs = readFrom 0 (cs.drop n) :=
  Text.skip_eq_drop (fun _ => rfl) (fun _ _ _ => rfl) n cs

theorem readFrom_escape (h : EscapeForm w e) (rest : List Char) :
    readFrom 0 (w ++ rest) = .escape e :: readFrom 0 rest := by
  obtain ⟨cs, rfl, hread⟩ := h.read_append
  rw [cons_append, readFrom, if_pos rfl, hread]
  simp [readFrom_skip]

theorem readFrom_plain (h : c ≠ '\\') (rest : List Char) :
    readFrom 0 (c :: rest) = .plain c :: readFrom 0 rest := by
  simp [readFrom, h]

theorem admitted_escape (h : EscapeForm w e) : (escape e).Admitted := by
  refine ⟨?_, rfl⟩
  cases h with
  | @letter l c h =>
    have hl : l ≠ '\'' := by
      rintro rfl
      simp [escapeLetters] at h
    unfold isEscapedQuote
    split
    · simp_all
    · rfl
  | _ => rfl

theorem admitted_plain (h : IsPlain c) : (plain c).Admitted := by
  obtain ⟨h₁, h₂, h₃⟩ := h
  simp [Admitted, isEscapedQuote, isForbidden, h₁, h₂, h₃]

theorem allBytes_append {qs : List Piece} {cs : List UInt8} (hps : allBytes ps = .ok bs)
    (hqs : allBytes qs = .ok cs) : allBytes (ps ++ qs) = .ok (bs ++ cs) := by
  induction ps generalizing bs with
  | nil =>
    cases hps
    exact hqs
  | cons p ps ih =>
    cases hp : p.bytes with
    | error => simp [allBytes, hp, bind, Except.bind] at hps
    | ok head =>
      cases htail : allBytes ps with
      | error => simp [allBytes, hp, htail, bind, Except.bind] at hps
      | ok tail =>
        simp only [allBytes, hp, htail, bind, Except.bind, pure, Except.pure, Except.ok.injEq] at hps
        subst hps
        simp [allBytes, hp, ih htail, bind, Except.bind, pure, Except.pure]

/-- A text whose pieces are the same in front of every text, with the bytes of these pieces. -/
structure Spells (w : List Char) (bytes : List UInt8) (ps : List Piece) : Prop where
  read : ∀ rest, readFrom 0 (w ++ rest) = ps ++ readFrom 0 rest
  admitted : ∀ p ∈ ps, p.Admitted
  bytes : allBytes ps = .ok bytes

theorem Spells.nil : Spells [] [] [] := ⟨fun _ => rfl, by simp, rfl⟩

theorem Spells.append {w' : List Char} {bs' : List UInt8} {ps' : List Piece}
    (h : Spells w bs ps) (h' : Spells w' bs' ps') : Spells (w ++ w') (bs ++ bs') (ps ++ ps') where
  read rest := by rw [append_assoc, h.read, h'.read, append_assoc]
  admitted := forall_mem_append.2 ⟨h.admitted, h'.admitted⟩
  bytes := allBytes_append h.bytes h'.bytes

theorem Spells.escape (h : EscapeForm w e)
    (hbytes : e.bytes = .ok bs) : Spells w bs [.escape e] where
  read := readFrom_escape h
  admitted := by simpa using admitted_escape h
  bytes := by simp [allBytes, Piece.bytes, hbytes, bind, Except.bind, pure, Except.pure]

theorem exists_spells_flatten {α : Type} {R : α → List Char → Prop} {f : α → List UInt8}
    (hR : ∀ a w, R a w → ∃ ps, Spells w (f a) ps) {as : List α} {ws : List (List Char)}
    (h : List.Forall₂ R as ws) : ∃ ps, Spells ws.flatten (as.flatMap f) ps := by
  induction h with
  | nil => exact ⟨[], .nil⟩
  | cons hhead _ ih =>
    obtain ⟨ps, hps⟩ := hR _ _ hhead
    obtain ⟨ps', hps'⟩ := ih
    exact ⟨ps ++ ps', hps.append hps'⟩

theorem exists_spells_byte {b : UInt8}
    (h : EscapeForm w (.octal b.toNat) ∨ EscapeForm w (.byte b.toNat)) : ∃ ps, Spells w [b] ps := by
  have hb := b.toNat_lt
  rcases h with h | h
  · exact ⟨_, .escape h (by rw [Escape.bytes, if_neg (by omega)]; simp)⟩
  · exact ⟨_, .escape h (by simp [Escape.bytes])⟩

theorem exists_spells_char (h : WritesChar c w) : ∃ ps, Spells w (Text.encodeChar c) ps := by
  cases h with
  | plain h =>
    refine ⟨[.plain c], readFrom_plain h.1, by simpa using admitted_plain h, ?_⟩
    simp [allBytes, Piece.bytes, bind, Except.bind, pure, Except.pure]
  | letter h => exact ⟨_, .escape h rfl⟩
  | point h =>
    have hvalid := Text.toNat_bounds c
    refine ⟨_, .escape h ?_⟩
    rw [Escape.bytes, if_neg (by omega), if_neg (by omega), Char.ofNat_toNat]
  | bytes h =>
    obtain ⟨ps, hps⟩ := exists_spells_flatten (fun _ _ hw => exists_spells_byte hw) h
    rw [flatMap_singleton'] at hps
    exact ⟨ps, Text.encodeChar_eq c ▸ hps⟩

/-- What has only pieces that may stand between double quotes is a sequence of characters and
escapes. -/
theorem quotedBody_of_admitted (h : ∀ p ∈ read cs, p.Admitted) : QuotedBody cs := by
  unfold read at h
  induction hn : cs.length using Nat.strong_induction_on generalizing cs with
  | h n ih =>
    subst hn
    cases cs with
    | nil => exact .nil
    | cons c rest =>
      by_cases hc : c = '\\'
      · subst hc
        cases hread : read? rest with
        | none =>
          have hplain := h (.plain '\\') (by simp [readFrom, hread])
          cases hplain.2
        | some r =>
          obtain ⟨e, used⟩ := r
          rw [readFrom, if_pos rfl, hread] at h
          obtain ⟨hescape, hrest⟩ := forall_mem_cons.1 h
          rw [readFrom_skip] at hrest
          have hform : EscapeForm ('\\' :: rest.take used) e := by
            refine (EscapeForm.of_read hread).resolve_left ?_
            rintro rfl
            cases hescape.1
          have hshorter : (rest.drop used).length < ('\\' :: rest).length := by
            rw [length_drop, length_cons]
            omega
          have hbody := ih _ hshorter hrest rfl
          simpa using QuotedBody.escape hform hbody
      · rw [readFrom_plain hc, forall_mem_cons] at h
        have hplain : IsPlain c := by
          have hforbidden := h.1.2
          simp only [isForbidden, Bool.or_eq_false_iff, beq_eq_false_iff_ne] at hforbidden
          exact ⟨hc, hforbidden.1.2, hforbidden.2⟩
        exact .plain hplain (ih rest.length (by simp) h.2 rfl)

end Piece

/-! ## Whole literals -/

@[simp] theorem betweenEnds_enclosed (body : List Char) :
    betweenEnds (enclosed body).toList = body := by
  simp [betweenEnds, enclosed]

theorem unquote_enclosed (body : List Char) : unquote (enclosed body) =
      if (read body).any isEscapedQuote then .error (.invalid .escapedQuote)
      else if (read body).any isForbidden then .error (.invalid (.malformedString (enclosed body)))
      else text (read body) := by
  have hends : ¬ ((enclosed body).toList.length < 2 ∨ (enclosed body).toList.head? ≠ some '"' ∨
      (enclosed body).toList.getLast? ≠ some '"') := by
    simp [enclosed, getLast?_cons, getLast?_append]
  rw [unquote, if_neg hends, betweenEnds_enclosed]

theorem unquote_of_not_enclosed {q : String} (h : ∀ body, q ≠ enclosed body) :
    unquote q = .error (.invalid (.notQuoted q)) := by
  rw [unquote, if_pos]
  by_contra hends
  rw [not_or, not_or, not_not, not_not, head?_eq_some_iff, getLast?_eq_some_iff] at hends
  obtain ⟨hlength, ⟨tail, htail⟩, front, hfront⟩ := hends
  cases front with
  | nil =>
    rw [hfront] at hlength
    exact hlength (by simp)
  | cons c body =>
    obtain ⟨rfl, -⟩ := cons.inj (htail.symm.trans hfront)
    exact h body (String.toList_injective (by rw [hfront, enclosed, String.toList_ofList]; rfl))

theorem Quotes.exists_pieces {s q : String} (h : Quotes s q) : ∃ body, q = enclosed body ∧
    (∀ p ∈ read body, p.Admitted) ∧ text (read body) = .ok s := by
  obtain ⟨ws, hws, rfl⟩ := h
  obtain ⟨ps, hread, hadmitted, hbytes⟩ :=
    exists_spells_flatten (fun _ _ hw => exists_spells_char hw) hws
  have hread : Piece.read ws.flatten = ps := by simpa [Piece.readFrom, Piece.read] using hread []
  rw [← hread] at hadmitted hbytes
  refine ⟨_, rfl, hadmitted, ?_⟩
  rw [Piece.text, hbytes, Except.map, Text.decodeLossy, Text.decodeFrom_encodeChars,
    String.ofList_toList]

theorem unquote_of_admitted {body : List Char} (h : ∀ p ∈ read body, p.Admitted) :
    unquote (enclosed body) = text (read body) := by
  rw [unquote_enclosed, if_neg, if_neg]
  · simpa using fun p hp => (h p hp).2
  · simpa using fun p hp => (h p hp).1

/-- Every quotation of a string is read as the string, on its own and as a literal; and a text that
is no sequence of characters and escapes between double quotes is refused. -/
theorem unquote_quotes : (∀ s q, Quotes s q →
      unquote q = .ok s ∧ Literal.stringValue ⟨.string, q⟩ = .ok s) ∧
    ∀ q, (∀ body, QuotedBody body → q ≠ enclosed body) → ∃ why, unquote q = .error (.invalid why) := by
  constructor
  · intro s q h
    obtain ⟨body, rfl, hadmitted, htext⟩ := h.exists_pieces
    rw [unquote_of_admitted hadmitted, Literal.stringValue]
    simp [htext]
  · intro q hq
    by_cases henclosed : ∃ body, q = enclosed body
    · obtain ⟨body, rfl⟩ := henclosed
      rw [unquote_enclosed]
      split
      · exact ⟨_, rfl⟩
      split
      · exact ⟨_, rfl⟩
      · refine absurd rfl (hq body (quotedBody_of_admitted fun p hp => ⟨?_, ?_⟩)) <;> simp_all
    · exact ⟨_, unquote_of_not_enclosed fun body heq => henclosed ⟨body, heq⟩⟩

end DeclBridge
