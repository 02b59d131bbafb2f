import DeclBridge.Source.TokenStream
import Mathlib.Data.List.DropRight
import Mathlib.Data.List.Infix

/-!
# Tokens and their places

The tokens of a text, with the blanks and comments between them, are the text: nothing is lost,
nothing is read twice and nothing changes place.  The scanner keeps a place and a number of
characters that it still has to pass over, and it moves its place one character at a time, also
within raw strings and comments that run over line ends.  So its place is always that of the text
before it (`scanFrom_eq`), and a token carries the place of its first character.

`Position.after` says what that place is without any scanner: lines are counted by the line breaks,
columns by the characters since the last one.
-/

namespace DeclBridge

open List

variable {before cs : List Char} {l : Lexeme} {parts : List TextPart} {c : Char} {n : Nat}
  {part : TextPart} {dialect : Dialect}

/-! ## Places -/

/-- The place after a text. -/
def Position.after (text : List Char) : Position :=
  ⟨text.count '\n' + 1, (text.rtakeWhile (· ≠ '\n')).length + 1⟩

/-- The order of places: by line, then by column. -/
def Position.Before (p q : Position) : Prop :=
  p.line < q.line ∨ p.line = q.line ∧ p.column < q.column

namespace Position

theorem after_advance (text : List Char) (c : Char) :
    (after text).advance c = after (text ++ [c]) := by
  unfold advance after
  by_cases h : c = '\n'
  · subst h
    simp
  · simp [h, rtakeWhile_concat_pos]

theorem Before.trans {p q r : Position} (h : p.Before q) (h' : q.Before r) : p.Before r := by
  unfold Before at *
  omega

theorem before_advance (p : Position) (c : Char) : p.Before (p.advance c) := by
  unfold advance Before
  split <;> simp

theorem after_before_append (text : List Char) {more : List Char} (h : more ≠ []) :
    (after text).Before (after (text ++ more)) := by
  induction more generalizing text with
  | nil => exact absurd rfl h
  | cons c more ih =>
    have hstep : (after text).Before (after (text ++ [c])) :=
      after_advance text c ▸ before_advance _ c
    by_cases hmore : more = []
    · subst hmore
      exact hstep
    · rw [append_cons]
      exact hstep.trans (ih _ hmore)

end Position

/-! ## Parts of a text -/

/-- What stands between tokens: blanks within a line, a comment up to the end of its line, or a
comment up to the first closing mark. -/
inductive Ignored : List Char → Prop
  | blanks {text : List Char} (hne : text ≠ []) (h : ∀ c ∈ text, Lexeme.isLineBlank c = true) :
    Ignored text
  | line {body : List Char} (h : '\n' ∉ body) : Ignored ('/' :: '/' :: body)
  | block {body : List Char} (h : ¬ ['*', '/'] <:+: body ++ ['*']) :
    Ignored ('/' :: '*' :: (body ++ ['*', '/']))

/-- A part of a text: a token, or what stands between tokens. -/
inductive TextPart where
  | token (t : Token)
  | ignored (text : List Char) (h : Ignored text)

namespace TextPart

def text : TextPart → List Char
  | token t => t.text.toList
  | ignored cs _ => cs

/-- The token that a part is, if it is one. -/
def token? : TextPart → Option Token
  | token t => some t
  | ignored _ _ => none

/-- Each token stands at the place of the parts before it, after the text `before`, and has at least
one character. -/
def Placed (before : List Char) (parts : List TextPart) : Prop :=
  ∀ front t back, parts = front ++ token t :: back →
    t.pos = .after (before ++ front.flatMap text) ∧ t.text.toList ≠ []

theorem Placed.cons (hpart : ∀ t, part = token t → t.pos = .after before ∧ t.text.toList ≠ [])
    (h : Placed (before ++ part.text) parts) : Placed before (part :: parts) := by
  intro front t back hparts
  rcases cons_eq_append_iff.1 hparts with ⟨rfl, heq⟩ | ⟨front, rfl, heq⟩
  · simpa using hpart t (cons.inj heq).1.symm
  · simpa using h front t back heq

theorem Placed.tail (h : Placed before (part :: parts)) : Placed (before ++ part.text) parts := by
  rintro front t back rfl
  simpa using h (part :: front) t back rfl

theorem Placed.pairwise (h : Placed before parts) :
    (parts.filterMap token?).Pairwise fun t t' => t.pos.Before t'.pos := by
  induction parts generalizing before with
  | nil => exact .nil
  | cons part parts ih =>
    cases part with
    | ignored => exact ih h.tail
    | token t =>
      refine .cons (fun t' ht' => ?_) (ih h.tail)
      obtain ⟨part, hpart, htoken⟩ := mem_filterMap.1 ht'
      obtain ⟨front, back, rfl⟩ := append_of_mem hpart
      obtain rfl : part = token t' := by
        cases part with
        | ignored => cases htoken
        | token => rw [Option.some.inj htoken]
      obtain ⟨hpos, hne⟩ := h [] t _ rfl
      obtain ⟨hpos', -⟩ := h (token t :: front) t' back rfl
      rw [hpos, hpos', flatMap_nil, append_nil]
      exact Position.after_before_append before (by simp [text, hne])

end TextPart

/-! ## Lexemes -/

namespace Lexeme

theorem takeWhile_pos {p : Char → Bool} (h : p c = true) (cs : List Char) :
    0 < ((c :: cs).takeWhile p).length := by
  rw [takeWhile_cons_of_pos h]
  exact Nat.succ_pos _

/-- A lexeme that makes a token. -/
def IsToken (l : Lexeme) : Prop := 0 < l.length ∧ l.kind ≠ none

theorem withSuffix_isToken {kind : TokenKind} (h : 0 < n) : (withSuffix cs kind n).IsToken := by
  unfold withSuffix
  split <;> simp [IsToken, h]

theorem wholeNumber_isToken (h : Text.isDecimal c = true) (cs : List Char) :
    (wholeNumber (c :: cs)).IsToken := by
  have hrun : 0 < runLength (c :: cs) := takeWhile_pos (by simp [isRunChar, h]) cs
  unfold wholeNumber
  dsimp only
  split
  · split
    · simp [IsToken]
    · refine ⟨?_, by simp⟩
      cases hbased : basedLength? (c :: cs) with
      | none => exact hrun
      | some n =>
        unfold basedLength? at hbased
        grind
  · exact withSuffix_isToken (by omega)

theorem operator_isToken (h : operator? dialect cs = some l) : l.IsToken := by
  unfold operator? ofMark at h
  unfold IsToken
  split at h <;> grind

/-- The stretch up to the first closing mark ends in that mark, and has no other. -/
theorem commentLength_spec (h : commentLength? cs = some n) :
    ∃ body, cs.take n = body ++ ['*', '/'] ∧ ¬ ['*', '/'] <:+: body ++ ['*'] := by
  fun_induction commentLength? cs generalizing n with
  | case1 cs =>
    cases h
    exact ⟨[], rfl, by simp [infix_cons_iff]⟩
  | case2 c cs hopen ih =>
    obtain ⟨m, hm, rfl⟩ := Option.map_eq_some_iff.1 h
    obtain ⟨body, htake, hbody⟩ := ih hm
    refine ⟨c :: body, by rw [take_succ_cons, htake]; rfl, ?_⟩
    rw [cons_append, infix_cons_iff, not_or]
    refine ⟨?_, hbody⟩
    -- a closing mark at the head would have been found
    rw [cons_prefix_cons]
    rintro ⟨rfl, tail, htail⟩
    have hcs : cs = '/' :: (tail ++ ['/'] ++ cs.drop m) := by
      conv_lhs => rw [← take_append_drop m cs, htake]
      rw [show body ++ ['*', '/'] = (body ++ ['*']) ++ ['/'] by simp, ← htail]
      rfl
    exact hopen _ rfl hcs
  | case3 => cases h

end Lexeme

open Lexeme in
/-- A lexeme has at least one character, and it makes a token unless it is a stretch of blanks or a
comment. -/
theorem lexeme_spec (h : lexeme? dialect cs = some l) :
    0 < l.length ∧ (l.kind = none → Ignored (cs.take l.length)) := by
  have htoken {l : Lexeme} (hl : l.IsToken) :
      0 < l.length ∧ (l.kind = none → Ignored (cs.take l.length)) :=
    ⟨hl.1, fun hkind => absurd hkind hl.2⟩
  have hquoted {kind : TokenKind} {n? : Option Nat}
      (h : n?.map (fun n => (⟨some kind, n + 1⟩ : Lexeme)) = some l) : l.IsToken := by
    obtain ⟨n, -, rfl⟩ := Option.map_eq_some_iff.1 h
    simp [IsToken]
  cases cs with
  | nil => cases h
  | cons c rest =>
    unfold lexeme? at h
    dsimp only at h
    split at h
    · cases h
      exact htoken (wholeNumber_isToken ‹_› rest)
    split at h
    · cases h
      obtain ⟨hdot, -⟩ := Bool.and_eq_true_iff.1 ‹_›
      obtain rfl := beq_iff_eq.1 hdot
      exact htoken (withSuffix_isToken (by simp only [fractionLength]; omega))
    split at h
    · split at h
      · split at h
        · cases h
        · cases h
          exact htoken (by simp [IsToken])
      · cases h
    split at h
    · exact htoken (hquoted h)
    split at h
    · exact htoken (hquoted h)
    split at h
    · cases h
      rename_i hword
      refine htoken ⟨takeWhile_pos ?_ rest, by simp [word]⟩
      simp only [Text.isWordStart, Bool.and_eq_true] at hword
      exact hword.1
    split at h
    · cases h
      rename_i hblank
      refine ⟨takeWhile_pos hblank rest, fun _ => ?_⟩
      rw [← prefix_iff_eq_take.1 <| takeWhile_prefix isLineBlank]
      exact .blanks (by simp [hblank]) fun c hc => mem_takeWhile_imp hc
    split at h
    · rename_i body heq
      rw [heq]
      split at h
      · cases h
        obtain ⟨text, htake, htext⟩ := commentLength_spec ‹_›
        refine ⟨Nat.succ_pos _, fun _ => ?_⟩
        rw [take_succ_cons, take_succ_cons, htake]
        exact .block htext
      · exact heq ▸ htoken (operator_isToken h)
    · rename_i body heq
      cases h
      refine ⟨by dsimp only; omega, fun _ => ?_⟩
      rw [heq, Nat.add_comm 2, take_succ_cons, take_succ_cons,
        ← prefix_iff_eq_take.1 <| takeWhile_prefix _]
      exact .line fun hmem => by simpa using mem_takeWhile_imp hmem
    · exact htoken (operator_isToken h)

/-! ## Scanning -/

namespace TokenStream

/-- Characters of the lexeme before are passed over. -/
theorem scanFrom_skip (before : List Char) (n : Nat) (cs : List Char) :
    scanFrom dialect n (.after before) cs =
      scanFrom dialect 0 (.after (before ++ cs.take n)) (cs.drop n) := by
  induction n generalizing before cs with
  | zero => simp
  | succ n ih =>
    cases cs with
    | nil => simp [scanFrom]
    | cons c cs =>
      rw [scanFrom, Position.after_advance, ih]
      simp

/-- A lexeme is read whole, and what comes after it is read at the place after it. -/
theorem scanFrom_eq (h : lexeme? dialect cs = some l) :
    scanFrom dialect 0 (.after before) cs =
      let rest := scanFrom dialect 0 (.after (before ++ cs.take l.length)) (cs.drop l.length)
      match l.kind with
      | none => rest
      | some kind => cons ⟨kind, String.ofList (cs.take l.length), .after before⟩ rest := by
  obtain ⟨hpos, -⟩ := lexeme_spec h
  obtain ⟨kind, n⟩ := l
  obtain ⟨n, rfl⟩ := Nat.exists_eq_add_one_of_ne_zero (Nat.ne_of_gt hpos)
  cases cs with
  | nil => cases h
  | cons c cs =>
    rw [scanFrom, h]
    cases kind <;> simp [Position.after_advance, scanFrom_skip]

/-- Every text from a place on is a sequence of parts, up to its end or to a stray character. -/
theorem exists_parts (dialect : Dialect) (before cs : List Char) :
    ∃ (parts : List TextPart) (rest : List Char), cs = parts.flatMap TextPart.text ++ rest ∧
      scanFrom dialect 0 (.after before) cs = ⟨parts.filterMap TextPart.token?,
        rest.head?.map (⟨·, .after (before ++ parts.flatMap TextPart.text)⟩)⟩ ∧
      TextPart.Placed before parts := by
  induction hn : cs.length using Nat.strong_induction_on generalizing before cs with
  | h n ih =>
    subst hn
    cases hlexeme : lexeme? dialect cs with
    | none =>
      refine ⟨[], cs, rfl, ?_, fun front t back h => by simp at h⟩
      cases cs with
      | nil => rfl
      | cons c cs =>
        rw [scanFrom, hlexeme]
        simp
    | some l =>
      obtain ⟨hpos, hignored⟩ := lexeme_spec hlexeme
      obtain ⟨kind, n⟩ := l
      have hne : cs ≠ [] := by
        rintro rfl
        cases hlexeme
      have hlength := length_pos_of_ne_nil hne
      dsimp only at hpos hignored
      obtain ⟨parts, rest, hparts, hscan, hplaced⟩ := ih (cs.drop n).length
        (by rw [length_drop]; omega) (before ++ cs.take n) (cs.drop n) rfl
      have htext {part : TextPart} (h : part.text = cs.take n) :
          cs = (part :: parts).flatMap TextPart.text ++ rest := by
        rw [flatMap_cons, append_assoc, ← hparts, h, take_append_drop]
      rw [scanFrom_eq hlexeme, hscan]
      -- the lexeme is one more part in front
      cases kind with
      | none =>
        refine ⟨.ignored (cs.take n) (hignored rfl) :: parts, rest, htext rfl, ?_,
          hplaced.cons fun t h => by cases h⟩
        simp [filterMap_cons, TextPart.token?, TextPart.text]
      | some kind =>
        let t : Token := ⟨kind, String.ofList (cs.take n), .after before⟩
        have ht : (TextPart.token t).text = cs.take n := String.toList_ofList
        refine ⟨.token t :: parts, rest, htext ht, ?_, .cons (fun t' h => ?_) (ht ▸ hplaced)⟩
        · simp [TextPart.token?, ht, cons, t]
        · cases h
          refine ⟨rfl, ?_⟩
          rw [String.toList_ofList]
          simpa using ⟨Nat.ne_of_gt hpos, hne⟩

/-- The tokens of a text, with the blanks and comments between them, are the text up to its end or
to a character that begins no token.  Each token begins where the parts before it end, line by the
number of line breaks and column by the characters since the last one, and so the tokens stand one
after another. -/
theorem scan_partitions (dialect : Dialect) (source : String) :
    ∃ (parts : List TextPart) (rest : List Char),
      source.toList = parts.flatMap TextPart.text ++ rest ∧
      (scan dialect source).tokens = parts.filterMap TextPart.token? ∧ (scan dialect source).stray =
        rest.head?.map (⟨·, .after (parts.flatMap TextPart.text)⟩) ∧
      (∀ front t back, parts = front ++ .token t :: back →
        t.pos = .after (front.flatMap TextPart.text) ∧ t.text.toList ≠ []) ∧
      (scan dialect source).tokens.Pairwise fun t t' => t.pos.Before t'.pos := by
  obtain ⟨parts, rest, htext, hscan, hplaced⟩ := exists_parts dialect [] source.toList
  have hscan : scan dialect source = _ := hscan
  rw [hscan]
  exact ⟨parts, rest, htext, rfl, rfl, hplaced, hplaced.pairwise⟩

end TokenStream

end DeclBridge
