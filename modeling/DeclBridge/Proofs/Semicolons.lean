import DeclBridge.Source.TokenStream

/-!
# Where semicolons are inserted

Every stream of tokens is some line breaks and then a sequence of stretches, each a token with the
line breaks after it.  Seen like this the insertion of semicolons has no state: a stretch that is
not the last gets one semicolon if its token can end a statement and at least one line break
follows, and the last stretch gets one if the end of the text counts as a line break
(`punctuated`).

The pass itself keeps the last token and a semicolon that it has not passed on yet.  A semicolon for
the first line break after a token takes the place of that token, and semicolons end no statement;
this is why further line breaks change nothing (`semicolonsFrom_breaks`).
-/

namespace DeclBridge.TokenStream

abbrev LineBreak := { t : Token // t.kind = .newline }

/-- A token that is no line break, with the line breaks after it. -/
structure Stretch where
  token : Token
  not_newline : token.kind ≠ .newline
  breaks : List LineBreak

namespace Stretch

def tokens (s : Stretch) : List Token := s.token :: s.breaks.unattach

/-- The semicolon between a stretch and the next: one at the first line break, if there is one and
the token can end a statement. -/
def semicolon (s : Stretch) : Option Token :=
  if endsStatement s.token.kind then s.breaks.head?.map fun b => ⟨.semicolon, "\n", b.1.pos⟩
  else none

/-- The semicolon after the last stretch of a text: the end of the text, at the place of the token,
does for a line break. -/
def finalSemicolon (s : Stretch) : Option Token :=
  if endsStatement s.token.kind then some (s.semicolon.getD ⟨.semicolon, "", s.token.pos⟩) else none

end Stretch

/-- The tokens of some stretches without the line breaks, with semicolons between them, and after
them where `closing` says so. -/
def punctuated (closing : Bool) : List Stretch → List Token
  | [] => []
  | [s] => s.token :: if closing then s.finalSemicolon.toList else []
  | s :: s' :: rest => s.token :: (s.semicolon.toList ++ punctuated closing (s' :: rest))

theorem exists_stretches (ts : List Token) : ∃ (lead : List LineBreak) (parts : List Stretch),
      ts = lead.unattach ++ parts.flatMap Stretch.tokens := by
  induction ts with
  | nil => exact ⟨[], [], rfl⟩
  | cons t ts ih =>
    obtain ⟨lead, parts, rfl⟩ := ih
    by_cases h : t.kind = .newline
    · exact ⟨⟨t, h⟩ :: lead, parts, rfl⟩
    · exact ⟨[], ⟨t, h, lead⟩ :: parts, rfl⟩

/-- After a token that ends no statement, line breaks change nothing. -/
theorem semicolonsFrom_breaks (closing : Bool) {last : Option Token} (pending : Option Token)
    (breaks : List LineBreak) (rest : List Token) (h : last.any (endsStatement ·.kind) = false) :
    semicolonsFrom closing last pending (breaks.unattach ++ rest) =
      semicolonsFrom closing last pending rest := by
  induction breaks with
  | nil => rfl
  | cons b breaks ih => simpa [semicolonsFrom, b.2, h] using ih

variable {closing : Bool} {last pending : Option Token}

/-- The tokens of a stretch are the token, and a semicolon that is still to be passed on. -/
theorem semicolonsFrom_stretch (s : Stretch) (rest : List Token) :
    semicolonsFrom closing last pending (s.tokens ++ rest) = pending.toList ++ s.token ::
        semicolonsFrom closing (some (s.semicolon.getD s.token)) s.semicolon rest := by
  obtain ⟨t, ht, breaks⟩ := s
  simp only [Stretch.tokens, Stretch.semicolon, List.cons_append, semicolonsFrom, if_neg ht]
  by_cases hends : endsStatement t.kind
  · cases breaks with
    | nil => simp [hends]
    | cons b breaks =>
      -- the semicolon takes the place of the token, and the other line breaks are passed over
      let semi : Token := ⟨.semicolon, "\n", b.1.pos⟩
      have hpassed : semicolonsFrom closing (some semi) (some semi) (breaks.unattach ++ rest) =
          semicolonsFrom closing (some semi) (some semi) rest :=
        semicolonsFrom_breaks closing _ breaks rest rfl
      simpa [hends, semicolonsFrom, b.2] using hpassed
  · have hpassed : semicolonsFrom closing (some t) none (breaks.unattach ++ rest) =
        semicolonsFrom closing (some t) none rest :=
      semicolonsFrom_breaks closing none breaks rest (by simpa using hends)
    simpa [hends] using hpassed

theorem finalSemicolon_stretch (s : Stretch) :
    finalSemicolon (some (s.semicolon.getD s.token)) s.semicolon = s.finalSemicolon.toList := by
  unfold finalSemicolon Stretch.finalSemicolon
  by_cases hends : endsStatement s.token.kind
  · cases hsemi : s.semicolon with
    | none => simp [hends]
    | some semi => simp [hends]
  · simp [Stretch.semicolon, hends]

/-- Stretch by stretch, with a semicolon before the first of them still to be passed on. -/
theorem semicolonsFrom_stretches (s : Stretch) (parts : List Stretch) :
    semicolonsFrom closing last pending ((s :: parts).flatMap Stretch.tokens) =
      pending.toList ++ punctuated closing (s :: parts) := by
  induction parts generalizing s last pending with
  | nil =>
    rw [List.flatMap_cons, semicolonsFrom_stretch]
    cases closing with
    | false => simp [semicolonsFrom, punctuated]
    | true => simp [semicolonsFrom, punctuated, finalSemicolon_stretch]
  | cons s' parts ih => rw [List.flatMap_cons, semicolonsFrom_stretch, ih, punctuated]

/-- Every stream is a sequence of stretches after some line breaks, and with semicolons inserted it
is the tokens of these stretches, in order, with one semicolon after each stretch whose token can
end a statement and that has a line break.  After the last one there is none, unless the end of the text
is reached and counts as a line break. -/
theorem insertSemicolons_eq_punctuated (atEnd : Bool) (s : TokenStream) :
    ∃ (lead : List LineBreak) (parts : List Stretch),
      s.tokens = lead.unattach ++ parts.flatMap Stretch.tokens ∧
      s.insertSemicolons atEnd = ⟨punctuated (atEnd && s.stray.isNone) parts, s.stray⟩ := by
  obtain ⟨lead, parts, h⟩ := exists_stretches s.tokens
  refine ⟨lead, parts, h, ?_⟩
  rw [insertSemicolons, h, semicolonsFrom_breaks _ none lead _ rfl]
  cases parts with
  | nil => simp [semicolonsFrom, punctuated, finalSemicolon]
  | cons s' parts => rw [semicolonsFrom_stretches, Option.toList_none, List.nil_append]

end DeclBridge.TokenStream
