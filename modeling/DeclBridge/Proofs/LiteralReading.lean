import DeclBridge.Proofs.Literals

/-!
# Literals read back

The literal of a constant is read back as the constant.  A numeral is read by its digits, its point
and its power of ten (`Numeral.value`), a string by replacing its escapes (`StringLiteral.unescape`).
Both are functions of the text alone.  An integer is read back exactly, however large it is.  Of a
double the shortest decimal is written, and exactly that decimal is read back; a fraction is written
as the nearest double is.
-/

namespace DeclBridge.Numeral

theorem value_plainDecimal (n : ℤ) : Number (Number.plainDecimal n).toList ∧
    value (Number.plainDecimal n).toList = n := by
  have hwhole := whole_toDigits n.natAbs
  have hmagnitude : magnitude (Nat.toDigits 10 n.natAbs ++ []) = n.natAbs := by
    have h := magnitude_parts hwhole (.inl rfl) (.inl rfl)
    simpa [mantissa, power] using h
  have hvalue := value_signed (decide (n < 0)) hwhole []
  rw [hmagnitude, List.append_nil] at hvalue
  simp only [decide_eq_true_eq] at hvalue
  rw [toList_plainDecimal, hvalue]
  refine ⟨⟨_, _, [], [], sign_ite (n < 0), hwhole, .inl rfl, .inl rfl, by simp⟩, ?_⟩
  rw [← Int.cast_natCast, Int.natCast_natAbs]
  split
  · rw [abs_of_neg ‹_›]
    simp
  · rw [abs_of_nonneg (not_lt.1 ‹_›), one_mul]

end DeclBridge.Numeral

namespace DeclBridge.StringLiteral

/-! ## Strings -/

/-- The code point that a letter stands for after a backslash. -/
def escaped? (p : CodePoint) : Option CodePoint :=
  ([('"', '"'), ('\\', '\\'), ('/', '/'), ('b', '\x08'), ('f', '\x0c'), ('n', '\n'), ('r', '\r'),
    ('t', '\t')].lookup (Char.ofNat p.val)).map .ofChar

/-- The code point that four hexadecimal digits spell. -/
def hexPoint? (ps : List CodePoint) : Option CodePoint :=
  (ps.mapM fun p => Escape.digitValue? 16 (Char.ofNat p.val)).bind fun ds =>
    let n := ds.foldl (fun n d => n * 16 + d) 0
    if h : n < 0x110000 then some ⟨n, h⟩ else none

/-- The code points between the quotes of a string literal, with the escapes replaced. -/
def unescape : List CodePoint → Option (List CodePoint)
  | [] => some []
  | p :: rest =>
    if p = .ofChar '\\' then
      match rest with
      | [] => none
      | l :: rest =>
        match escaped? l, rest with
        | some meant, rest => (unescape rest).map (meant :: ·)
        | none, a :: b :: c :: d :: rest =>
          if l = .ofChar 'u' then
            match hexPoint? [a, b, c, d] with
            | some point => (unescape rest).map (point :: ·)
            | none => none
          else none
        | none, _ => none
    else if p.val < 0x20 ∨ p = .ofChar '"' then none
    else (unescape rest).map (p :: ·)

theorem unescape_letter {l c : Char} (h : escaped? (.ofChar l) = some (.ofChar c))
    (rest : List CodePoint) : unescape (.ofChar '\\' :: .ofChar l :: rest) =
      (unescape rest).map (.ofChar c :: ·) := by
  rw [unescape, if_pos rfl]
  simp only [h]

theorem unescape_jsonPoint (p : CodePoint) (rest : List CodePoint) :
    unescape ((Text.jsonPoint p).points ++ rest) = (unescape rest).map (p :: ·) := by
  have hpoint {c : Char} (h : (p.val == c.toNat) = true) : p = .ofChar c :=
    Fin.ext (beq_iff_eq.1 h)
  have hletter {l c : Char} (hp : (p.val == c.toNat) = true)
      (h : escaped? (.ofChar l) = some (.ofChar c)) :
      unescape (([.ofChar '\\', .ofChar l] : List CodePoint) ++ rest) =
        (unescape rest).map (p :: ·) := by
    rw [hpoint hp]
    exact unescape_letter h rest
  rw [Text.jsonPoint]
  split_ifs with hquote hescape hline hreturn htab hfeed hback hcontrol
  · exact hletter (l := '"') hquote (by decide)
  · exact hletter (l := '\\') hescape (by decide)
  · exact hletter (l := 'n') hline (by decide)
  · exact hletter (l := 'r') hreturn (by decide)
  · exact hletter (l := 't') htab (by decide)
  · exact hletter (l := 'f') (c := '\x0c') hfeed (by decide)
  · exact hletter (l := 'b') (c := '\x08') hback (by decide)
  · obtain ⟨n, hn⟩ := p
    have hpoints : (Text.ofString ("\\u" ++ Text.hex 4 n)).points = .ofChar '\\' :: .ofChar 'u' ::
        ['0', '0', Nat.digitChar (n / 16), Nat.digitChar (n % 16)].map .ofChar := by
      rw [Text.ofString, String.toList_append, toList_hex hcontrol]
      rfl
    have hhex : hexPoint? (['0', '0', Nat.digitChar (n / 16), Nat.digitChar (n % 16)].map
        .ofChar) = some ⟨n, hn⟩ := by
      clear hpoints hpoint hletter hquote hescape hline hreturn htab hfeed hback
      interval_cases n <;> rfl
    rw [hpoints]
    simp only [List.map_cons, List.map_nil, List.cons_append, List.nil_append] at hhex ⊢
    rw [unescape.eq_def]
    dsimp only
    rw [if_pos rfl, show escaped? (.ofChar 'u') = none by decide]
    simp only [if_true, hhex]
  · rw [beq_iff_eq] at hquote hescape
    have hne {c : Char} (h : ¬ p.val = c.toNat) : p ≠ .ofChar c := by
      rintro rfl
      exact h rfl
    show unescape (p :: rest) = _
    rw [unescape.eq_def]
    dsimp only
    rw [if_neg (hne hescape), if_neg (not_or.2 ⟨hcontrol, hne hquote⟩)]

theorem unescape_jsonPoints (ps : List CodePoint) :
    unescape (ps.flatMap fun p => (Text.jsonPoint p).points) = some ps := by
  induction ps with
  | nil => rfl
  | cons p ps ih => rw [List.flatMap_cons, unescape_jsonPoint, ih, Option.map_some]

end DeclBridge.StringLiteral

namespace DeclBridge.Constant

open Numeral Number

/-- Literals are read back as what they were made of.  A truth value and a text have a literal in
any case.  So has an integer within the limit on its digits, which is read back exactly, and has an
`n` at its end where its magnitude exceeds `2 ^ 53 - 1`.  A double that is finite is read back as its
shortest decimal, and a fraction has the literal of the nearest double. -/
theorem literal_reads_back :
    (∀ b, (bool b).literal? = .ok (some (if b then "true" else "false"))) ∧
    (∀ t, ∃ body, (str t).literal? = .ok (some ("\"" ++ (⟨body⟩ : Text) ++ "\"")) ∧
      StringLiteral.unescape body = some t.points) ∧
    (∀ n, if digitLimit < (digits n.natAbs).length then
        (int n).literal? = .error .tooManyDigits
      else ∃ cs, (int n).literal? = .ok (some (String.ofList
        (if 2 ^ 53 - 1 < |n| then cs ++ ['n'] else cs))) ∧ Numeral.Number cs ∧ value cs = n) ∧
    (∀ x, match classify x with
      | .finite negative m e => ∃ cs, (float x).literal? = .ok (some (String.ofList cs)) ∧
        Numeral.Number cs ∧
        if m = 0 then cs = if negative then ['-', '0'] else ['0']
        else value cs = (if negative then -1 else 1) *
            ((shortest m e).significand * 10 ^ (shortest m e).exponent) ∧
          ('e' ∈ cs ↔ (digits (shortest m e).significand).length + (shortest m e).exponent - 1 < -4 ∨
            6 ≤ (digits (shortest m e).significand).length + (shortest m e).exponent - 1)
      | _ => (float x).literal? = .ok none) ∧
    (∀ q, (rat q).literal? = match nearest? q with
      | some x => (float x).literal?
      | none => .ok none) ∧
    ∀ z, (complex z).literal? = .ok none := by
  refine ⟨fun b => rfl, fun t => ⟨_, rfl, StringLiteral.unescape_jsonPoints _⟩, fun n => ?_,
    fun x => ?_, fun q => ?_, fun z => rfl⟩
  · split
    · rw [literal?, intLiteral, decimal, if_pos ‹_›]
      rfl
    · obtain ⟨hnumber, hvalue⟩ := value_plainDecimal n
      refine ⟨_, ?_, hnumber, hvalue⟩
      rw [literal?, intLiteral_of_short ‹_›]
      rfl
  · cases hx : classify x with
    | nan | infinite negative => simp [literal?, doubleLiteral?, isFinite, hx]
    | finite negative m e =>
      obtain ⟨cs, htext, hrest⟩ := value_text hx
      refine ⟨cs, ?_, hrest⟩
      rw [literal?, doubleLiteral?, isFinite, hx, if_pos rfl, htext]
  · rw [literal?]
    cases nearest? q <;> rfl

end DeclBridge.Constant
