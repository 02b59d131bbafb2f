import DeclBridge.Proofs.QuotedStrings
import DeclBridge.Proofs.TokenPlaces
import Mathlib.Data.Nat.Digits.Defs

/-!
# Integer literals

`IntSpelling cs n` says that `cs` is a way to write the number `n`: decimal, octal after a zero, or
in a base named by a letter, with underscores between digits and after the letter.  Every spelling
is read as one token, and as the number that it spells.
-/

namespace DeclBridge

open List Lexeme Literal Number

variable {base n d : Nat} {c letter : Char} {gap cs es : List Char} {ds : List Nat}
  {dialect : Dialect} {P : Char → Prop}

/-- What may stand before a digit that is not the first. -/
def gaps : List (List Char) := [[], ['_']]

/-- Digits of a base, with at most one underscore between two of them. -/
inductive Digits (base : Nat) : List Char → List Nat → Prop
  | last {c : Char} {d : Nat} (h : IsDigit base c d) : Digits base [c] [d]
  | next {c : Char} {d : Nat} {gap cs : List Char} {ds : List Nat} (h : IsDigit base c d)
    (hgap : gap ∈ gaps) (hrest : Digits base cs ds) : Digits base (c :: (gap ++ cs)) (d :: ds)

/-- The letters that name a base after a zero. -/
def baseLetters : List (Char × Nat) :=
  [('x', 16), ('X', 16), ('o', 8), ('O', 8), ('b', 2), ('B', 2)]

/-- The spellings of a number.  Zero on its own is taken for octal. -/
inductive IntSpelling : List Char → Nat → Prop
  | decimal {cs : List Char} {d : Nat} {ds : List Nat} (h : Digits 10 cs (d :: ds)) (hd : d ≠ 0)
    (hlimit : (d :: ds).length ≤ digitLimit) : IntSpelling cs (Nat.ofDigits 10 (d :: ds).reverse)
  | octal {cs : List Char} {ds : List Nat} (h : Digits 8 ('0' :: cs) ds) :
    IntSpelling ('0' :: cs) (Nat.ofDigits 8 ds.reverse)
  | based {letter : Char} {base : Nat} {gap cs : List Char} {ds : List Nat}
    (hletter : (letter, base) ∈ baseLetters) (hgap : gap ∈ gaps) (h : Digits base cs ds) :
    IntSpelling ('0' :: letter :: (gap ++ cs)) (Nat.ofDigits base ds.reverse)

/-! ## Digits -/

theorem IsDigit.ne_underscore (hbase : base ≤ 16) (h : IsDigit base c d) : c ≠ '_' := by
  rintro rfl
  exact absurd ((Escape.digitValue_eq_some_iff hbase).2 h) (by simp [Escape.digitValue?])

theorem IsDigit.decimalValue (hbase : base ≤ 10) (h : IsDigit base c d) :
    Text.decimalValue? c = some d := by
  obtain ⟨hd, hc⟩ := h
  have hlt : d < 10 := by omega
  interval_cases d <;> rcases hc with rfl | rfl <;> decide

theorem forall_mem_gap (h : gap ∈ gaps) (hunderscore : P '_') : ∀ c ∈ gap, P c := by
  obtain rfl | rfl : gap = [] ∨ gap = ['_'] := by simpa [gaps] using h
  · exact forall_mem_nil _
  · simpa using hunderscore

theorem filter_gap (h : gap ∈ gaps) : gap.filter (· ≠ '_') = [] :=
  filter_eq_nil_iff.2 (forall_mem_gap h (by decide))

namespace Digits

theorem ne_nil (h : Digits base cs ds) : cs ≠ [] ∧ ds ≠ [] := by cases h <;> simp

theorem forall_mem (h : Digits base cs ds)
    (hdigit : ∀ c d, IsDigit base c d → P c) (hunderscore : P '_') : ∀ c ∈ cs, P c := by
  induction h with
  | last h => simpa using hdigit _ _ h
  | next h hgap _ ih =>
    exact forall_mem_cons.2 ⟨hdigit _ _ h, forall_mem_append.2 ⟨forall_mem_gap hgap hunderscore, ih⟩⟩

theorem filter (hbase : base ≤ 16) (h : Digits base cs ds) :
    Forall₂ (IsDigit base) (cs.filter (· ≠ '_')) ds := by
  induction h with
  | last h => simpa [h.ne_underscore hbase] using h
  | next h hgap _ ih =>
    rw [filter_cons_of_pos (by simpa using h.ne_underscore hbase), filter_append, filter_gap hgap]
    exact .cons h ih

end Digits

theorem ofDigits_reverse (base : Nat) (ds : List Nat) :
    Nat.ofDigits base ds.reverse = ds.foldl (fun n d => n * base + d) 0 := by
  rw [Nat.ofDigits_eq_foldr, foldr_reverse]
  congr
  funext n d
  rw [Nat.cast_id, Nat.add_comm, Nat.mul_comm]

/-- The value of a numeral is that of its digits in the base. -/
theorem readDigits_eq {digit? : Char → Option Nat}
    (hdigit : ∀ c d, IsDigit base c d → digit? c = some d) (h : Forall₂ (IsDigit base) es ds)
    (hds : ds ≠ []) : readDigits digit? base es = .ok (Nat.ofDigits base ds.reverse) := by
  have hvalues : es.mapM digit? = some ds := by
    clear hds
    induction h with
    | nil => rfl
    | cons hd _ ih => simp [hdigit _ _ hd, ih]
  rw [readDigits, hvalues, ofDigits_reverse]
  cases ds with
  | nil => exact absurd rfl hds
  | cons => rfl

theorem readDigits_decimal (hbase : base ≤ 10) (h : Forall₂ (IsDigit base) es ds)
    (hds : ds ≠ []) : readDigits (decimalDigit? base) base es = .ok (Nat.ofDigits base ds.reverse) :=
  readDigits_eq (fun _ _ hd => by simp [decimalDigit?, hd.decimalValue hbase, hd.1]) h hds

/-! ## Tokens -/

theorem isRunChar_of_isDigit (hbase : base ≤ 10) (h : IsDigit base c d) : isRunChar c = true := by
  simp [isRunChar, Text.isDecimal, h.decimalValue hbase]

/-- A run of digits and underscores is one token. -/
theorem lexeme_run (hc : Text.isDecimal c = true) (h : ∀ c' ∈ c :: cs, isRunChar c' = true) :
    lexeme? dialect (c :: cs) = some ⟨some .int, (c :: cs).length⟩ := by
  have hrun : runLength (c :: cs) = (c :: cs).length := by
    rw [runLength, takeWhile_eq_self_iff.2 h]
  have hbased : basedLength? (c :: cs) = none := by
    unfold basedLength?
    split
    next letter rest heq =>
      have hletter := h letter (by simp [heq])
      refine if_neg fun hl => ?_
      simp only [Bool.and_eq_true, Bool.or_eq_true, beq_iff_eq] at hl
      obtain ⟨((((rfl | rfl) | rfl) | rfl) | rfl) | rfl, -⟩ := hl <;> exact absurd hletter (by decide)
    next => rfl
  simp only [lexeme?, hc, if_true, wholeNumber, hrun, Nat.add_zero, drop_length, fractionLength,
    exponentLength, hbased, Option.getD_none, and_self]

/-- So is one after `0` and the letter of a base. -/
theorem lexeme_based (hletter : (letter, base) ∈ baseLetters) (hcs : cs ≠ [])
    (h : ∀ c ∈ cs, isBaseDigit letter c = true) :
    lexeme? dialect ('0' :: letter :: cs) = some ⟨some .int, ('0' :: letter :: cs).length⟩ := by
  have hcount : (cs.takeWhile (isBaseDigit letter)).length = cs.length := by
    rw [takeWhile_eq_self_iff.2 h]
  have hrun {rest : List Char} (h : isRunChar letter = false) :
      runLength ('0' :: letter :: rest) = 1 := by
    simp [runLength, h, show isRunChar '0' = true by decide]
  have hlength : cs.length ≠ 0 := by simpa using hcs
  simp only [baseLetters, mem_cons, Prod.mk.injEq, not_mem_nil, or_false] at hletter
  obtain ⟨rfl, rfl⟩ | ⟨rfl, rfl⟩ | ⟨rfl, rfl⟩ | ⟨rfl, rfl⟩ | ⟨rfl, rfl⟩ | ⟨rfl, rfl⟩ := hletter
  all_goals
    simp [lexeme?, wholeNumber, hrun (by decide), show Text.isDecimal '0' = true by decide,
      fractionLength, exponentLength, basedLength?, hcount, hlength]
    omega

theorem isBaseDigit_of_isDigit (hletter : (letter, base) ∈ baseLetters) (h : IsDigit base c d) :
    isBaseDigit letter c = true := by
  simp only [baseLetters, mem_cons, Prod.mk.injEq, not_mem_nil, or_false] at hletter
  obtain ⟨hd, hc⟩ := h
  obtain ⟨rfl, rfl⟩ | ⟨rfl, rfl⟩ | ⟨rfl, rfl⟩ | ⟨rfl, rfl⟩ | ⟨rfl, rfl⟩ | ⟨rfl, rfl⟩ := hletter
  all_goals interval_cases d <;> rcases hc with rfl | rfl <;> decide

theorem Digits.lexeme (hbase : base ≤ 10) (h : Digits base cs ds) :
    lexeme? dialect cs = some ⟨some .int, cs.length⟩ := by
  have hrun := h.forall_mem (fun _ _ => isRunChar_of_isDigit hbase) rfl
  cases h with
  | last h | next h =>
    exact lexeme_run (by simp [Text.isDecimal, h.decimalValue hbase]) hrun

/-! ## Spellings -/

namespace Literal

variable {text : String}

theorem withoutUnderscores_ofList (cs : List Char) :
    withoutUnderscores (.ofList cs) = cs.filter (· ≠ '_') := by
  rw [withoutUnderscores, String.toList_ofList]

/-- A number is decimal if it starts with another digit than `0`. -/
theorem intValue_decimal (h : Forall₂ (IsDigit 10) (withoutUnderscores text) (d :: ds))
    (hd : d ≠ 0) (hlimit : (d :: ds).length ≤ digitLimit) :
    intValue text = .ok (Nat.ofDigits 10 (d :: ds).reverse) := by
  have hread := readDigits_decimal (by decide) h (cons_ne_nil _ _)
  have hvalue : (withoutUnderscores text).head?.bind Text.decimalValue? = some d := by
    obtain ⟨c, es, hc, -, hes⟩ := forall₂_cons_right_iff.1 h
    rw [hes]
    exact hc.decimalValue (by decide)
  have hfits : ¬ digitLimit < (withoutUnderscores text).length := by
    rw [h.length_eq]
    omega
  unfold intValue
  split
  next c rest heq =>
    rw [heq] at hvalue
    exact absurd (Option.some.inj hvalue).symm hd
  next => simp [readDecimal, hfits, hread, hvalue, hd]

/-- A number that starts with `0` and goes on with a digit is octal. -/
theorem intValue_octal (hzero : (withoutUnderscores text).head? = some '0')
    (h : Forall₂ (IsDigit 8) (withoutUnderscores text) ds) :
    intValue text = .ok (Nat.ofDigits 8 ds.reverse) := by
  obtain ⟨es, hes⟩ := head?_eq_some_iff.1 hzero
  rw [hes] at h
  obtain _ | @⟨_, d, _, ds, hd, h⟩ := h
  obtain rfl : 0 = d := Option.some.inj (hd.decimalValue (by decide))
  rw [intValue, hes]
  cases h with
  | nil => decide
  | @cons c e es ds hc h =>
    have hdigit : Text.isDigit c = true := by
      simp [Text.isDigit, Text.isDecimal, hc.decimalValue (by decide)]
    have hread := readDigits_decimal (by decide) (h.cons hc) (cons_ne_nil _ _)
    simp only [hdigit, if_true, hread, ofDigits_reverse, foldl_cons, Nat.zero_mul, Nat.add_zero]

theorem intValue_based (hletter : (letter, base) ∈ baseLetters) (hgap : gap ∈ gaps)
    (h : Digits base cs ds) :
    intValue (.ofList ('0' :: letter :: (gap ++ cs))) = .ok (Nat.ofDigits base ds.reverse) := by
  have hbase : base ≤ 16 := by
    simp [baseLetters] at hletter
    omega
  have hread := readDigits_eq (fun _ _ => (Escape.digitValue_eq_some_iff hbase).2) (h.filter hbase)
    h.ne_nil.2
  simp only [baseLetters, mem_cons, Prod.mk.injEq, not_mem_nil, or_false] at hletter
  obtain ⟨rfl, rfl⟩ | ⟨rfl, rfl⟩ | ⟨rfl, rfl⟩ | ⟨rfl, rfl⟩ | ⟨rfl, rfl⟩ | ⟨rfl, rfl⟩ := hletter
  all_goals
    rw [intValue, withoutUnderscores_ofList, filter_cons_of_pos (by decide),
      filter_cons_of_pos (by decide), filter_append, filter_gap hgap]
    exact hread

end Literal

/-- Every spelling of an integer is one token, and stands for the number that it spells. -/
theorem IntSpelling.decodes (h : IntSpelling cs n) (dialect : Dialect) :
    TokenStream.scan dialect (.ofList cs) = ⟨[⟨.int, .ofList cs, .start⟩], none⟩ ∧
      intValue (.ofList cs) = .ok n := by
  have hscan (hlexeme : lexeme? dialect cs = some ⟨some .int, cs.length⟩) :
      TokenStream.scan dialect (.ofList cs) = ⟨[⟨.int, .ofList cs, .start⟩], none⟩ := by
    have hwhole : TokenStream.scanFrom dialect 0 (.after []) cs = _ :=
      TokenStream.scanFrom_eq hlexeme
    simp only [take_length, drop_length, TokenStream.scanFrom, TokenStream.cons] at hwhole
    rw [TokenStream.scan, String.toList_ofList]
    exact hwhole
  cases h with
  | decimal h hd hlimit =>
    refine ⟨hscan (h.lexeme (by decide)), ?_⟩
    have hdigits := h.filter (by decide)
    rw [← withoutUnderscores_ofList] at hdigits
    exact intValue_decimal hdigits hd hlimit
  | octal h =>
    refine ⟨hscan (h.lexeme (by decide)), ?_⟩
    have hdigits := h.filter (by decide)
    rw [← withoutUnderscores_ofList] at hdigits
    exact intValue_octal (by simp [withoutUnderscores]) hdigits
  | based hletter hgap h =>
    have hdigits := h.forall_mem (fun _ _ => isBaseDigit_of_isDigit hletter) rfl
    refine ⟨hscan (lexeme_based hletter (append_ne_nil_of_right_ne_nil _ h.ne_nil.1) ?_),
      intValue_based hletter hgap h⟩
    exact forall_mem_append.2 ⟨forall_mem_gap hgap rfl, hdigits⟩

theorem IntSpelling.decodes_hex : IntSpelling ['0', 'x', '_', '1', 'F'] 31 ∧
    TokenStream.scan .file "0x_1F" = ⟨[⟨.int, "0x_1F", .start⟩], none⟩ ∧
      intValue "0x_1F" = .ok 31 := by
  have hdigits : Digits 16 ('1' :: ([] ++ ['F'])) [1, 15] :=
    .next (by decide) (by decide) (.last (by decide))
  have h : IntSpelling ('0' :: 'x' :: (['_'] ++ ['1', 'F'])) 31 :=
    .based (by decide) (by decide) hdigits
  exact ⟨h, h.decodes .file⟩

end DeclBridge
