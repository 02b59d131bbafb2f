import DeclBridge.Proofs.ExactArithmetic
import DeclBridge.Resolution.Store

/-!
# Exact meanings of constant expressions

A reference semantics for expressions of literals, truth values and operators.  It knows numbers as
rational numbers with a kind, texts as lists of code points, and truth values; it says nothing about
representations, types or the order of evaluation.  `Expr.Denotes e m` relates an expression to what
it means, and leaves some expressions without a meaning: those that divide by zero, mix numbers with
texts, or shift by a fraction.

`Meaning.operand` is the form in which the evaluator holds a meaning.
-/

namespace DeclBridge

open Number

/-! ## Meanings -/

inductive NumberKind where
  | int | rune | float
deriving DecidableEq, Repr

namespace NumberKind

/-- The place of a kind, from the smallest to the largest. -/
def rank : NumberKind → ℕ
  | int => 0
  | rune => 1
  | float => 2

theorem rank_injective : Function.Injective rank := by
  intro j k h
  cases j <;> cases k <;> first | rfl | cases h

instance : LinearOrder NumberKind := LinearOrder.lift' rank rank_injective

def untyped : NumberKind → Kind
  | int => .untypedInt
  | rune => .untypedRune
  | float => .untypedFloat

theorem untyped_injective : Function.Injective untyped := by
  intro j k h
  cases j <;> cases k <;> first | rfl | cases h

theorem untyped_ne (k : NumberKind) : k.untyped ≠ .untypedString ∧ k.untyped ≠ .untypedBool := by
  cases k <;> decide

end NumberKind

/-- An exact number with its kind. Only those of kind `float` may be fractions. -/
@[ext]
structure Quantity where
  kind : NumberKind
  value : ℚ
  whole : kind ≠ .float → ∃ n : ℤ, value = n

inductive Meaning where
  | number (x : Quantity)
  | text (points : List CodePoint)
  | truth (value : Bool)

/-- What an operator with one operand makes of a meaning. -/
inductive UnaryOperates : UnaryOp → Meaning → Meaning → Prop
  | plus {x : Quantity} : UnaryOperates .plus (.number x) (.number x)
  | minus {x y : Quantity} : y.kind = x.kind → y.value = -x.value →
    UnaryOperates .minus (.number x) (.number y)
  | complement {x y : Quantity} {n c : ℤ} : x.kind ≠ .float → x.value = n →
    (∀ i, c.testBit i = !n.testBit i) → y.kind = x.kind → y.value = c →
    UnaryOperates .complement (.number x) (.number y)
  | not {b : Bool} : UnaryOperates .not (.truth b) (.truth !b)

/-- What an operator with two operands makes of meanings. A number that is computed has the larger
kind of the two, except that a shift yields an integer. -/
inductive Operates (op : BinaryOp) : Meaning → Meaning → Meaning → Prop
  | integers {x y z : Quantity} {a b c : ℤ} : max x.kind y.kind ≠ .float → x.value = a →
    y.value = b → op.OnIntegers a b c → z.kind = max x.kind y.kind → z.value = c →
    Operates op (.number x) (.number y) (.number z)
  | fractions {x y z : Quantity} : max x.kind y.kind = .float →
    op.OnFractions x.value y.value z.value → z.kind = .float →
    Operates op (.number x) (.number y) (.number z)
  | shift {x y z : Quantity} {m c : ℤ} {n : ℕ} : x.value = m → y.value = n → n ≤ 65536 →
    op.Shifts m n c → z.kind = .int → z.value = c →
    Operates op (.number x) (.number y) (.number z)
  | numbers {x y : Quantity} {v : Bool} : op.family = .comparison →
    (v = true ↔ op.Compares x.value y.value) → Operates op (.number x) (.number y) (.truth v)
  | texts {s t : List CodePoint} {v : Bool} : op.family = .comparison →
    (v = true ↔ op.Compares s t) → Operates op (.text s) (.text t) (.truth v)
  | truths {a b v : Bool} : op = .eq ∨ op = .ne → (v = true ↔ op.Compares a b) →
    Operates op (.truth a) (.truth b) (.truth v)
  | concat {s t : List CodePoint} : op = .add → Operates op (.text s) (.text t) (.text (s ++ t))
  | and {a b : Bool} : op = .and → Operates op (.truth a) (.truth b) (.truth (a && b))
  | or {a b : Bool} : op = .or → Operates op (.truth a) (.truth b) (.truth (a || b))

inductive Literal.Denotes (l : Literal) (pos : Position) : Meaning → Prop
  | int {n : ℤ} {x : Quantity} : l.kind = .int → l.constant pos = .ok (.int n) → x.kind = .int →
    x.value = n → Denotes l pos (.number x)
  | rune {n : ℤ} {x : Quantity} : l.kind = .char → l.constant pos = .ok (.int n) → x.kind = .rune →
    x.value = n → Denotes l pos (.number x)
  | float {q : ℚ} {x : Quantity} : l.kind = .float → l.constant pos = .ok (.rat q) →
    x.kind = .float → x.value = q → Denotes l pos (.number x)
  | text {t : Text} : l.kind = .string ∨ l.kind = .rawString → l.constant pos = .ok (.str t) →
    Denotes l pos (.text t.points)

/-- What an expression of literals, truth values and operators means. -/
inductive Expr.Denotes : Expr → Meaning → Prop
  | lit {pos : Position} {l : Literal} {m : Meaning} : l.Denotes pos m → Denotes (.lit pos l) m
  | true {pos : Position} {name : String} : name = "true" → Denotes (.ident pos name) (.truth true)
  | false {pos : Position} {name : String} : name = "false" →
    Denotes (.ident pos name) (.truth false)
  | unary {pos : Position} {op : UnaryOp} {e : Expr} {m n : Meaning} : Denotes e m →
    UnaryOperates op m n → Denotes (.unary pos op e) n
  | binary {pos : Position} {op : BinaryOp} {e f : Expr} {m n k : Meaning} : Denotes e m →
    Denotes f n → Operates op m n k → Denotes (.binary pos op e f) k

/-- Expressions of literals with a value, none of them imaginary, truth values and operators. -/
def Expr.isPlain : Expr → Bool
  | .lit pos l => l.kind ≠ .imag && (l.constant pos).isOk
  | .ident _ name => name = "true" || name = "false"
  | .unary _ _ x => x.isPlain
  | .binary _ _ x y => x.isPlain && y.isPlain
  | .select .. | .call .. => Bool.false

/-! ## Meanings as operands -/

namespace Quantity

def integer (kind : NumberKind) (n : ℤ) : Quantity := ⟨kind, n, fun _ => ⟨n, rfl⟩⟩

def fraction (q : ℚ) : Quantity := ⟨.float, q, fun h => absurd rfl h⟩

def neg (x : Quantity) : Quantity where
  kind := x.kind
  value := -x.value
  whole h := by
    obtain ⟨n, hn⟩ := x.whole h
    exact ⟨-n, by rw [hn, Int.cast_neg]⟩

/-- The value that represents a number: a fraction for the kind `float`, and an integer
otherwise. -/
def constant (x : Quantity) : Constant :=
  if x.kind = .float then .rat x.value else .int x.value.num

theorem constant_of_float {x : Quantity} (h : x.kind = .float) : x.constant = .rat x.value :=
  if_pos h

theorem constant_of_whole {x : Quantity} {n : ℤ} (h : x.kind ≠ .float) (hn : x.value = n) :
    x.constant = .int n := by
  rw [constant, if_neg h, hn, Rat.num_intCast]

theorem constant_cases (x : Quantity) :
    (x.kind ≠ .float ∧ ∃ n : ℤ, x.value = n ∧ x.constant = .int n) ∨
      (x.kind = .float ∧ x.constant = .rat x.value) := by
  by_cases h : x.kind = .float
  · exact .inr ⟨h, constant_of_float h⟩
  · obtain ⟨n, hn⟩ := x.whole h
    exact .inl ⟨h, n, hn, constant_of_whole h hn⟩

variable (x y : Quantity)

theorem constant_neg : x.neg.constant = x.constant.negate := by
  rcases x.constant_cases with ⟨hkind, n, hn, h⟩ | ⟨hkind, h⟩
  · have hneg : x.neg.value = ((-n : ℤ) : ℚ) := by
      rw [Int.cast_neg, ← hn]
      rfl
    rw [h, constant_of_whole (x := x.neg) hkind hneg]
    rfl
  · rw [h, constant_of_float (x := x.neg) hkind]
    rfl

theorem toFraction_constant : x.constant.toFraction = .ok x.value := by
  rcases x.constant_cases with ⟨-, n, hn, h⟩ | ⟨-, h⟩
  · rw [h, hn]
    rfl
  · rw [h]
    rfl

theorem real?_constant : x.constant.real? = some x.value := by
  rcases x.constant_cases with ⟨-, n, hn, h⟩ | ⟨-, h⟩
  · rw [h, hn]
    rfl
  · rw [h]
    rfl

theorem same_constant : x.constant.same y.constant = decide (x.value = y.value) := by
  have hparts (z : Quantity) : z.constant.parts? = none := by
    rcases z.constant_cases with ⟨-, n, -, h⟩ | ⟨-, h⟩ <;> rw [h] <;> rfl
  have htext (z : Quantity) (t : Text) : z.constant ≠ .str t := by
    intro hz
    rcases z.constant_cases with ⟨-, n, -, h⟩ | ⟨-, h⟩ <;> rw [h] at hz <;> cases hz
  unfold Constant.same
  split
  · exact absurd ‹_› (htext x _)
  · simp only [hparts, real?_constant]
    exact beq_eq_decide _ _

theorem wholeNumber_cases (pos : Position) :
    (∃ n : ℤ, x.value = n ∧ x.constant.wholeNumber pos = .ok n) ∨ ((∀ n : ℤ, x.value ≠ n) ∧
        x.constant.wholeNumber pos = Constant.problem (.truncatedToInteger (.rat x.value)) pos) := by
  rcases x.constant_cases with ⟨-, n, hn, h⟩ | ⟨-, h⟩
  · exact .inl ⟨n, hn, by rw [h]; rfl⟩
  · by_cases hden : x.value.den = 1
    · refine .inl ⟨x.value.num, ((Rat.den_eq_one_iff _).1 hden).symm, ?_⟩
      rw [h]
      exact if_pos hden
    · refine .inr ⟨fun n hn => hden (by rw [hn, Rat.den_intCast]), ?_⟩
      rw [h]
      exact if_neg hden

end Quantity

namespace Meaning

def constant : Meaning → Constant
  | number x => x.constant
  | text points => .str ⟨points⟩
  | truth v => .bool v

def kind : Meaning → Kind
  | number x => x.kind.untyped
  | text _ => .untypedString
  | truth _ => .untypedBool

/-- A meaning as the evaluator holds it. -/
def operand (m : Meaning) : Operand := ⟨some m.constant, .basic m.kind⟩

theorem operand_injective {m n : Meaning} (h : m.operand = n.operand) : m = n := by
  obtain ⟨hvalue, htype⟩ := Operand.mk.inj h
  have hconstant := Option.some.inj hvalue
  have hkind := Ty.basic.inj htype
  cases m with
  | number x =>
    cases n with
    | number y =>
      have hkinds : x.kind = y.kind := NumberKind.untyped_injective hkind
      refine congrArg number (Quantity.ext hkinds ?_)
      have hconstants : x.constant = y.constant := hconstant
      rw [← Option.some.injEq, ← x.real?_constant, ← y.real?_constant, hconstants]
    | text => exact absurd hkind x.kind.untyped_ne.1
    | truth => exact absurd hkind x.kind.untyped_ne.2
  | text s =>
    cases n with
    | number y => exact absurd hkind.symm y.kind.untyped_ne.1
    | text t => exact congrArg text (Text.mk.inj (Constant.str.inj hconstant))
    | truth => cases hkind
  | truth v =>
    cases n with
    | number y => exact absurd hkind.symm y.kind.untyped_ne.2
    | text => cases hkind
    | truth w => exact congrArg truth (Constant.bool.inj hconstant)

end Meaning

/-! ## Problems and their texts -/

/-- An integer is written unless it reaches the power of ten with as many zeros as there may be
digits. -/
theorem Number.decimal_eq (n : ℤ) : decimal n =
    if 10 ^ digitLimit ≤ n.natAbs then .error .tooManyDigits else .ok (plainDecimal n) := by
  have hlength : digitLimit < (digits n.natAbs).length ↔ 10 ^ digitLimit ≤ n.natAbs := by
    have htext : (digits n.natAbs).length = (Nat.toDigits 10 n.natAbs).length := by
      rw [digits, Nat.toString_eq_ofList_toDigits, String.length_ofList]
    rw [htext, ← not_lt, ← not_le]
    exact not_congr (Nat.length_toDigits_le_iff (by norm_num) (by decide))
  unfold decimal
  simp only [hlength]

namespace Problem

/-- A fraction stands where an integer should, and one of its parts has more digits than are ever
written. -/
def TooLong (why : Problem) : Prop :=
  ∃ q : ℚ, why = .truncatedToInteger (.rat q) ∧
    (10 ^ digitLimit ≤ q.num.natAbs ∨ 10 ^ digitLimit ≤ q.den)

/-- Whether there is a text for a problem depends on the length of a fraction alone. -/
def Reported (why : Problem) : Prop := (∃ fault, why.message = .error fault) ↔ why.TooLong

/-- Whether a problem is a fraction that stands where an integer should. -/
def isTruncated : Problem → Bool
  | truncatedToInteger (.rat _) => true
  | _ => false

theorem reported_of_text {why : Problem} {text : String} (h : why.message = .ok text)
    (hwhy : why.isTruncated = false) : why.Reported := by
  constructor
  · rintro ⟨fault, hfault⟩
    cases h.symm.trans hfault
  · rintro ⟨q, rfl, -⟩
    cases hwhy

theorem reported_truncated {q : ℚ} (h : ∀ n : ℤ, q ≠ n) :
    (truncatedToInteger (.rat q)).Reported := by
  have hden : (q.den == 1) = false :=
    beq_false_of_ne fun hden => h q.num (Rat.den_eq_one_iff q |>.1 hden).symm
  have hlong : (truncatedToInteger (.rat q)).TooLong ↔
      10 ^ digitLimit ≤ q.num.natAbs ∨ 10 ^ digitLimit ≤ q.den := by
    constructor
    · rintro ⟨q', hq', h'⟩
      cases hq'
      exact h'
    · exact fun h' => ⟨q, rfl, h'⟩
  unfold Reported
  rw [hlong]
  simp only [message, Constant.plain, hden, decimal_eq, Int.natAbs_natCast]
  by_cases hnum : 10 ^ digitLimit ≤ q.num.natAbs
  · rw [if_pos hnum]
    exact ⟨fun _ => .inl hnum, fun _ => ⟨_, rfl⟩⟩
  · rw [if_neg hnum]
    by_cases hq : 10 ^ digitLimit ≤ q.den
    · rw [if_pos hq]
      exact ⟨fun _ => .inr hq, fun _ => ⟨_, rfl⟩⟩
    · rw [if_neg hq]
      refine ⟨?_, fun h' => (h'.elim hnum hq).elim⟩
      rintro ⟨fault, hfault⟩
      cases hfault

end Problem

end DeclBridge
