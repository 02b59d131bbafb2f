import Mathlib.Data.Int.Bitwise
import Mathlib.Data.List.Lex
import Mathlib.Data.Rat.Floor
import Mathlib.Order.Fin.Basic
import Mathlib.Tactic.LinearCombination
import DeclBridge.Resolution.Arithmetic

/-!
# What the operators compute

The meaning of each operator on integers, on fractions and on texts, stated by the law that
determines the result: a quotient and a remainder by the division equation and the sign of the
remainder, a bitwise operator by what it does to every bit, a shift by a power of two.  Each law has
exactly one solution, and it is the number that the model computes.
-/

namespace DeclBridge

open Number

variable {op : BinaryOp} {a b c m : ℤ} {p q r : ℚ} {s t : List CodePoint} {n : ℕ}

namespace BinaryOp

/-- `c` is what the operator makes of the integers `a` and `b`. -/
def OnIntegers (op : BinaryOp) (a b c : ℤ) : Prop :=
  match op with
  | add => c = a + b
  | sub => c = a - b
  | mul => c = a * b
  -- the remainder is smaller than the divisor and has the sign of the dividend
  | div => ∃ r, a = c * b + r ∧ |r| < |b| ∧ 0 ≤ r * a
  | rem => ∃ q, a = q * b + c ∧ |c| < |b| ∧ 0 ≤ c * a
  | bitAnd => ∀ i, c.testBit i = (a.testBit i && b.testBit i)
  | bitOr => ∀ i, c.testBit i = (a.testBit i || b.testBit i)
  | bitXor => ∀ i, c.testBit i = (a.testBit i ^^ b.testBit i)
  | bitClear => ∀ i, c.testBit i = (a.testBit i && !b.testBit i)
  | _ => False

/-- `r` is what the operator makes of the fractions `p` and `q`. -/
def OnFractions (op : BinaryOp) (p q r : ℚ) : Prop :=
  match op with
  | add => r = p + q
  | sub => r = p - q
  | mul => r = p * q
  | div => q ≠ 0 ∧ r = p / q
  | _ => False

/-- `c` is `m` shifted by `n` places. -/
def Shifts (op : BinaryOp) (m : ℤ) (n : ℕ) (c : ℤ) : Prop :=
  match op with
  | shiftLeft => c = m * 2 ^ n
  | shiftRight => c = ⌊(m : ℚ) / 2 ^ n⌋
  | _ => False

/-- The comparison holds between two members of an order. -/
def Compares {α : Type} [LinearOrder α] (op : BinaryOp) (a b : α) : Prop :=
  match op with
  | eq => a = b
  | ne => a ≠ b
  | lt => a < b
  | le => a ≤ b
  | gt => b < a
  | ge => b ≤ a
  | _ => False

inductive Family where
  | arithmetic | shift | comparison | logical
deriving DecidableEq, Repr

def family : BinaryOp → Family
  | add | sub | mul | div | rem | bitAnd | bitOr | bitXor | bitClear => .arithmetic
  | shiftLeft | shiftRight => .shift
  | eq | ne | lt | le | gt | ge => .comparison
  | and | or => .logical

theorem family_of_onIntegers (h : op.OnIntegers a b c) : op.family = .arithmetic := by
  cases op <;> first | rfl | exact h.elim

theorem family_of_onFractions (h : op.OnFractions p q r) : op.family = .arithmetic := by
  cases op <;> first | rfl | exact h.elim

theorem family_of_shifts (h : op.Shifts m n c) : op.family = .shift := by
  cases op <;> first | rfl | exact h.elim

theorem family_eq_shift : op.family = .shift ↔ op = .shiftLeft ∨ op = .shiftRight := by
  cases op <;> decide

theorem family_eq_logical : op.family = .logical ↔ op = .and ∨ op = .or := by
  cases op <;> decide

end BinaryOp

/-! ## Bits -/

namespace Number

theorem testBit_bitNot (a : ℤ) (i : ℕ) : (bitNot a).testBit i = !a.testBit i := by
  have h : bitNot a = a.lnot := by
    cases a with
    | ofNat m =>
      rw [bitNot, Int.lnot]
      simp only [Int.ofNat_eq_natCast, Int.negSucc_eq]
      omega
    | negSucc m =>
      rw [bitNot, Int.lnot]
      simp only [Int.negSucc_eq]
      omega
  rw [h, Int.testBit_lnot]

/-- The bits that two numbers share and the bits that only the first has make up the first. -/
theorem and_add_ldiff (m n : ℕ) : (m &&& n) + Nat.ldiff m n = m := by
  induction m using Nat.binaryRec generalizing n with
  | zero => simp [Nat.ldiff]
  | bit b m ih =>
    cases n using Nat.bitCasesOn with
    | bit c n =>
      rw [Nat.land_bit, Nat.ldiff_bit, Nat.bit_val, Nat.bit_val, Nat.bit_val]
      have := ih n
      cases b <;> cases c <;> simp <;> omega

/-- Taking away the common bits leaves the bits that the other number does not have. -/
theorem testBit_sub_and (m n i : ℕ) :
    (m - (m &&& n)).testBit i = (m.testBit i && !n.testBit i) := by
  have hsub : m - (m &&& n) = Nat.ldiff m n := by
    have := and_add_ldiff m n
    omega
  rw [hsub, Nat.testBit_ldiff]

theorem testBit_bitAnd (a b : ℤ) (i : ℕ) :
    (bitAnd a b).testBit i = (a.testBit i && b.testBit i) := by
  cases a with
  | ofNat m =>
    cases b with
    | ofNat n => exact Nat.testBit_and m n i
    | negSucc n => exact testBit_sub_and m n i
  | negSucc m =>
    cases b with
    | ofNat n =>
      show (n - (n &&& m)).testBit i = (!m.testBit i && n.testBit i)
      rw [testBit_sub_and, Bool.and_comm]
    | negSucc n =>
      show (!(m ||| n).testBit i) = (!m.testBit i && !n.testBit i)
      rw [Nat.testBit_or, Bool.not_or]

theorem testBit_bitOr (a b : ℤ) (i : ℕ) : (bitOr a b).testBit i = (a.testBit i || b.testBit i) := by
  rw [bitOr, testBit_bitNot, testBit_bitAnd, testBit_bitNot, testBit_bitNot, Bool.not_and,
    Bool.not_not, Bool.not_not]

theorem testBit_bitClear (a b : ℤ) (i : ℕ) :
    (bitClear a b).testBit i = (a.testBit i && !b.testBit i) := by
  rw [bitClear, testBit_bitAnd, testBit_bitNot]

theorem testBit_bitXor (a b : ℤ) (i : ℕ) :
    (bitXor a b).testBit i = (a.testBit i ^^ b.testBit i) := by
  rw [bitXor, testBit_bitOr, testBit_bitClear, testBit_bitClear]
  cases a.testBit i <;> cases b.testBit i <;> rfl

/-- A number that is not negative and one that is differ in every bit above both. -/
theorem exists_testBit_ne (m n : ℕ) : ∃ i, (Int.ofNat m).testBit i ≠ (Int.negSucc n).testBit i := by
  have hbelow {k : ℕ} (hk : k ≤ max m n) : k.testBit (max m n) = false :=
    Nat.testBit_eq_false_of_lt (hk.trans_lt Nat.lt_two_pow_self)
  refine ⟨max m n, ?_⟩
  show m.testBit (max m n) ≠ !n.testBit (max m n)
  rw [hbelow (le_max_left m n), hbelow (le_max_right m n)]
  decide

theorem eq_of_testBit (h : ∀ i, a.testBit i = b.testBit i) : a = b := by
  cases a with
  | ofNat m =>
    cases b with
    | ofNat n => exact congrArg Int.ofNat (Nat.eq_of_testBit_eq h)
    | negSucc n =>
      obtain ⟨i, hi⟩ := exists_testBit_ne m n
      exact absurd (h i) hi
  | negSucc m =>
    cases b with
    | ofNat n =>
      obtain ⟨i, hi⟩ := exists_testBit_ne n m
      exact absurd (h i).symm hi
    | negSucc n =>
      exact congrArg Int.negSucc (Nat.eq_of_testBit_eq fun i => Bool.not_inj (h i))

/-- A law about every bit has the number as its only solution whose bits follow it. -/
theorem forall_testBit_iff {f : ℕ → Bool} {d : ℤ} (hd : ∀ i, d.testBit i = f i) :
    (∀ i, c.testBit i = f i) ↔ c = d := by
  constructor
  · exact fun hc => eq_of_testBit fun i => (hc i).trans (hd i).symm
  · rintro rfl
    exact hd

end Number

/-! ## Division -/

theorem divides_iff {q r : ℤ} (hb : b ≠ 0) :
    (a = q * b + r ∧ |r| < |b| ∧ 0 ≤ r * a) ↔ q = a.tdiv b ∧ r = a.tmod b := by
  have habs : |a.tmod b| < |b| := by
    rw [Int.abs_eq_natAbs, Int.abs_eq_natAbs, Int.natAbs_tmod]
    exact_mod_cast Nat.mod_lt _ (Int.natAbs_pos.2 hb)
  have hsign : 0 ≤ a.tmod b * a := by
    rcases le_total 0 a with ha | ha
    · exact mul_nonneg (Int.tmod_nonneg b ha) ha
    · have hneg := Int.tmod_nonneg b (neg_nonneg.2 ha)
      rw [Int.neg_tmod] at hneg
      exact mul_nonneg_of_nonpos_of_nonpos (neg_nonneg.1 hneg) ha
  have heq := Int.mul_tdiv_add_tmod a b
  constructor
  · rintro ⟨h, hr, hra⟩
    -- remainders of one sign differ by less than the divisor, and by a multiple of it
    have hdiff : r - a.tmod b = (a.tdiv b - q) * b := by linear_combination -heq - h
    have hsmall : |r - a.tmod b| < |b| := by
      rcases lt_trichotomy a 0 with ha | ha | ha
      · have h₁ : r ≤ 0 := by nlinarith
        have h₂ : a.tmod b ≤ 0 := by nlinarith
        rw [abs_of_nonpos h₁] at hr
        rw [abs_of_nonpos h₂] at habs
        exact abs_lt.2 ⟨by linarith, by linarith⟩
      · have h₂ : a.tmod b = 0 := by rw [ha, Int.zero_tmod]
        rwa [h₂, sub_zero]
      · have h₁ : 0 ≤ r := by nlinarith
        have h₂ : 0 ≤ a.tmod b := by nlinarith
        rw [abs_of_nonneg h₁] at hr
        rw [abs_of_nonneg h₂] at habs
        exact abs_lt.2 ⟨by linarith, by linarith⟩
    have hzero : a.tdiv b - q = 0 := by
      rw [hdiff, abs_mul] at hsmall
      have hone : |a.tdiv b - q| < 1 := by
        by_contra hle
        exact absurd hsmall (not_lt.2 (le_mul_of_one_le_left (abs_nonneg b) (not_lt.1 hle)))
      exact Int.abs_lt_one_iff.1 hone
    rw [hzero, zero_mul] at hdiff
    exact ⟨by linarith, by linarith⟩
  · rintro ⟨rfl, rfl⟩
    exact ⟨by linarith [mul_comm b (a.tdiv b)], habs, hsign⟩

/-! ## Operators -/

namespace Constant

theorem onIntegers_iff (hop : op.family = .arithmetic)
    (hb : op = .div ∨ op = .rem → b ≠ 0) : op.OnIntegers a b c ↔ c = intArith op a b := by
  cases op with
  | add | sub | mul => exact Iff.rfl
  | div =>
    show (∃ r, _) ↔ c = a.tdiv b
    constructor
    · rintro ⟨r, h⟩
      exact ((divides_iff (hb (.inl rfl))).1 h).1
    · exact fun hc => ⟨a.tmod b, (divides_iff (hb (.inl rfl))).2 ⟨hc, rfl⟩⟩
  | rem =>
    show (∃ q, _) ↔ c = a.tmod b
    constructor
    · rintro ⟨q, h⟩
      exact ((divides_iff (hb (.inr rfl))).1 h).2
    · exact fun hc => ⟨a.tdiv b, (divides_iff (hb (.inr rfl))).2 ⟨rfl, hc⟩⟩
  | bitAnd => exact forall_testBit_iff (testBit_bitAnd a b)
  | bitOr => exact forall_testBit_iff (testBit_bitOr a b)
  | bitXor => exact forall_testBit_iff (testBit_bitXor a b)
  | bitClear => exact forall_testBit_iff (testBit_bitClear a b)
  | _ => cases hop

theorem not_onIntegers_zero (hop : op = .div ∨ op = .rem) : ¬ op.OnIntegers a 0 c := by
  rcases hop with rfl | rfl
  · rintro ⟨r, -, hr, -⟩
    rw [abs_zero] at hr
    exact absurd hr (not_lt.2 (abs_nonneg r))
  · rintro ⟨q, -, hc, -⟩
    rw [abs_zero] at hc
    exact absurd hc (not_lt.2 (abs_nonneg c))

theorem onFractions_iff (hop : op.family = .arithmetic)
    (hneeds : needsIntegers op = false) (hq : op = .div → q ≠ 0) :
    op.OnFractions p q r ↔ r = ratArith op p q := by
  cases op with
  | add | sub | mul => exact Iff.rfl
  | div =>
    show q ≠ 0 ∧ r = p / q ↔ r = p / q
    exact and_iff_right (hq rfl)
  | rem | bitAnd | bitOr | bitXor | bitClear => cases hneeds
  | _ => cases hop

theorem shifts_iff (hop : op.family = .shift) : op.Shifts m n c ↔
      c = if op = .shiftLeft then shiftLeft m n else shiftRight m n := by
  have hpow : Int.ofNat (powTwo n) = 2 ^ n := by
    rw [powTwo, Nat.pow_eq, Int.ofNat_eq_natCast, Nat.cast_pow, Nat.cast_ofNat]
  cases op with
  | shiftLeft =>
    rw [if_pos rfl, shiftLeft, hpow]
    exact Iff.rfl
  | shiftRight =>
    rw [if_neg (by decide), shiftRight, hpow]
    have hfloor : ⌊(m : ℚ) / 2 ^ n⌋ = m / 2 ^ n := by
      have := Rat.floor_intCast_div_natCast m (2 ^ n)
      push_cast at this
      exact this
    show c = ⌊(m : ℚ) / 2 ^ n⌋ ↔ _
    rw [hfloor]
  | _ => cases hop

/-! ## Comparisons -/

theorem orderHolds_iff {α : Type} [LinearOrder α] {a b : α} {order : Ordering}
    (hop : op = .lt ∨ op = .le ∨ op = .gt ∨ op = .ge) (hlt : order = .lt ↔ a < b)
    (hgt : order = .gt ↔ b < a) : orderHolds op order = true ↔ op.Compares a b := by
  rcases hop with rfl | rfl | rfl | rfl
  · exact Ordering.isLT_iff_eq_lt.trans hlt
  · exact (Ordering.isLE_iff_ne_gt.trans hgt.not).trans not_lt
  · exact Ordering.isGT_iff_eq_gt.trans hgt
  · exact (Ordering.isGE_iff_ne_lt.trans hlt.not).trans not_lt

theorem compareRat_lt : compareRat p q = .lt ↔ p < q := by
  unfold compareRat
  split
  · simp [*]
  · split <;> simp [*]

theorem compareRat_gt : compareRat p q = .gt ↔ q < p := by
  unfold compareRat
  rcases lt_trichotomy p q with h | h | h
  · simp [h, h.le]
  · simp [h]
  · simp [h, h.le, h.ne']

end Constant

namespace Text

theorem comparePoints_eq : comparePoints s t = .eq ↔ s = t := by
  induction s generalizing t with
  | nil => cases t <;> simp [comparePoints]
  | cons p s ih =>
    cases t with
    | nil => simp [comparePoints]
    | cons q t => rw [comparePoints, Ordering.then_eq_eq, Nat.compare_eq_eq, Fin.val_inj, ih,
        List.cons.injEq]

theorem comparePoints_lt : comparePoints s t = .lt ↔ s < t := by
  induction s generalizing t with
  | nil => cases t <;> simp [comparePoints]
  | cons p s ih =>
    cases t with
    | nil => simp [comparePoints]
    | cons q t => rw [comparePoints, Ordering.then_eq_lt, Nat.compare_eq_lt, Nat.compare_eq_eq,
        Fin.val_inj, ih, List.cons_lt_cons_iff, Fin.lt_def]

theorem comparePoints_gt : comparePoints s t = .gt ↔ t < s := by
  rcases h : comparePoints s t with _ | _ | _
  · simpa using (comparePoints_lt.1 h).le
  · simp [comparePoints_eq.1 h]
  · have hlt : ¬ s < t := fun hlt => by
      rw [comparePoints_lt.2 hlt] at h
      cases h
    have hne : s ≠ t := fun heq => by
      rw [comparePoints_eq.2 heq] at h
      cases h
    simpa using lt_of_le_of_ne (not_lt.1 hlt) hne.symm

end Text

end DeclBridge
