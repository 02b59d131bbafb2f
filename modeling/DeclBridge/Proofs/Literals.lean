import Mathlib.Algebra.Order.Field.Power
import Mathlib.Data.Rat.Floor
import Mathlib.Tactic.IntervalCases
import Mathlib.Tactic.Linarith
import Mathlib.Tactic.NormNum
import Mathlib.Tactic.Ring
import DeclBridge.Output.Literal
import DeclBridge.Proofs.TypedConstants

/-!
# Literals

The literals of the output by the rules of its grammar: what a number is, what a big integer is and
what a string is.  The literal of a constant is of the primitive type that goes with the kind of the
constant (`Constant.literal_of_fits`).  The exception are integers that a double does not hold,
which are written as big integers.

The digits of a double come from the first decimal grid that has a point close enough to it.  The
finest grid that is tried always has one (`Number.isSome_gridPoint?`), so the digits of a double
that is not zero do not begin with a zero.
-/

namespace DeclBridge.Number

variable {x : Float} {n m : ℕ} {d : Number.Decimal} {negative : Bool}

/-! ## Decimal grids -/

theorem pow_toNat_eq {b : ℚ} (hb : b ≠ 0) (z : ℤ) : b ^ z.toNat = b ^ z * b ^ (-z).toNat := by
  rw [← zpow_natCast, ← zpow_natCast, ← zpow_add₀ hb]
  congr 1
  omega

theorem cast_powTwo (n : ℕ) : ((powTwo n : ℕ) : ℚ) = 2 ^ n := by
  rw [powTwo, Nat.pow_eq]
  push_cast
  rfl

theorem cast_powTen (n : ℕ) : ((powTen n : ℕ) : ℚ) = 10 ^ n := by
  rw [powTen, Nat.pow_eq]
  push_cast
  rfl

theorem belowPowTen_iff {e k : ℤ} : belowPowTen m e k = true ↔ (m : ℚ) * 2 ^ e < 10 ^ k := by
  rw [belowPowTen, decide_eq_true_eq, ← Nat.cast_lt (α := ℚ)]
  push_cast [cast_powTwo, cast_powTen]
  rw [pow_toNat_eq two_ne_zero e, pow_toNat_eq (b := 10) (by norm_num) k]
  have hpos : (0 : ℚ) < 2 ^ (-e).toNat * 10 ^ (-k).toNat := by positivity
  rw [← mul_lt_mul_iff_of_pos_right (b := (m : ℚ) * 2 ^ e) (c := 10 ^ k) hpos]
  ring_nf

/-- The decimal logarithm of a power of two, guessed and made smaller by one, is small enough. -/
theorem pow_guess_le {x : ℤ} (hlow : -1074 ≤ x) (hhigh : x ≤ 1023) :
    (10 : ℚ) ^ (x * 30103 / 100000 - 1) ≤ 2 ^ x := by
  set n := x * 30103 / 100000 - 1 with hn
  have hpow (b : ℚ) (z : ℤ) (k : ℕ) : (b ^ z) ^ k = (b ^ k) ^ z := by
    rw [← zpow_natCast, ← zpow_natCast, zpow_comm]
  -- ten is compared with a power of two from above or from below, by the sign of the exponent
  rcases le_total 0 n with hsign | hsign
  · have hten : (10 : ℚ) ^ 59 ≤ 2 ^ 196 := by norm_num
    refine le_of_pow_le_pow_left₀ (n := 59) (by norm_num) (by positivity) ?_
    calc ((10 : ℚ) ^ n) ^ 59 = (10 ^ 59) ^ n := hpow _ _ _
      _ ≤ (2 ^ 196) ^ n := zpow_le_zpow_left₀ hsign (by positivity) hten
      _ = 2 ^ (196 * n) := by rw [← zpow_natCast, ← zpow_mul]; rfl
      _ ≤ 2 ^ (59 * x) := zpow_le_zpow_right₀ one_le_two (by omega)
      _ = (2 ^ x) ^ 59 := by rw [hpow, ← zpow_natCast, ← zpow_mul]; rfl
  · have hten : (2 : ℚ) ^ 93 ≤ 10 ^ 28 := by norm_num
    refine le_of_pow_le_pow_left₀ (n := 28) (by norm_num) (by positivity) ?_
    calc ((10 : ℚ) ^ n) ^ 28 = ((10 ^ 28) ^ (-n))⁻¹ := by rw [hpow, zpow_neg, inv_inv]
      _ ≤ ((2 ^ 93) ^ (-n))⁻¹ := inv_anti₀ (by positivity)
        (zpow_le_zpow_left₀ (neg_nonneg.2 hsign) (by positivity) hten)
      _ = 2 ^ (93 * n) := by rw [zpow_neg, inv_inv, ← zpow_natCast, ← zpow_mul]; rfl
      _ ≤ 2 ^ (28 * x) := zpow_le_zpow_right₀ one_le_two (by omega)
      _ = (2 ^ x) ^ 28 := by rw [hpow, ← zpow_natCast, ← zpow_mul]; rfl

/-- The mantissa and the exponent of a double that is not zero. -/
structure InRange (m : ℕ) (e : ℤ) : Prop where
  pos : 0 < m
  lt : m < 2 ^ 53
  low : -1074 ≤ e
  high : e ≤ 971

variable {e t : ℤ}

theorem pow_log10Binary_le (h : InRange m e) : (10 : ℚ) ^ log10Binary m e ≤ m * 2 ^ e := by
  have hlog : m.log2 < 53 := (Nat.log2_lt h.pos.ne').2 h.lt
  have hpow : (2 : ℚ) ^ (m.log2 : ℤ) ≤ m := by
    rw [zpow_natCast]
    exact_mod_cast Nat.log2_self_le h.pos.ne'
  have hlow := h.low
  have hhigh := h.high
  rw [log10Binary]
  split
  · calc (10 : ℚ) ^ (((m.log2 : ℤ) + e) * 30103 / 100000 - 1)
        ≤ 2 ^ ((m.log2 : ℤ) + e) := pow_guess_le (by omega) (by omega)
      _ = 2 ^ (m.log2 : ℤ) * 2 ^ e := zpow_add₀ two_ne_zero _ _
      _ ≤ m * 2 ^ e := by gcongr
  · rename_i hguess
    split
    · rw [belowPowTen_iff, not_lt] at hguess
      exact hguess
    · rename_i hnext
      rw [belowPowTen_iff, not_lt] at hnext
      exact hnext

/-- On a grid with steps smaller than half the last binary place, the next point above a double
rounds to it. -/
theorem isSome_gridPoint? (h : (10 : ℚ) ^ t < 2 ^ (e - 1)) : (gridPoint? m e t).isSome := by
  set quarter := powTwo (e - 2).toNat * powTen (-t).toNat with hquarter
  set step := powTen t.toNat * powTwo (2 - e).toNat with hstep
  have hlt : step < 2 * quarter := by
    have hhalf : (10 : ℚ) ^ t < 2 * 2 ^ (e - 2) := by
      rw [← zpow_one_add₀ two_ne_zero, show 1 + (e - 2) = e - 1 by ring]
      exact h
    have hpos : (0 : ℚ) < 10 ^ (-t).toNat * 2 ^ (2 - e).toNat := by positivity
    rw [← Nat.cast_lt (α := ℚ), hstep, hquarter]
    push_cast [cast_powTwo, cast_powTen]
    rw [pow_toNat_eq (b := 10) (by norm_num) t, pow_toNat_eq two_ne_zero (e - 2), neg_sub]
    calc (10 : ℚ) ^ t * 10 ^ (-t).toNat * 2 ^ (2 - e).toNat
        = 10 ^ t * (10 ^ (-t).toNat * 2 ^ (2 - e).toNat) := by ring
      _ < 2 * 2 ^ (e - 2) * (10 ^ (-t).toNat * 2 ^ (2 - e).toNat) :=
        mul_lt_mul_of_pos_right hhalf hpos
      _ = 2 * (2 ^ (e - 2) * 2 ^ (2 - e).toNat * 10 ^ (-t).toNat) := by ring
  have hpos : 0 < step := Nat.mul_pos (Nat.pow_pos (by omega)) (Nat.pow_pos (by omega))
  have hlower := Nat.div_mul_le_self (4 * m * quarter) step
  have hupper := Nat.lt_div_mul_add (a := 4 * m * quarter) hpos
  set upper := 4 * m * quarter / step + 1 with hupper_eq
  have hnext : upper * step = 4 * m * quarter / step * step + step := by
    rw [hupper_eq, Nat.add_mul, Nat.one_mul]
  have hbelow : ∀ low ≤ 4 * m, low * quarter < upper * step := by
    intro low hlow
    have := Nat.mul_le_mul_right quarter hlow
    omega
  have habove : upper * step < (4 * m + 2) * quarter := by
    rw [Nat.add_mul (4 * m) 2]
    omega
  rw [gridPoint?]
  simp only [roundingInterval, ← hquarter, ← hstep, ← hupper_eq]
  split
  · rename_i hnone
    exfalso
    split at hnone
    · simp only [Bool.and_eq_false_iff, decide_eq_false_iff_not] at hnone
      rcases hnone with hnone | hnone
      · exact hnone (hbelow _ (by split <;> omega)).le
      · exact hnone habove.le
    · simp only [Bool.and_eq_false_iff, decide_eq_false_iff_not] at hnone
      rcases hnone with hnone | hnone
      · exact hnone (hbelow _ (by split <;> omega))
      · exact hnone habove
  · rfl
  · rfl
  · split
    · rfl
    · split <;> rfl

theorem gridPoint?_ne_zero {c : ℕ} (h : gridPoint? m e t = some c) : c ≠ 0 := by
  rw [gridPoint?] at h
  simp only at h
  split at h
  · cases h
  · rename_i hlower _
    cases h
    simp only [Bool.and_eq_true, decide_eq_true_eq] at hlower
    exact hlower.2
  · cases h
    exact Nat.succ_ne_zero _
  · rename_i hlower _
    simp only [Bool.and_eq_true, decide_eq_true_eq] at hlower
    split at h
    · cases h
      exact hlower.2
    · split at h
      · cases h
        exact Nat.succ_ne_zero _
      · cases h
        split
        · exact hlower.2
        · exact Nat.succ_ne_zero _

theorem firstGrid_ne_zero {tries : ℕ} (h : (gridPoint? m e (t - tries)).isSome) :
    (firstGrid m e tries t).significand ≠ 0 := by
  induction tries generalizing t with
  | zero =>
    obtain ⟨c, hc⟩ := Option.isSome_iff_exists.1 h
    rw [Nat.cast_zero, sub_zero] at hc
    rw [firstGrid, hc]
    exact gridPoint?_ne_zero hc
  | succ tries ih =>
    rw [firstGrid]
    split
    · exact gridPoint?_ne_zero ‹_›
    · apply ih
      rwa [sub_sub, add_comm, ← Nat.cast_succ]

theorem dropZeros_ne_zero {fuel : ℕ} {d : Decimal} (h : d.significand ≠ 0) :
    (dropZeros fuel d).significand ≠ 0 := by
  induction fuel generalizing d with
  | zero => exact h
  | succ fuel ih =>
    rw [dropZeros]
    split
    · apply ih
      show d.significand / 10 ≠ 0
      omega
    · exact h

/-- Seventeen digits suffice, and so a double that is not zero has a digit that is not. -/
theorem shortest_ne_zero (h : InRange m e) : (shortest m e).significand ≠ 0 := by
  apply dropZeros_ne_zero
  apply firstGrid_ne_zero
  apply isSome_gridPoint?
  have hm : (m : ℚ) < 2 ^ (53 : ℤ) := by exact_mod_cast h.lt
  have hpow : (0 : ℚ) < 2 ^ e := by positivity
  calc (10 : ℚ) ^ (log10Binary m e - (17 : ℕ))
      = 10 ^ log10Binary m e / 10 ^ 17 := by rw [zpow_sub₀ (by norm_num), zpow_natCast]
    _ ≤ m * 2 ^ e / 10 ^ 17 := by gcongr; exact pow_log10Binary_le h
    _ < 2 ^ (53 : ℤ) * 2 ^ e / 10 ^ 17 := by gcongr
    _ ≤ 2 ^ (e - 1) := by
      rw [zpow_sub_one₀ two_ne_zero, div_le_iff₀ (by positivity)]
      nlinarith

theorem inRange_of_classify (h : classify x = .finite negative m e) (hm : m ≠ 0) : InRange m e := by
  have hfield := Nat.mod_lt (x.toBits.toNat / powTwo 52) (show 0 < powTwo 11 by decide)
  have hfraction := Nat.mod_lt x.toBits.toNat (show 0 < powTwo 52 by decide)
  have hpow : powTwo 52 = 2 ^ 52 ∧ powTwo 11 = 2048 := ⟨rfl, rfl⟩
  rw [classify] at h
  split at h
  · split at h <;> cases h
  · rename_i hlast
    split at h
    · cases h
      exact ⟨by omega, by omega, le_refl _, by decide⟩
    · rename_i hfirst
      cases h
      simp only [beq_iff_eq] at hlast hfirst
      exact ⟨by omega, by omega, by omega, by omega⟩

end DeclBridge.Number

namespace DeclBridge.Numeral

/-! ## Number literals -/

/-- Decimal digits, of which there is at least one. -/
structure Digits (cs : List Char) : Prop where
  nonempty : cs ≠ []
  isDigit : ∀ c ∈ cs, c.isDigit = true

/-- The digits of a whole number, where a zero stands alone. -/
structure Whole (cs : List Char) : Prop extends Digits cs where
  zero : cs.head? = some '0' → cs = ['0']

/-- A minus sign or none. -/
def Sign (cs : List Char) : Prop := cs = [] ∨ cs = ['-']

/-- The digits after a point, or nothing. -/
def Fraction (cs : List Char) : Prop := cs = [] ∨ ∃ ds, Digits ds ∧ cs = '.' :: ds

/-- A power of ten, or nothing. -/
def Exponent (cs : List Char) : Prop :=
  cs = [] ∨ ∃ sign ds, (sign = '+' ∨ sign = '-') ∧ Digits ds ∧ cs = 'e' :: sign :: ds

/-- A decimal number, with a sign if it is negative. -/
def Number (cs : List Char) : Prop :=
  ∃ sign whole fraction exponent, Sign sign ∧ Whole whole ∧ Fraction fraction ∧
    Exponent exponent ∧ cs = sign ++ whole ++ fraction ++ exponent

/-- A big integer: a whole number with the letter `n` at its end. -/
def BigInt (cs : List Char) : Prop :=
  ∃ sign whole, Sign sign ∧ Whole whole ∧ cs = sign ++ whole ++ ['n']

/-- The number that the digits of a numeral spell, with their point. -/
def mantissa (digits fraction : List Char) : ℚ := Nat.ofDigitChars 10 digits 0 / 10 ^ fraction.length

/-- The number that is written after the mark of a power of ten. -/
def power : List Char → ℤ
  | '-' :: ds => -Nat.ofDigitChars 10 ds 0
  | _ :: ds => Nat.ofDigitChars 10 ds 0
  | [] => 0

/-- The number that a numeral without a sign spells. -/
def magnitude (cs : List Char) : ℚ :=
  let digits := cs.takeWhile (· ≠ 'e')
  mantissa (digits.filter Char.isDigit) ((digits.dropWhile (· ≠ '.')).drop 1) *
    10 ^ power ((cs.dropWhile (· ≠ 'e')).drop 1)

def value : List Char → ℚ
  | '-' :: cs => -magnitude cs
  | cs => magnitude cs

variable {cs ds : List Char}

theorem Digits.append (h : Digits cs) (h' : ∀ c ∈ ds, c.isDigit = true) : Digits (cs ++ ds) :=
  ⟨fun hnil => h.nonempty (List.append_eq_nil_iff.1 hnil).1, fun c hc =>
    (List.mem_append.1 hc).elim (h.isDigit c) (h' c)⟩

theorem isDigit_zeros : ∀ c ∈ List.replicate n '0', c.isDigit = true := by
  intro c hc
  rw [List.eq_of_mem_replicate hc]
  rfl

theorem head?_toDigits_ne (hn : n ≠ 0) : (Nat.toDigits 10 n).head? ≠ some '0' := by
  induction n using Nat.strongRecOn with
  | ind n ih =>
    rw [Nat.toDigits_eq_if (by norm_num)]
    split
    · interval_cases n <;> simp_all [Nat.digitChar]
    · rw [List.head?_append_of_ne_nil _ Nat.toDigits_ne_nil]
      exact ih (n / 10) (by omega) (by omega)

theorem digits_toDigits (n : ℕ) : Digits (Nat.toDigits 10 n) :=
  ⟨Nat.toDigits_ne_nil, fun _ => Nat.isDigit_of_mem_toDigits (by norm_num) (by norm_num)⟩

theorem toList_toString (n : ℕ) : (toString n).toList = Nat.toDigits 10 n := by
  show n.repr.toList = _
  rw [Nat.repr_eq_ofList_toDigits, String.toList_ofList]

theorem whole_toDigits (n : ℕ) : Whole (Nat.toDigits 10 n) := by
  refine ⟨digits_toDigits n, fun hzero => ?_⟩
  by_cases hn : n = 0
  · rw [hn]
    rfl
  · exact absurd hzero (head?_toDigits_ne hn)

theorem Digits.whole (h : Digits cs) (hzero : cs.head? ≠ some '0') : Whole cs :=
  ⟨h, fun h' => absurd h' hzero⟩

theorem sign_ite (negative : Prop) [Decidable negative] :
    Sign (if negative then ['-'] else []) := by
  split
  · exact .inr rfl
  · exact .inl rfl

theorem toList_plainDecimal (n : ℤ) : (Number.plainDecimal n).toList =
    (if n < 0 then ['-'] else []) ++ Nat.toDigits 10 n.natAbs := by
  rw [Number.plainDecimal, Number.digits]
  split <;> simp

theorem exponent_exponentText (z : ℤ) : Exponent (Number.exponentText z).toList ∧
    (Number.exponentText z).toList ≠ [] ∧ power ((Number.exponentText z).toList.drop 1) = z := by
  have hdigits := digits_toDigits z.natAbs
  set ds := if (toString z.natAbs).length < 2 then '0' :: Nat.toDigits 10 z.natAbs else
    Nat.toDigits 10 z.natAbs with hds
  have htext : (Number.exponentText z).toList = 'e' :: (if z < 0 then '-' else '+') :: ds := by
    rw [Number.exponentText, hds]
    simp only [String.toList_append]
    split <;> split <;> simp
  have hnumber : Nat.ofDigitChars 10 ds 0 = z.natAbs := by
    rw [hds]
    split
    · rw [Nat.ofDigitChars_cons, Nat.mul_zero, Nat.zero_add, Nat.sub_self,
        Nat.ofDigitChars_ten_toDigits]
    · exact Nat.ofDigitChars_ten_toDigits
  rw [htext]
  refine ⟨.inr ⟨_, ds, ?_, ?_, rfl⟩, List.cons_ne_nil _ _, ?_⟩
  · split
    · exact .inr rfl
    · exact .inl rfl
  · rw [hds]
    split
    · exact ⟨List.cons_ne_nil _ _, List.forall_mem_cons.2 ⟨rfl, hdigits.isDigit⟩⟩
    · exact hdigits
  · rw [List.drop_succ_cons, List.drop_zero]
    split
    · rw [power, hnumber]
      omega
    · rw [power, hnumber]
      · omega
      · decide

/-- A number of at least one digit, by the place of its point, with the number that it spells. -/
theorem number_positive (hd : d.significand ≠ 0) :
    ∃ whole fraction exponent, Whole whole ∧ Fraction fraction ∧ Exponent exponent ∧
      (Number.Style.literal.positive d).toList = whole ++ fraction ++ exponent ∧
      mantissa (whole ++ fraction.drop 1) (fraction.drop 1) * 10 ^ power (exponent.drop 1) =
        d.significand * 10 ^ d.exponent ∧
      (exponent ≠ [] ↔ (Nat.toDigits 10 d.significand).length + d.exponent - 1 < -4 ∨
        6 ≤ (Nat.toDigits 10 d.significand).length + d.exponent - 1) := by
  set ds := Nat.toDigits 10 d.significand with hds
  have hdigits : Digits ds := digits_toDigits _
  have hnumber : Nat.ofDigitChars 10 ds 0 = d.significand := Nat.ofDigitChars_ten_toDigits
  have hhead : ds.head? ≠ some '0' := head?_toDigits_ne hd
  obtain ⟨c, tail, hcons⟩ := List.exists_cons_of_ne_nil hdigits.nonempty
  have hc : c.isDigit = true := hdigits.isDigit c (hcons ▸ List.mem_cons_self)
  have htail : ∀ c ∈ tail, c.isDigit = true := fun c hc =>
    hdigits.isDigit c (hcons ▸ List.mem_cons_of_mem _ hc)
  set before := (ds.length : ℤ) + d.exponent with hbefore
  -- the digits, with a given number of them after the point
  have hshift {z : ℤ} {n : ℕ} (h : z - n = d.exponent) :
      (d.significand : ℚ) / 10 ^ n * 10 ^ z = d.significand * 10 ^ d.exponent := by
    rw [← h, zpow_sub₀ (by norm_num), zpow_natCast]
    ring
  rw [Number.Style.positive, toList_toString]
  simp only [← hds, ← hbefore]
  split
  · -- one digit before the point, and a power of ten
    rename_i hform
    obtain ⟨hexponent, hne, hpower⟩ := exponent_exponentText (before - 1)
    refine ⟨[c], if tail.isEmpty then [] else '.' :: tail, _, ?_, ?_, hexponent, ?_, ?_,
      iff_of_true hne hform⟩
    · exact ⟨⟨List.cons_ne_nil _ _, by simpa using hc⟩, fun h => by simpa using h⟩
    · split
      · exact .inl rfl
      · rename_i hne
        exact .inr ⟨tail, ⟨fun h => hne (by rw [h]; rfl), htail⟩, rfl⟩
    · rw [hcons]
      simp only [List.take_succ_cons, List.take_zero, List.drop_succ_cons, List.drop_zero,
        String.toList_append, String.toList_ofList]
      split <;> simp
    · have hfraction : (if tail.isEmpty then [] else '.' :: tail).drop 1 = tail := by
        split
        · simp_all
        · rfl
      have hlength : ds.length = tail.length + 1 := by rw [hcons, List.length_cons]
      rw [hfraction, hpower, List.singleton_append, ← hcons, mantissa, hnumber]
      exact hshift (by omega)
  · rename_i hform
    have hplain : ([] : List Char) ≠ [] ↔ before - 1 < -4 ∨ 6 ≤ before - 1 :=
      iff_of_false (fun h => h rfl) hform
    split
    · -- zeros between the point and the digits
      refine ⟨['0'], '.' :: (List.replicate (-before).toNat '0' ++ ds), [], whole_toDigits 0,
        .inr ⟨_, ⟨fun h => hdigits.nonempty (List.append_eq_nil_iff.1 h).2, fun c hc => ?_⟩, rfl⟩,
        .inl rfl, ?_, ?_, hplain⟩
      · exact (List.mem_append.1 hc).elim (isDigit_zeros c) (hdigits.isDigit c)
      · simp [Number.zeros]
      · have hzeros : Nat.ofDigitChars 10 (['0'] ++ (List.replicate (-before).toNat '0' ++ ds)) 0 =
            d.significand := by
          rw [Nat.ofDigitChars_append, Nat.ofDigitChars_append, ← hnumber]
          simp [Nat.ofDigitChars_cons]
        rw [List.drop_succ_cons, List.drop_zero, mantissa, hzeros]
        refine hshift ?_
        rw [List.length_append, List.length_replicate]
        simp only [power, List.drop_nil]
        omega
    · split
      · -- zeros after the digits
        refine ⟨ds ++ List.replicate (before - ds.length).toNat '0', [], [],
          (hdigits.append isDigit_zeros).whole ?_, .inl rfl, .inl rfl, ?_, ?_, hplain⟩
        · rwa [List.head?_append_of_ne_nil _ hdigits.nonempty]
        · simp [Number.zeros, Number.Style.literal]
        · have hexponent : d.exponent = (before - ds.length).toNat := by omega
          rw [List.drop_nil, List.append_nil, mantissa, Nat.ofDigitChars_append, hnumber,
            Nat.ofDigitChars_replicate_zero, hexponent]
          simp [power, mul_comm]
      · -- the point stands between two digits
        rename_i hpos hlt
        have hsplit : 0 < before.toNat ∧ before.toNat < ds.length := by omega
        refine ⟨ds.take before.toNat, '.' :: ds.drop before.toNat, [], ?_,
          .inr ⟨_, ⟨?_, fun c hc => hdigits.isDigit c (List.mem_of_mem_drop hc)⟩, rfl⟩,
          .inl rfl, ?_, ?_, hplain⟩
        · refine Digits.whole ⟨?_, fun c hc => hdigits.isDigit c (List.mem_of_mem_take hc)⟩ ?_
          · rw [Ne, List.take_eq_nil_iff]
            rintro (h | h)
            · omega
            · exact hdigits.nonempty h
          · rwa [List.head?_take, if_neg (by omega)]
        · rw [Ne, List.drop_eq_nil_iff]
          omega
        · simp
        · rw [List.drop_succ_cons, List.drop_zero, List.take_append_drop, mantissa, hnumber]
          refine hshift ?_
          rw [List.length_drop]
          simp only [power, List.drop_nil]
          omega

variable {whole fraction exponent : List Char} {c : Char}

theorem ne_of_isDigit (h : c.isDigit = true) : c ≠ '.' ∧ c ≠ 'e' ∧ c ≠ '-' := by
  refine ⟨?_, ?_, ?_⟩ <;>
  · rintro rfl
    cases h

theorem not_mem_e (hwhole : Whole whole) (hfraction : Fraction fraction) :
    ∀ c ∈ whole ++ fraction, c ≠ 'e' := by
  rcases hfraction with rfl | ⟨ds, hds, rfl⟩
  · rw [List.append_nil]
    exact fun c hc => (ne_of_isDigit (hwhole.isDigit c hc)).2.1
  · simp only [List.forall_mem_append, List.forall_mem_cons]
    exact ⟨fun c hc => (ne_of_isDigit (hwhole.isDigit c hc)).2.1, by decide,
      fun c hc => (ne_of_isDigit (hds.isDigit c hc)).2.1⟩

theorem magnitude_parts (hwhole : Whole whole) (hfraction : Fraction fraction)
    (hexponent : Exponent exponent) : magnitude (whole ++ fraction ++ exponent) =
      mantissa (whole ++ fraction.drop 1) (fraction.drop 1) * 10 ^ power (exponent.drop 1) := by
  have hfree : ∀ c ∈ whole ++ fraction, decide (c ≠ 'e') = true := by
    simpa using not_mem_e hwhole hfraction
  have hpoint : ∀ c ∈ whole, decide (c ≠ '.') = true := by
    simpa using fun c hc => (ne_of_isDigit (hwhole.isDigit c hc)).1
  have hmark : exponent.takeWhile (· ≠ 'e') = [] ∧ exponent.dropWhile (· ≠ 'e') = exponent := by
    rcases hexponent with rfl | ⟨sign, ds, -, -, rfl⟩ <;> simp
  have hdigits : (whole ++ fraction).filter Char.isDigit = whole ++ fraction.drop 1 := by
    rw [List.filter_append, List.filter_eq_self.2 hwhole.isDigit]
    rcases hfraction with rfl | ⟨ds, hds, rfl⟩
    · rfl
    · rw [List.filter_cons_of_neg (by decide), List.filter_eq_self.2 hds.isDigit]
      rfl
  have hafter : (whole ++ fraction).dropWhile (· ≠ '.') = fraction := by
    rw [List.dropWhile_append_of_pos hpoint]
    rcases hfraction with rfl | ⟨ds, hds, rfl⟩ <;> simp
  simp only [magnitude, List.takeWhile_append_of_pos hfree, List.dropWhile_append_of_pos hfree,
    hmark.1, hmark.2, List.append_nil, hdigits, hafter]

theorem value_signed (negative : Bool) (hwhole : Whole whole) (cs : List Char) :
    value ((if negative then ['-'] else []) ++ (whole ++ cs)) =
      (if negative then -1 else 1) * magnitude (whole ++ cs) := by
  cases negative with
  | true => simp [value]
  | false =>
    obtain ⟨c, tail, rfl⟩ := List.exists_cons_of_ne_nil hwhole.nonempty
    have hc := (ne_of_isDigit (hwhole.isDigit c List.mem_cons_self)).2.2
    simp only [Bool.false_eq_true, if_false, List.nil_append, List.cons_append, one_mul]
    rw [value]
    rintro ds heq
    exact hc (List.cons.inj heq).1

theorem mem_e_iff (hwhole : Whole whole) (hfraction : Fraction fraction)
    (hexponent : Exponent exponent) : 'e' ∈ whole ++ fraction ++ exponent ↔ exponent ≠ [] := by
  rw [List.mem_append, or_iff_right fun h => not_mem_e hwhole hfraction _ h rfl]
  rcases hexponent with rfl | ⟨sign, ds, -, -, rfl⟩ <;> simp

/-- The digits of a decimal are read as the decimal.  They are followed by a power of ten where its
order of magnitude is below `-4` or above `5`. -/
theorem value_positive (negative : Bool) (hd : d.significand ≠ 0) :
    ∃ cs, (if negative then "-" else "") ++ Number.Style.literal.positive d = String.ofList cs ∧
      Number cs ∧ value cs = (if negative then -1 else 1) * (d.significand * 10 ^ d.exponent) ∧
      ('e' ∈ cs ↔ (Nat.toDigits 10 d.significand).length + d.exponent - 1 < -4 ∨
        6 ≤ (Nat.toDigits 10 d.significand).length + d.exponent - 1) := by
  obtain ⟨whole, fraction, exponent, hwhole, hfraction, hexponent, htext, hvalue, hform⟩ :=
    number_positive hd
  have hsign : (if negative then "-" else "") =
      String.ofList (if negative then ['-'] else []) := by cases negative <;> rfl
  have hfree : 'e' ∉ if negative then ['-'] else [] := by cases negative <;> decide
  refine ⟨(if negative then ['-'] else []) ++ (whole ++ (fraction ++ exponent)), ?_,
    ⟨if negative then ['-'] else [], whole, fraction, exponent, ?_, hwhole, hfraction, hexponent,
      ?_⟩, ?_, ?_⟩
  · rw [hsign, String.ofList_append, ← List.append_assoc, ← htext, String.ofList_toList]
  · exact sign_ite _
  · simp only [List.append_assoc]
  · rw [value_signed _ hwhole, ← List.append_assoc, magnitude_parts hwhole hfraction hexponent,
      hvalue]
  · rw [List.mem_append, or_iff_right hfree, ← List.append_assoc,
      mem_e_iff hwhole hfraction hexponent, hform]

theorem value_text {e : ℤ} (hx : Number.classify x = .finite negative m e) :
    ∃ cs, Number.Style.literal.text x = String.ofList cs ∧ Number cs ∧
      if m = 0 then cs = if negative then ['-', '0'] else ['0']
      else value cs = (if negative then -1 else 1) *
          ((Number.shortest m e).significand * 10 ^ (Number.shortest m e).exponent) ∧
        ('e' ∈ cs ↔ (Number.digits (Number.shortest m e).significand).length + (Number.shortest m e).exponent - 1 < -4 ∨
          6 ≤ (Number.digits (Number.shortest m e).significand).length + (Number.shortest m e).exponent - 1) := by
  cases m with
  | zero =>
    have htext : Number.Style.literal.text x = (if negative then "-" else "") ++ "0" := by
      rw [Number.Style.text, hx]
      rfl
    refine ⟨if negative then ['-', '0'] else ['0'], ?_,
      ⟨if negative then ['-'] else [], ['0'], [], [], ?_, whole_toDigits 0, .inl rfl, .inl rfl, ?_⟩,
      rfl⟩
    · rw [htext]
      cases negative <;> rfl
    · exact sign_ite _
    · cases negative <;> rfl
  | succ m =>
    have hrange := Number.inRange_of_classify hx (Nat.succ_ne_zero m)
    obtain ⟨cs, htext, hnumber, hvalue, hform⟩ := value_positive negative (Number.shortest_ne_zero hrange)
    refine ⟨cs, ?_, hnumber, ?_⟩
    · rw [← htext, Number.Style.text, hx]
      rfl
    · rw [if_neg (Nat.succ_ne_zero m)]
      refine ⟨hvalue, ?_⟩
      rw [hform, ← toList_toString]
      rfl

theorem number_text (h : Number.isFinite x = true) :
    Number (Number.Style.literal.text x).toList := by
  rw [Number.isFinite] at h
  split at h
  · obtain ⟨cs, htext, hnumber, -⟩ := value_text ‹_›
    rwa [htext, String.toList_ofList]
  · cases h

theorem Digits.getLast? (h : Digits ds) (cs : List Char) :
    ∃ c, (cs ++ ds).getLast? = some c ∧ c.isDigit = true := by
  refine ⟨ds.getLast h.nonempty, ?_, h.isDigit _ (List.getLast_mem h.nonempty)⟩
  rw [List.getLast?_append_of_ne_nil _ h.nonempty, List.getLast?_eq_some_getLast h.nonempty]

/-- A number ends with a digit, and so it is no big integer. -/
theorem Number.not_bigInt (h : Number cs) : ¬ BigInt cs := by
  obtain ⟨sign, whole, fraction, exponent, -, hwhole, hfraction, hexponent, rfl⟩ := h
  rintro ⟨sign', whole', -, -, heq⟩
  have hlast : ∃ c, (sign ++ whole ++ fraction ++ exponent).getLast? = some c ∧
      c.isDigit = true := by
    rcases hexponent with rfl | ⟨mark, ds, -, hds, rfl⟩
    · rw [List.append_nil]
      rcases hfraction with rfl | ⟨ds, hds, rfl⟩
      · rw [List.append_nil]
        exact hwhole.getLast? sign
      · have := hds.getLast? (sign ++ whole ++ ['.'])
        rwa [List.append_assoc _ ['.'] ds] at this
    · have := hds.getLast? (sign ++ whole ++ fraction ++ ['e', mark])
      rwa [List.append_assoc _ ['e', mark] ds] at this
  obtain ⟨c, hc, hdigit⟩ := hlast
  rw [heq, List.getLast?_append_of_ne_nil _ (List.cons_ne_nil _ _)] at hc
  cases hc
  cases hdigit

end DeclBridge.Numeral

namespace DeclBridge

theorem CodePoint.ofChar_injective : Function.Injective CodePoint.ofChar := by
  intro c c' h
  exact Char.toNat_inj.1 (Fin.mk.inj h)

theorem Text.ofString_inj {s s' : String} : Text.ofString s = Text.ofString s' ↔ s = s' := by
  rw [Text.ofString, Text.ofString, Text.mk.injEq,
    List.map_inj_right fun c c' h => CodePoint.ofChar_injective h, String.toList_inj]

end DeclBridge

namespace DeclBridge.StringLiteral

/-! ## String literals -/

/-- A character of a string literal: it stands for itself or is an escape. -/
inductive Piece : List CodePoint → Prop
  | plain (p : CodePoint) (hcontrol : 0x20 ≤ p.val) (hquote : p.val ≠ '"'.toNat)
      (hescape : p.val ≠ '\\'.toNat) : Piece [p]
  | escape (c : Char) (hc : c ∈ ['"', '\\', 'n', 'r', 't', 'f', 'b']) :
      Piece [.ofChar '\\', .ofChar c]
  | unicode (ds : List Char) (hlength : ds.length = 4)
      (hhex : ∀ c ∈ ds, c.isDigit = true ∨ c ∈ ['a', 'b', 'c', 'd', 'e', 'f']) :
      Piece (.ofChar '\\' :: .ofChar 'u' :: ds.map .ofChar)

def IsString (t : Text) : Prop :=
  ∃ pieces : List (List CodePoint), (∀ piece ∈ pieces, Piece piece) ∧
    t.points = .ofChar '"' :: (pieces.flatten ++ [.ofChar '"'])

theorem toList_hex (hn : n < 0x20) :
    (Text.hex 4 n).toList = ['0', '0', Nat.digitChar (n / 16), Nat.digitChar (n % 16)] := by
  rw [Text.hex, String.toList_ofList]
  by_cases hsmall : n < 16
  · rw [Nat.toDigits_of_lt_base hsmall, Nat.div_eq_of_lt hsmall, Nat.mod_eq_of_lt hsmall]
    rfl
  · have hone : n / 16 = 1 := by omega
    rw [Nat.toDigits_of_base_le (by norm_num) (by omega), hone,
      Nat.toDigits_of_lt_base (by norm_num)]
    rfl

theorem hex_of_control (hn : n < 0x20) : (Text.hex 4 n).toList.length = 4 ∧
    ∀ c ∈ (Text.hex 4 n).toList, c.isDigit = true ∨ c ∈ ['a', 'b', 'c', 'd', 'e', 'f'] := by
  have hdigit : ∀ d : ℕ, d < 16 → (Nat.digitChar d).isDigit = true ∨
      Nat.digitChar d ∈ ['a', 'b', 'c', 'd', 'e', 'f'] := by
    intro d hd
    interval_cases d <;> decide
  rw [toList_hex hn]
  refine ⟨rfl, ?_⟩
  simp only [List.forall_mem_cons, List.not_mem_nil, false_implies, implies_true, and_true]
  exact ⟨hdigit 0 (by norm_num), hdigit 0 (by norm_num), hdigit _ (by omega), hdigit _ (by omega)⟩

theorem piece_jsonPoint (p : CodePoint) : Piece (Text.jsonPoint p).points := by
  rw [Text.jsonPoint]
  split_ifs with hquote hescape hline hreturn htab hfeed hback hcontrol
  · exact .escape '"' (by decide)
  · exact .escape '\\' (by decide)
  · exact .escape 'n' (by decide)
  · exact .escape 'r' (by decide)
  · exact .escape 't' (by decide)
  · exact .escape 'f' (by decide)
  · exact .escape 'b' (by decide)
  · obtain ⟨hlength, hdigits⟩ := hex_of_control hcontrol
    have hpoints : (Text.ofString ("\\u" ++ Text.hex 4 p.val)).points =
        .ofChar '\\' :: .ofChar 'u' :: (Text.hex 4 p.val).toList.map .ofChar := by
      rw [Text.ofString, String.toList_append, List.map_append]
      rfl
    rw [hpoints]
    exact .unicode _ hlength hdigits
  · rw [beq_iff_eq] at hquote hescape
    exact .plain p (Nat.not_lt.1 hcontrol) hquote hescape

theorem isString_jsonQuoted (t : Text) : IsString t.jsonQuoted := by
  refine ⟨t.points.map fun p => (Text.jsonPoint p).points, ?_, ?_⟩
  · intro piece hpiece
    obtain ⟨p, -, rfl⟩ := List.mem_map.1 hpiece
    exact piece_jsonPoint p
  · rw [← List.flatMap_def]
    rfl

end DeclBridge.StringLiteral

namespace DeclBridge

/-! ## Literals of constants -/

/-- The types of the output that have literals. -/
inductive Primitive where
  | boolean
  | string
  | number
deriving DecidableEq, Repr

namespace Primitive

def Literal : Primitive → Text → Prop
  | boolean, literal => literal = "true" ∨ literal = "false"
  | string, literal => StringLiteral.IsString literal
  | number, literal => ∃ cs, Numeral.Number cs ∧ literal = String.ofList cs

def name : Primitive → String
  | boolean => "boolean"
  | string => "string"
  | number => "number"

end Primitive

/-- The primitive type of a kind, if its values have literals. -/
def Kind.primitive? (kind : Kind) : Option Primitive :=
  if kind = .bool ∨ kind = .untypedBool then some .boolean
  else if kind = .string ∨ kind = .untypedString then some .string
  else if kind.isInteger || kind.isFloat then some .number
  else none

namespace Constant

/-- An integer that lies beyond those that a double holds without a gap. -/
def Large (c : Constant) : Prop := ∃ n : ℤ, c = .int n ∧ (n < -(2 ^ 53 - 1) ∨ 2 ^ 53 - 1 < n)

variable {c : Constant} {kind : Kind} {literal : Text}

theorem primitive?_of_number (h : kind.isInteger = true ∨ kind.isFloat = true) :
    kind.primitive? = some .number := by
  cases kind <;> first | rfl | exact absurd h (by decide)

theorem intLiteral_of_short {n : ℤ} (h : ¬ Number.digitLimit < (Number.digits n.natAbs).length) :
    intLiteral n = .ok (String.ofList (if 2 ^ 53 - 1 < |n| then (Number.plainDecimal n).toList ++ ['n']
      else (Number.plainDecimal n).toList)) := by
  have hsafe : safeInteger = 2 ^ 53 - 1 := by decide
  have hlarge : (n < -safeInteger ∨ safeInteger < n) ↔ 2 ^ 53 - 1 < |n| := by
    rw [hsafe, lt_abs, or_comm, lt_neg]
  have hdecimal : Number.decimal n = .ok (Number.plainDecimal n) := if_neg h
  rw [intLiteral, hdecimal]
  simp only [hlarge]
  split
  · rw [String.ofList_append, String.ofList_toList]
    rfl
  · rw [String.ofList_toList]
    rfl

theorem intLiteral_eq {n : ℤ} {s : String} (h : intLiteral n = .ok s) :
    if n < -(2 ^ 53 - 1) ∨ 2 ^ 53 - 1 < n then Numeral.BigInt s.toList
    else Numeral.Number s.toList := by
  have hshort : ¬ Number.digitLimit < (Number.digits n.natAbs).length := by
    intro hlong
    rw [intLiteral, Number.decimal, if_pos hlong] at h
    cases h
  rw [intLiteral_of_short hshort] at h
  cases h
  have hwhole := Numeral.whole_toDigits n.natAbs
  rw [String.toList_ofList, Numeral.toList_plainDecimal]
  simp only [lt_abs, lt_neg, or_comm]
  split
  · exact ⟨_, _, Numeral.sign_ite _, hwhole, rfl⟩
  · exact ⟨_, _, [], [], Numeral.sign_ite (n < 0), hwhole, .inl rfl, .inl rfl, by simp⟩

theorem doubleLiteral?_number (h : doubleLiteral? x = some literal) :
    Primitive.number.Literal literal := by
  rw [doubleLiteral?] at h
  split at h
  · cases h
    exact ⟨_, Numeral.number_text ‹_›, by rw [String.ofList_toList]⟩
  · cases h

/-- The literal of a constant is of the primitive type of its kind, but for a large integer, which
is written as a big integer. -/
theorem literal_of_fits {S : Prop} (hfits : c.Fits S kind) (h : c.literal? = .ok (some literal)) :
    ∃ primitive, kind.primitive? = some primitive ∧ (¬ c.Large ∧ primitive.Literal literal ∨
        c.Large ∧ primitive = .number ∧ ∃ cs, Numeral.BigInt cs ∧ literal = String.ofList cs) := by
  cases c with
  | bool b =>
    refine ⟨.boolean, if_pos hfits, .inl ⟨?_, ?_⟩⟩
    · rintro ⟨n, heq, -⟩
      cases heq
    · cases h
      cases b with
      | true => exact .inl rfl
      | false => exact .inr rfl
  | str t =>
    refine ⟨.string, ?_, .inl ⟨?_, ?_⟩⟩
    · rcases hfits with rfl | rfl <;> rfl
    · rintro ⟨n, heq, -⟩
      cases heq
    · cases h
      exact StringLiteral.isString_jsonQuoted t
  | int n =>
    obtain ⟨text, htext, heq⟩ := eq_ok_of_map h
    cases heq
    obtain ⟨s, hint, heq⟩ := eq_ok_of_bind htext
    cases heq
    refine ⟨.number, primitive?_of_number (hfits.imp_right And.left), ?_⟩
    have hs := intLiteral_eq hint
    split at hs
    · exact .inr ⟨⟨n, rfl, ‹_›⟩, rfl, _, hs, by rw [String.ofList_toList]⟩
    · refine .inl ⟨?_, _, hs, by rw [String.ofList_toList]⟩
      rintro ⟨n', heq, hlarge⟩
      cases heq
      exact absurd hlarge ‹_›
  | rat q =>
    refine ⟨.number, primitive?_of_number (.inr hfits), .inl ⟨?_, ?_⟩⟩
    · rintro ⟨n, heq, -⟩
      cases heq
    · obtain ⟨x, -, hx⟩ := Option.bind_eq_some_iff.1 (Except.ok.inj h)
      exact doubleLiteral?_number hx
  | float => exact hfits.elim
  | complex z => cases h

end Constant

end DeclBridge
