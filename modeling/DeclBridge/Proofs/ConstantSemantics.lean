import DeclBridge.Proofs.ConstantMeaning
import DeclBridge.Proofs.TypedConstants

/-!
# The evaluator against the exact semantics

Each operator of the evaluator, applied to operands that represent meanings, gives the operand of
the one meaning that the exact semantics allows, or a problem where it allows none (`Settles`).  By
induction the same holds for expressions (`eval_settles`).  What can still go wrong is the text of a
problem: it cites the fraction that should have been an integer, and a fraction with too many digits
cannot be written.
-/

namespace DeclBridge

open Constant Number Meaning BinaryOp

variable {op : BinaryOp} {k m n : Meaning} {x y : Quantity} {iota : Option ℕ} {l : Literal}
    {scope : Scope}

/-! ## What the evaluator makes of meanings -/

/-- A computation gives the only meaning that `R` allows, or reports a problem where `R` allows
none. -/
inductive Settles (x : Resolving Operand) (R : Meaning → Prop) : Prop
  | meaning (m : Meaning) : (∀ m', R m' ↔ m' = m) → x = pure m.operand → Settles x R
  | problem (why : Problem) (pos : Position) : (∀ m, ¬ R m) → why.Reported →
    x = Resolving.problem why pos → Settles x R

namespace Settles

variable {x : Resolving Operand} {R R' : Meaning → Prop}

theorem congr (h : Settles x R) (hR : ∀ m, R m ↔ R' m) : Settles x R' := by
  obtain rfl : R = R' := funext fun m => propext (hR m)
  exact h

theorem unique (hm : R m) (hx : x = pure m.operand) (honly : ∀ m', R m' → m' = m) : Settles x R :=
  .meaning m (fun m' => ⟨honly m', fun h => h ▸ hm⟩) hx

theorem told (why : Problem) (pos : Position) {text : String} (htext : why.message = .ok text)
    (hwhy : why.isTruncated = false) (hnone : ∀ m, ¬ R m) (hx : x = Resolving.problem why pos) :
    Settles x R :=
  .problem why pos hnone (Problem.reported_of_text htext hwhy) hx

end Settles

namespace Resolving

variable {env : Surroundings} {resolve : String → Resolving Unit} {pos : Position}

theorem complement_untyped (k : NumberKind) (n : ℤ) : complement n (some k.untyped) = bitNot n := by
  cases k <;> rfl

theorem unary_number_settles (op : UnaryOp) (x : Quantity) :
    Settles (unary env resolve op pos (number x).operand) (UnaryOperates op (.number x)) := by
  have hoperand : (number x).operand = ⟨some x.constant, .basic x.kind.untyped⟩ := rfl
  cases op with
  | plus =>
    refine .unique .plus ?_ fun m hm => ?_
    · rw [hoperand]
      rcases x.constant_cases with ⟨-, n, -, h⟩ | ⟨-, h⟩ <;> rw [h] <;> rfl
    · cases hm
      rfl
  | minus =>
    refine .unique (m := .number x.neg) (.minus rfl rfl) ?_ fun m hm => ?_
    · have hneg : (number x.neg).operand =
          ⟨some x.constant.negate, .basic x.kind.untyped⟩ := by
        rw [← x.constant_neg]
        rfl
      rw [hoperand, hneg]
      rcases x.constant_cases with ⟨-, n, -, h⟩ | ⟨-, h⟩ <;> rw [h] <;> rfl
    · cases hm with
      | minus hkind hvalue => exact congrArg number (Quantity.ext hkind hvalue)
  | not =>
    refine .told .negatedNonBool pos rfl rfl (fun m hm => by cases hm) ?_
    rw [hoperand]
    rcases x.constant_cases with ⟨-, n, -, h⟩ | ⟨-, h⟩ <;> rw [h] <;> rfl
  | complement =>
    rcases x.constant_cases with ⟨hkind, n, hn, h⟩ | ⟨hkind, h⟩
    · refine .unique (m := .number (.integer x.kind (bitNot n)))
        (.complement hkind hn (testBit_bitNot n) rfl rfl) ?_ fun m hm => ?_
      · have hnot : (number (.integer x.kind (bitNot n))).operand =
            ⟨some (.int (complement n (some x.kind.untyped))), .basic x.kind.untyped⟩ := by
          rw [complement_untyped, ← Quantity.constant_of_whole
            (x := .integer x.kind (bitNot n)) hkind rfl]
          rfl
        rw [hoperand, hnot, h]
        rfl
      · cases hm with
        | complement _ hn' hbits hy hc =>
          rw [Rat.intCast_injective (hn'.symm.trans hn)] at hbits
          rw [(forall_testBit_iff (testBit_bitNot n)).1 hbits] at hc
          exact congrArg number (Quantity.ext hy hc)
    · refine .told .complementedNonInteger pos rfl rfl (fun m hm => ?_) ?_
      · cases hm with
        | complement hfloat => exact hfloat hkind
      · rw [hoperand, h]
        rfl

theorem unary_settles (op : UnaryOp) (m : Meaning) :
    Settles (unary env resolve op pos m.operand) (UnaryOperates op m) := by
  cases m with
  | number x => exact unary_number_settles op x
  | text s =>
    have hnone : ∀ n, ¬ UnaryOperates op (.text s) n := fun n hn => by cases hn
    cases op with
    | not => exact .told .negatedNonBool pos rfl rfl hnone rfl
    | plus | minus | complement =>
      exact .told (.undefinedOperator _ (.str ⟨s⟩)) pos rfl rfl hnone rfl
  | truth b =>
    cases op with
    | not =>
      refine .unique .not rfl fun n hn => ?_
      cases hn
      rfl
    | plus | minus | complement =>
      exact .told (.undefinedOperator _ (.bool b)) pos rfl rfl (fun n hn => by cases hn) rfl

/-! ### Shifts -/

theorem wholeNumber_meaning_cases (m : Meaning) (pos : Position) :
    (∃ (x : Quantity) (n : ℤ), m = .number x ∧ x.value = n ∧ m.constant.wholeNumber pos = .ok n) ∨
    ((∀ (x : Quantity) (n : ℤ), m = .number x → x.value ≠ n) ∧
      ∃ why : Problem, why.Reported ∧ m.constant.wholeNumber pos = Constant.problem why pos) := by
  cases m with
  | number x =>
    rcases x.wholeNumber_cases pos with ⟨n, hn, h⟩ | ⟨hne, h⟩
    · exact .inl ⟨x, n, rfl, hn, h⟩
    · refine .inr ⟨fun y n hy => ?_, _, Problem.reported_truncated hne, h⟩
      cases hy
      exact hne n
  | text s =>
    exact .inr ⟨fun x n h => (by cases h), .notAnInteger (.str ⟨s⟩),
      Problem.reported_of_text rfl rfl, rfl⟩
  | truth b =>
    exact .inr ⟨fun x n h => (by cases h), .notAnInteger (.bool b),
      Problem.reported_of_text rfl rfl, rfl⟩

theorem operates_shift_iff (hop : op.family = .shift) : Operates op m n k ↔ ∃ (x y z : Quantity)
    (a c : ℤ) (i : ℕ),
      m = .number x ∧ n = .number y ∧ k = .number z ∧ x.value = a ∧ y.value = i ∧ i ≤ 65536 ∧
        op.Shifts a i c ∧ z.kind = .int ∧ z.value = c := by
  constructor
  · intro h
    cases h with
    | shift hx hy hi hshift hz hc =>
      exact ⟨_, _, _, _, _, _, rfl, rfl, rfl, hx, hy, hi, hshift, hz, hc⟩
    | integers _ _ _ h => cases hop.symm.trans (family_of_onIntegers h)
    | fractions _ h => cases hop.symm.trans (family_of_onFractions h)
    | numbers h | texts h => cases hop.symm.trans h
    | truths h =>
      rcases h with rfl | rfl
      · cases hop
      · cases hop
    | concat h | and h | or h =>
      rw [h] at hop
      cases hop
  · rintro ⟨x, y, z, a, c, i, rfl, rfl, rfl, hx, hy, hi, hshift, hz, hc⟩
    exact .shift hx hy hi hshift hz hc

theorem shift_settles (hop : op.family = .shift) (m n : Meaning) :
    Settles (shift op pos m.operand n.operand) (Operates op m n) := by
  have htype : m.operand.type.isUntyped = true := by
    cases m with
    | number x =>
      show (Ty.basic x.kind.untyped).isUntyped = true
      cases x.kind <;> rfl
    | text | truth => rfl
  have hshift : shift op pos m.operand n.operand =
      lift (m.constant.shift op n.constant pos) >>= fun c => pure ⟨some c, .basic .untypedInt⟩ := by
    unfold shift
    rw [htype]
    rfl
  rw [hshift]
  rcases wholeNumber_meaning_cases m pos with ⟨x, a, rfl, hx, ha⟩ | ⟨hm, why, hwhy, ha⟩
  · rcases wholeNumber_meaning_cases n pos with ⟨y, b, rfl, hy, hb⟩ | ⟨hn, why, hwhy, hb⟩
    · have hrun : Constant.shift op (Meaning.number x).constant (Meaning.number y).constant pos =
          if b < 0 then Constant.problem .negativeShift pos
          else if Constant.shiftLimit < b then Constant.problem .largeShift pos
          else .ok (.int (if op = .shiftLeft then Number.shiftLeft a b.toNat
            else Number.shiftRight a b.toNat)) := by
        rw [Constant.shift, ha, hb]
        rfl
      -- a count that some shift accepts is this one
      have hcount {k : Meaning} (hk : Operates op (.number x) (.number y) k) :
          ∃ (z : Quantity) (c : ℤ) (i : ℕ), k = .number z ∧ b = i ∧ i ≤ 65536 ∧ op.Shifts a i c ∧
            z.kind = .int ∧ z.value = c := by
        obtain ⟨x', y', z, a', c, i, hx', hy', rfl, ha', hi, hle, hshift, hz⟩ :=
          (operates_shift_iff hop).1 hk
        cases hx'
        cases hy'
        rw [Rat.intCast_injective (ha'.symm.trans hx)] at hshift
        exact ⟨z, c, i, rfl, by exact_mod_cast hy.symm.trans hi, hle, hshift, hz⟩
      rw [hrun]
      by_cases hneg : b < 0
      · refine .told .negativeShift pos rfl rfl (fun k hk => ?_) (by rw [if_pos hneg]; rfl)
        obtain ⟨_, _, i, _, hi, _⟩ := hcount hk
        omega
      rw [if_neg hneg]
      by_cases hlarge : shiftLimit < b
      · refine .told .largeShift pos rfl rfl (fun k hk => ?_) (by rw [if_pos hlarge]; rfl)
        obtain ⟨_, _, i, _, hi, hle, _⟩ := hcount hk
        unfold shiftLimit at hlarge
        omega
      rw [if_neg hlarge]
      have hb' : ((b.toNat : ℕ) : ℤ) = b := Int.toNat_of_nonneg (not_lt.1 hneg)
      refine .unique (m := .number (.integer .int _)) (.shift hx
        (hy.trans (by exact_mod_cast hb'.symm)) ?_ ((shifts_iff hop).2 rfl) rfl rfl) rfl fun k hk => ?_
      · unfold shiftLimit at hlarge
        omega
      · obtain ⟨z, c, i, rfl, hi, -, hshift, hz, hc⟩ := hcount hk
        rw [(shifts_iff hop).1 hshift, show i = b.toNat by omega] at hc
        exact congrArg number (Quantity.ext hz hc)
    · refine .problem why pos (fun k hk => ?_) hwhy ?_
      · obtain ⟨_, y, _, _, _, i, _, hn', _, _, hi, _⟩ := (operates_shift_iff hop).1 hk
        exact hn y i hn' (by exact_mod_cast hi)
      · rw [Constant.shift, ha, hb]
        rfl
  · refine .problem why pos (fun k hk => ?_) hwhy ?_
    · obtain ⟨x, _, _, a, _, _, hm', _, _, ha', _⟩ := (operates_shift_iff hop).1 hk
      exact hm x a hm' ha'
    · rw [Constant.shift, ha]
      rfl

/-! ### Arithmetic -/

theorem commonType_numbers (op : BinaryOp) (x y : Quantity) :
    commonType env resolve op pos (number x).operand (number y).operand =
      pure (.basic (max x.kind y.kind).untyped) := by
  rcases x with ⟨j, _, _⟩
  rcases y with ⟨k, _, _⟩
  cases j <;> cases k <;> rfl

theorem combine_arithmetic (hop : op.family = .arithmetic) (m n : Meaning)
    (k : Kind) : combine env resolve op pos m.operand n.operand (.basic k) =
      lift (arith op m.constant n.constant (some k) pos) >>= fun c => pure ⟨some c, .basic k⟩ := by
  cases op with
  | add | sub | mul | div | rem | bitAnd | bitOr | bitXor | bitClear => rfl
  | _ => cases hop

theorem arith_integers {a b : ℤ} {k : NumberKind} (hk : k ≠ .float) :
    arith op (.int a) (.int b) (some k.untyped) pos =
      if (op = .div ∨ op = .rem) ∧ b = 0 then Constant.problem .divisionByZero pos
      else .ok (.int (Constant.intArith op a b)) := by
  have hint : Option.any Kind.isInteger (some k.untyped) = true := by
    cases k <;> first | rfl | exact absurd rfl hk
  have hzero : Constant.same (.int b) (.int 0) = true ↔ b = 0 := by
    simp [same, parts?, real?]
  unfold arith
  simp only [hzero, hint, if_true]
  rfl

theorem arith_fractions (x y : Quantity) : arith op x.constant y.constant (some .untypedFloat) pos =
      if (op = .div ∨ op = .rem) ∧ y.value = 0 then Constant.problem .divisionByZero pos
      else if Constant.needsIntegers op then Constant.problem (.nonIntegerOperands op) pos
      else .ok (.rat (Constant.ratArith op x.value y.value)) := by
  have hzero : y.constant.same (.int 0) = true ↔ y.value = 0 := by
    have := y.same_constant (.integer .int 0)
    rw [Quantity.constant_of_whole (x := .integer .int 0) (by decide) rfl] at this
    rw [this, decide_eq_true_iff]
    exact Iff.rfl
  have hx := x.toFraction_constant
  have hy := y.toFraction_constant
  rcases x.constant_cases with ⟨-, m, -, hxc⟩ | ⟨-, hxc⟩ <;>
    rcases y.constant_cases with ⟨-, n, -, hyc⟩ | ⟨-, hyc⟩ <;>
    rw [hxc] at hx ⊢ <;> rw [hyc] at hy hzero ⊢ <;> unfold Constant.arith <;>
    simp only [hzero, hx, hy] <;> rfl

theorem operates_arithmetic_iff (hop : op.family = .arithmetic) : Operates op (.number x)
    (.number y) k ↔ ∃ z : Quantity, k = .number z ∧
      z.kind = max x.kind y.kind ∧ ((max x.kind y.kind ≠ .float ∧ ∃ a b c : ℤ, x.value = a ∧
        y.value = b ∧ op.OnIntegers a b c ∧ z.value = c) ∨
      (max x.kind y.kind = .float ∧ op.OnFractions x.value y.value z.value)) := by
  constructor
  · intro h
    cases h with
    | integers hk hx hy h hz hc => exact ⟨_, rfl, hz, .inl ⟨hk, _, _, _, hx, hy, h, hc⟩⟩
    | fractions hk h hz => exact ⟨_, rfl, hz.trans hk.symm, .inr ⟨hk, h⟩⟩
    | shift _ _ _ h => cases hop.symm.trans (BinaryOp.family_of_shifts h)
    | numbers h => cases hop.symm.trans h
  · rintro ⟨z, rfl, hz, ⟨hk, a, b, c, hx, hy, h, hc⟩ | ⟨hk, h⟩⟩
    · exact .integers hk hx hy h hz hc
    · exact .fractions hk h (hz.trans hk)

theorem fractions_settles (hop : op.family = .arithmetic) (hk : max x.kind y.kind = .float) :
    Settles (combine env resolve op pos (Meaning.number x).operand (Meaning.number y).operand
      (.basic .untypedFloat)) (Operates op (.number x) (.number y)) := by
  rw [combine_arithmetic hop]
  show Settles (lift (Constant.arith op x.constant y.constant _ pos) >>= _) _
  rw [arith_fractions]
  have hoperates {k : Meaning} : Operates op (.number x) (.number y) k ↔
      ∃ z : Quantity, k = .number z ∧ z.kind = .float ∧
        op.OnFractions x.value y.value z.value := by
    rw [operates_arithmetic_iff hop]
    constructor
    · rintro ⟨z, rfl, hz, ⟨hk', -⟩ | ⟨-, h⟩⟩
      · exact absurd hk hk'
      · exact ⟨z, rfl, hz.trans hk, h⟩
    · rintro ⟨z, rfl, hz, h⟩
      exact ⟨z, rfl, hz.trans hk.symm, .inr ⟨hk, h⟩⟩
  by_cases hzero : (op = .div ∨ op = .rem) ∧ y.value = 0
  · refine .told .divisionByZero pos rfl rfl (fun k hk => ?_) (by rw [if_pos hzero]; rfl)
    obtain ⟨z, -, -, h⟩ := hoperates.1 hk
    rcases hzero with ⟨rfl | rfl, hy⟩
    · exact h.1 hy
    · exact h
  rw [if_neg hzero]
  by_cases hneeds : Constant.needsIntegers op = true
  · refine .told (.nonIntegerOperands op) pos rfl rfl (fun k hk => ?_) (by rw [if_pos hneeds]; rfl)
    obtain ⟨z, -, -, h⟩ := hoperates.1 hk
    cases op with
    | rem | bitAnd | bitOr | bitXor | bitClear => exact h
    | _ => cases hneeds
  rw [if_neg hneeds]
  have hiff {r : ℚ} := Constant.onFractions_iff (p := x.value) (q := y.value) (r := r) hop
    (eq_false_of_ne_true hneeds) fun hdiv hy => hzero ⟨.inl hdiv, hy⟩
  refine .unique (m := .number (.fraction _)) (hoperates.2 ⟨_, rfl, rfl, hiff.2 rfl⟩) rfl
    fun k hk => ?_
  obtain ⟨z, rfl, hz, h⟩ := hoperates.1 hk
  exact congrArg Meaning.number (Quantity.ext hz (hiff.1 h))

theorem integers_settles (hop : op.family = .arithmetic) (hk : max x.kind y.kind ≠ .float) :
    Settles (combine env resolve op pos (Meaning.number x).operand (Meaning.number y).operand
      (.basic (max x.kind y.kind).untyped)) (Operates op (.number x) (.number y)) := by
  obtain ⟨hxk, hyk⟩ : x.kind ≠ .float ∧ y.kind ≠ .float := by
    refine ⟨fun h => hk ?_, fun h => hk ?_⟩
    · rw [h]
      cases y.kind <;> rfl
    · rw [h]
      cases x.kind <;> rfl
  obtain ⟨a, ha⟩ := x.whole hxk
  obtain ⟨b, hb⟩ := y.whole hyk
  rw [combine_arithmetic hop]
  show Settles (lift (Constant.arith op x.constant y.constant _ pos) >>= _) _
  rw [Quantity.constant_of_whole hxk ha, Quantity.constant_of_whole hyk hb, arith_integers hk]
  have hoperates {k : Meaning} : Operates op (.number x) (.number y) k ↔
      ∃ (z : Quantity) (c : ℤ), k = .number z ∧ z.kind = max x.kind y.kind ∧
        op.OnIntegers a b c ∧ z.value = c := by
    rw [operates_arithmetic_iff hop]
    constructor
    · rintro ⟨z, rfl, hz, ⟨-, a', b', c, ha', hb', h, hc⟩ | ⟨hk', -⟩⟩
      · rw [Rat.intCast_injective (ha'.symm.trans ha), Rat.intCast_injective (hb'.symm.trans hb)]
          at h
        exact ⟨z, c, rfl, hz, h, hc⟩
      · exact absurd hk' hk
    · rintro ⟨z, c, rfl, hz, h, hc⟩
      exact ⟨z, rfl, hz, .inl ⟨hk, a, b, c, ha, hb, h, hc⟩⟩
  by_cases hzero : (op = .div ∨ op = .rem) ∧ b = 0
  · refine .told .divisionByZero pos rfl rfl (fun k hk => ?_) (by rw [if_pos hzero]; rfl)
    obtain ⟨z, c, -, -, h, -⟩ := hoperates.1 hk
    rw [hzero.2] at h
    exact Constant.not_onIntegers_zero hzero.1 h
  rw [if_neg hzero]
  have hiff {c : ℤ} := Constant.onIntegers_iff (a := a) (b := b) (c := c) hop
    fun hdiv hb => hzero ⟨hdiv, hb⟩
  refine .unique (m := .number (.integer (max x.kind y.kind) (Constant.intArith op a b)))
    (hoperates.2 ⟨_, _, rfl, rfl, hiff.2 rfl, rfl⟩) ?_ fun k hk => ?_
  · rw [← Quantity.constant_of_whole (x := .integer (max x.kind y.kind) _) hk rfl]
    rfl
  · obtain ⟨z, c, rfl, hz, h, hc⟩ := hoperates.1 hk
    rw [hiff.1 h] at hc
    exact congrArg Meaning.number (Quantity.ext hz hc)

/-! ### Comparisons -/

theorem combine_comparison (hop : op.family = .comparison) (m n : Meaning)
    (t : Ty) : combine env resolve op pos m.operand n.operand t =
      lift (compareWith op m.constant n.constant pos) >>= fun v => pure (truth v).operand := by
  cases op with
  | eq | ne | lt | le | gt | ge => rfl
  | _ => cases hop

theorem comparison_settles {α : Type} [LinearOrder α] {t : Ty}
    {a b : α} {v : Bool} (hop : op.family = .comparison)
    (hv : compareWith op m.constant n.constant pos = .ok v) (hholds : v = true ↔ op.Compares a b)
    (hoperates : ∀ k, Operates op m n k ↔ ∃ w, k = .truth w ∧ (w = true ↔ op.Compares a b)) :
    Settles (combine env resolve op pos m.operand n.operand t) (Operates op m n) := by
  refine .unique ((hoperates _).2 ⟨v, rfl, hholds⟩) ?_ fun k hk => ?_
  · rw [combine_comparison hop, hv]
    rfl
  · obtain ⟨w, rfl, hw⟩ := (hoperates k).1 hk
    rw [Bool.eq_iff_iff.2 (hw.trans hholds.symm)]

/-- The evaluator decides a comparison of members of an order if it decides that they are equal and
which one is less. -/
theorem compareWith_spec {α : Type} [LinearOrder α] {c d : Constant} {a b : α}
    (hsame : c.same d = true ↔ a = b) (hop : op.family = .comparison)
    (hordered : op = .lt ∨ op = .le ∨ op = .gt ∨ op = .ge → ∃ o : Ordering,
      compareWith op c d pos = .ok (orderHolds op o) ∧ (o = .lt ↔ a < b) ∧ (o = .gt ↔ b < a)) :
    ∃ v, compareWith op c d pos = .ok v ∧ (v = true ↔ op.Compares a b) := by
  cases op with
  | eq => exact ⟨_, rfl, hsame⟩
  | ne => exact ⟨_, rfl, by rw [Bool.not_eq_true', ← Bool.not_eq_true, hsame]; exact Iff.rfl⟩
  | lt | le | gt | ge =>
    obtain ⟨o, ho, hlt, hgt⟩ := hordered (by simp)
    exact ⟨_, ho, orderHolds_iff (by simp) hlt hgt⟩
  | _ => cases hop

theorem compareWith_numbers (pos : Position) (hop : op.family = .comparison) (x y : Quantity) :
    ∃ v, compareWith op x.constant y.constant pos = .ok v ∧
      (v = true ↔ op.Compares x.value y.value) := by
  refine compareWith_spec (by rw [Quantity.same_constant, decide_eq_true_iff]) hop fun hop' =>
    ⟨compareRat x.value y.value, ?_, compareRat_lt, compareRat_gt⟩
  have hx := x.toFraction_constant
  have hy := y.toFraction_constant
  rcases x.constant_cases with ⟨-, m, -, hxc⟩ | ⟨-, hxc⟩ <;>
    rcases y.constant_cases with ⟨-, n, -, hyc⟩ | ⟨-, hyc⟩ <;>
    rw [hxc] at hx ⊢ <;> rw [hyc] at hy ⊢ <;> rcases hop' with rfl | rfl | rfl | rfl <;>
    simp only [compareWith, hx, hy] <;> rfl

theorem compareWith_texts (pos : Position) (hop : op.family = .comparison) (s t : List CodePoint) :
    ∃ v, compareWith op (.str ⟨s⟩) (.str ⟨t⟩) pos = .ok v ∧ (v = true ↔ op.Compares s t) := by
  refine compareWith_spec (by simp [same]) hop fun hop' =>
    ⟨Text.comparePoints s t, ?_, Text.comparePoints_lt, Text.comparePoints_gt⟩
  rcases hop' with rfl | rfl | rfl | rfl <;> rfl

theorem compareWith_truths (pos : Position) (hop : op = .eq ∨ op = .ne) (a b : Bool) :
    ∃ v, compareWith op (.bool a) (.bool b) pos = .ok v ∧ (v = true ↔ op.Compares a b) := by
  refine compareWith_spec (by cases a <;> cases b <;> decide) ?_ fun hop' => ?_
  · rcases hop with rfl | rfl <;> rfl
  · rcases hop with rfl | rfl <;> simp at hop'

/-! ### Operators with two operands -/

theorem numbers_settles (hshift : op.family ≠ .shift) (x y : Quantity) :
    Settles (binary env resolve op pos (number x).operand (number y).operand)
      (Operates op (.number x) (.number y)) := by
  rw [binary_eq (family_eq_shift.not.1 hshift), commonType_numbers, pure_bind]
  cases hop : op.family with
  | arithmetic =>
    by_cases hk : max x.kind y.kind = .float
    · rw [hk]
      exact fractions_settles hop hk
    · exact integers_settles hop hk
  | shift => exact absurd hop hshift
  | comparison =>
    obtain ⟨v, hv, hholds⟩ := compareWith_numbers pos hop x y
    refine comparison_settles hop hv hholds fun k => ⟨fun h => ?_, ?_⟩
    · cases h with
      | numbers _ h => exact ⟨_, rfl, h⟩
      | integers _ _ _ h => cases hop.symm.trans (family_of_onIntegers h)
      | fractions _ h => cases hop.symm.trans (family_of_onFractions h)
      | shift _ _ _ h => cases hop.symm.trans (family_of_shifts h)
    · rintro ⟨w, rfl, hw⟩
      exact .numbers hop hw
  | logical =>
    refine .told (.nonBoolOperands op) pos rfl rfl (fun k h => ?_) ?_
    · cases h with
      | numbers h => cases hop.symm.trans h
      | integers _ _ _ h => cases hop.symm.trans (family_of_onIntegers h)
      | fractions _ h => cases hop.symm.trans (family_of_onFractions h)
      | shift _ _ _ h => cases hop.symm.trans (family_of_shifts h)
    · show combine env resolve op pos ⟨some x.constant, _⟩ ⟨some y.constant, _⟩ _ = _
      rcases x.constant_cases with ⟨-, m, -, hxc⟩ | ⟨-, hxc⟩ <;> rw [hxc] <;>
        rcases family_eq_logical.1 hop with rfl | rfl <;> rfl

theorem texts_settles (hshift : op.family ≠ .shift) (s t : List CodePoint) :
    Settles (binary env resolve op pos (text s).operand (text t).operand)
      (Operates op (.text s) (.text t)) := by
  have hcommon : commonType env resolve op pos (text s).operand (text t).operand =
      pure (.basic .untypedString) := rfl
  rw [binary_eq (family_eq_shift.not.1 hshift), hcommon, pure_bind]
  cases hop : op.family with
  | arithmetic =>
    rw [combine_arithmetic hop]
    by_cases hadd : op = .add
    · refine .unique (.concat hadd) (by rw [hadd]; rfl) fun k h => ?_
      cases h with
      | concat => rfl
      | texts h => cases hop.symm.trans h
    · refine .told (.stringOperands op) pos rfl rfl (fun k h => ?_) ?_
      · cases h with
        | concat h => exact hadd h
        | texts h => cases hop.symm.trans h
      · show lift (arith op (.str ⟨s⟩) (.str ⟨t⟩) _ pos) >>= _ = _
        rw [arith, if_neg hadd]
        rfl
  | shift => exact absurd hop hshift
  | comparison =>
    obtain ⟨v, hv, hholds⟩ := compareWith_texts pos hop s t
    refine comparison_settles hop hv hholds fun k => ⟨fun h => ?_, ?_⟩
    · cases h with
      | texts _ h => exact ⟨_, rfl, h⟩
      | concat h =>
        rw [h] at hop
        cases hop
    · rintro ⟨w, rfl, hw⟩
      exact .texts hop hw
  | logical =>
    refine .told (.nonBoolOperands op) pos rfl rfl (fun k h => ?_)
      (by rcases family_eq_logical.1 hop with rfl | rfl <;> rfl)
    cases h with
    | texts h => cases hop.symm.trans h
    | concat h =>
      rw [h] at hop
      cases hop

theorem truths_settles (hshift : op.family ≠ .shift) (a b : Bool) :
    Settles (binary env resolve op pos (truth a).operand (truth b).operand)
      (Operates op (.truth a) (.truth b)) := by
  have hcommon : commonType env resolve op pos (truth a).operand (truth b).operand =
      pure (.basic .untypedBool) := rfl
  rw [binary_eq (family_eq_shift.not.1 hshift), hcommon, pure_bind]
  cases hop : op.family with
  | arithmetic =>
    refine .told (.boolOperands op) pos rfl rfl (fun k h => ?_) (by rw [combine_arithmetic hop]; rfl)
    cases h with
    | truths h => rcases h with rfl | rfl <;> cases hop
    | and h | or h =>
      rw [h] at hop
      cases hop
  | shift => exact absurd hop hshift
  | comparison =>
    have hnot : op ≠ .and ∧ op ≠ .or := by
      constructor <;> rintro rfl <;> cases hop
    by_cases heq : op = .eq ∨ op = .ne
    · obtain ⟨v, hv, hholds⟩ := compareWith_truths pos heq a b
      refine comparison_settles hop hv hholds fun k => ⟨fun h => ?_, ?_⟩
      · cases h with
        | truths _ h => exact ⟨_, rfl, h⟩
        | and h => exact absurd h hnot.1
        | or h => exact absurd h hnot.2
      · rintro ⟨w, rfl, hw⟩
        exact .truths heq hw
    · refine .told (.unordered op) pos rfl rfl (fun k h => ?_) ?_
      · cases h with
        | truths h => exact heq h
        | and h => exact hnot.1 h
        | or h => exact hnot.2 h
      · rw [combine_comparison hop]
        cases op with
        | eq => exact absurd (.inl rfl) heq
        | ne => exact absurd (.inr rfl) heq
        | lt | le | gt | ge => rfl
        | _ => cases hop
  | logical =>
    rcases family_eq_logical.1 hop with rfl | rfl
    · refine .unique (.and rfl) rfl fun k h => ?_
      cases h with
      | and => rfl
      | truths h => rcases h with h | h <;> cases h
      | or h => cases h
    · refine .unique (.or rfl) rfl fun k h => ?_
      cases h with
      | or => rfl
      | truths h => rcases h with h | h <;> cases h
      | and h => cases h

theorem mixed_settles (hshift : op.family ≠ .shift) (hoperates : ∀ k, ¬ Operates op m n k)
    (hcommon : commonType env resolve op pos m.operand n.operand =
      problem (.mismatchedKinds op) pos) :
    Settles (binary env resolve op pos m.operand n.operand) (Operates op m n) := by
  refine .told (.mismatchedKinds op) pos rfl rfl hoperates ?_
  rw [binary_eq (family_eq_shift.not.1 hshift), hcommon]
  rfl

theorem binary_settles (op : BinaryOp) (m n : Meaning) :
    Settles (binary env resolve op pos m.operand n.operand) (Operates op m n) := by
  by_cases hop : op.family = .shift
  · rw [binary, if_pos (family_eq_shift.1 hop)]
    exact shift_settles hop m n
  cases m with
  | number x =>
    cases n with
    | number y => exact numbers_settles hop x y
    | text | truth =>
      refine mixed_settles hop (fun k h => by cases h) ?_
      rcases x with ⟨k, _, _⟩
      cases k <;> rfl
  | text s =>
    cases n with
    | text t => exact texts_settles hop s t
    | truth => exact mixed_settles hop (fun k h => by cases h) rfl
    | number y =>
      refine mixed_settles hop (fun k h => by cases h) ?_
      rcases y with ⟨k, _, _⟩
      cases k <;> rfl
  | truth a =>
    cases n with
    | truth b => exact truths_settles hop a b
    | text => exact mixed_settles hop (fun k h => by cases h) rfl
    | number y =>
      refine mixed_settles hop (fun k h => by cases h) ?_
      rcases y with ⟨k, _, _⟩
      cases k <;> rfl

/-! ## Expressions -/

theorem literal_cases {c : Constant} (himag : l.kind ≠ .imag) (hc : l.constant pos = .ok c) :
    (∃ n, c = .int n ∧ (l.kind = .int ∨ l.kind = .char)) ∨ (∃ q, c = .rat q ∧ l.kind = .float) ∨
      ∃ t, c = .str t ∧ (l.kind = .string ∨ l.kind = .rawString) := by
  have hc := Literal.represents_constant hc
  cases hkind : l.kind <;> rw [hkind] at hc himag <;> cases c <;>
    simp_all [Constant.Represents, LiteralKind.untyped, Kind.isInteger, Kind.isFloat,
      Kind.isComplex]

theorem literal_settles (h : (Expr.lit pos l).isPlain = true) :
    Settles (eval env resolve scope iota (.lit pos l)) (Expr.Denotes (.lit pos l)) := by
  obtain ⟨himag, hok⟩ : l.kind ≠ .imag ∧ (l.constant pos).isOk = true := by
    simpa [Expr.isPlain] using h
  obtain ⟨c, hc⟩ : ∃ c, l.constant pos = .ok c := by
    cases hl : l.constant pos with
    | ok c => exact ⟨c, rfl⟩
    | error => rw [hl] at hok; cases hok
  have hsettles {m : Meaning} (hm : m.operand = ⟨some c, .basic l.kind.untyped⟩)
      (hdenotes : l.Denotes pos m) (honly : ∀ m', l.Denotes pos m' → m' = m) :
      Settles (eval env resolve scope iota (.lit pos l)) (Expr.Denotes (.lit pos l)) := by
    refine .unique (.lit hdenotes) (by rw [eval, hc, hm]; rfl) fun m' h => ?_
    cases h with
    | lit h => exact honly m' h
  rcases literal_cases himag hc with ⟨n, rfl, hkind⟩ | ⟨q, rfl, hkind⟩ | ⟨t, rfl, hkind⟩
  · rcases hkind with hkind | hkind
    · refine hsettles (m := .number (.integer .int n)) (by rw [hkind]; rfl) (.int hkind hc rfl rfl)
        fun m' h => ?_
      cases h with
      | int _ hn hx hv =>
        cases hc.symm.trans hn
        exact congrArg number (Quantity.ext hx hv)
      | rune hk | float hk => cases hkind.symm.trans hk
      | text hk => rcases hk with hk | hk <;> cases hkind.symm.trans hk
    · refine hsettles (m := .number (.integer .rune n)) (by rw [hkind]; rfl)
        (.rune hkind hc rfl rfl) fun m' h => ?_
      cases h with
      | rune _ hn hx hv =>
        cases hc.symm.trans hn
        exact congrArg number (Quantity.ext hx hv)
      | int hk | float hk => cases hkind.symm.trans hk
      | text hk => rcases hk with hk | hk <;> cases hkind.symm.trans hk
  · refine hsettles (m := .number (.fraction q)) (by rw [hkind]; rfl) (.float hkind hc rfl rfl)
      fun m' h => ?_
    cases h with
    | float _ hq hx hv =>
      cases hc.symm.trans hq
      exact congrArg number (Quantity.ext hx hv)
    | int hk | rune hk => cases hkind.symm.trans hk
    | text hk => rcases hk with hk | hk <;> cases hkind.symm.trans hk
  · refine hsettles (by rcases hkind with hkind | hkind <;> rw [hkind] <;> rfl) (.text hkind hc)
      fun m' h => ?_
    cases h with
    | text _ ht =>
      cases hc.symm.trans ht
      rfl
    | int hk | rune hk | float hk =>
      rcases hkind with hkind | hkind <;> cases hkind.symm.trans hk

/-- An expression gives its meaning, or a problem where it has none. -/
theorem eval_settles (htrue : env.outline.symbols.get? "true" = none)
    (hfalse : env.outline.symbols.get? "false" = none) {e : Expr} (he : e.isPlain = true) :
    Settles (eval env resolve scope iota e) e.Denotes := by
  induction e with
  | lit pos l => exact literal_settles he
  | ident pos name =>
    obtain rfl | rfl : name = "true" ∨ name = "false" := by simpa [Expr.isPlain] using he
    · refine .unique (.true rfl) (by rw [eval, evalName, htrue]; rfl) fun m hm => ?_
      cases hm with
      | true => rfl
      | false h => exact absurd h (by decide)
    · refine .unique (.false rfl) (by rw [eval, evalName, hfalse]; rfl) fun m hm => ?_
      cases hm with
      | true h => exact absurd h (by decide)
      | false => rfl
  | unary pos op e ih =>
    rw [eval]
    rcases ih he with ⟨m, hm, heval⟩ | ⟨why, pos', hnone, hwhy, heval⟩
    · rw [heval, pure_bind]
      refine (unary_settles op m).congr fun k => ⟨fun hk => .unary ((hm m).2 rfl) hk, fun hk => ?_⟩
      cases hk with
      | unary he' hop => exact (hm _).1 he' ▸ hop
    · refine .problem why pos' (fun k hk => ?_) hwhy (by rw [heval]; rfl)
      cases hk with
      | unary he' => exact hnone _ he'
  | binary pos op e f ihe ihf =>
    obtain ⟨he, hf⟩ := Bool.and_eq_true_iff.1 he
    rw [eval]
    rcases ihe he with ⟨m, hm, heval⟩ | ⟨why, pos', hnone, hwhy, heval⟩
    · rw [heval, pure_bind]
      rcases ihf hf with ⟨n, hn, hevalf⟩ | ⟨why, pos', hnone, hwhy, hevalf⟩
      · rw [hevalf, pure_bind]
        refine (binary_settles op m n).congr fun k =>
          ⟨fun hk => .binary ((hm m).2 rfl) ((hn n).2 rfl) hk, fun hk => ?_⟩
        cases hk with
        | binary he' hf' hop => exact (hm _).1 he' ▸ (hn _).1 hf' ▸ hop
      · refine .problem why pos' (fun k hk => ?_) hwhy (by rw [hevalf]; rfl)
        cases hk with
        | binary _ hf' => exact hnone _ hf'
    · refine .problem why pos' (fun k hk => ?_) hwhy (by rw [heval]; rfl)
      cases hk with
      | binary he' => exact hnone _ he'
  | select | call => cases he

/-- The evaluator agrees with the exact semantics. In a package that gives the names of the truth
values no other meaning, it returns `m` exactly where the expression means `m`, and reports a
problem exactly where the expression means nothing; in neither case does it touch the store. The
problem has a text unless it is a fraction in place of an integer and too long to be written. -/
theorem eval_exact (env : Surroundings) (resolve : String → Resolving Unit) (scope : Scope)
    (iota : Option ℕ) (e : Expr) (S : Store) (he : e.isPlain = true)
    (htrue : env.outline.symbols.get? "true" = none)
    (hfalse : env.outline.symbols.get? "false" = none) : (∀ m : Meaning, e.Denotes m ↔
      (eval env resolve scope iota e).run.run S = (.ok m.operand, S)) ∧
    ((∀ m : Meaning, ¬ e.Denotes m) ↔ ∃ why pos,
      (eval env resolve scope iota e).run.run S = (.error (.problem why pos), S)) ∧
    ∀ why pos, (eval env resolve scope iota e).run.run S = (.error (.problem why pos), S) →
      ((∃ fault, why.message = .error fault) ↔ why.TooLong) := by
  have hsettles : Settles (eval env resolve scope iota e) e.Denotes := eval_settles htrue hfalse he
  rcases hsettles with ⟨m, hm, heval⟩ | ⟨why, pos, hnone, hwhy, heval⟩
  · have hrun : (eval env resolve scope iota e).run.run S = (.ok m.operand, S) := by
      rw [heval]
      rfl
    rw [hrun]
    refine ⟨fun m' => (hm m').trans ⟨?_, fun h => ?_⟩, ⟨fun h => ?_, ?_⟩, ?_⟩
    · rintro rfl
      rfl
    · exact (operand_injective (Except.ok.inj (Prod.mk.inj h).1)).symm
    · exact absurd ((hm m).2 rfl) (h m)
    · rintro ⟨_, _, h⟩
      cases h
    · rintro _ _ h
      cases h
  · have hrun : (eval env resolve scope iota e).run.run S = (.error (.problem why pos), S) := by
      rw [heval]
      rfl
    rw [hrun]
    refine ⟨fun m => ⟨fun h => absurd h (hnone m), fun h => by cases h⟩,
      ⟨fun _ => ⟨why, pos, rfl⟩, fun _ => hnone⟩, ?_⟩
    rintro _ _ h
    cases h
    exact hwhy

/-- `-7 / 2` is `-3`, and `1e-4300 << 1` is a problem without a text. -/
theorem eval_exact_quotient :
    (eval ⟨{ path := "p" }, {}, 0⟩ (fun _ => pure ()) ⟨none, {}⟩ none
      (.binary ⟨1, 1⟩ .div (.unary ⟨1, 1⟩ .minus (.lit ⟨1, 2⟩ ⟨.int, "7"⟩))
        (.lit ⟨1, 6⟩ ⟨.int, "2"⟩))).run.run ⟨{}, {}⟩ =
      (.ok (number (.integer .int (-3))).operand, ⟨{}, {}⟩) ∧
    ∃ why pos fault,
      (eval ⟨{ path := "p" }, {}, 0⟩ (fun _ => pure ()) ⟨none, {}⟩ none
        (.binary ⟨1, 1⟩ .shiftLeft (.lit ⟨1, 1⟩ ⟨.float, "1e-4300"⟩)
          (.lit ⟨1, 12⟩ ⟨.int, "1"⟩))).run.run ⟨{}, {}⟩ = (.error (.problem why pos), ⟨{}, {}⟩) ∧
      why.message = .error fault := by
  constructor
  · refine ((eval_exact _ _ _ _ _ _ rfl rfl rfl).1 _).1 (.binary (.unary (.lit (.int rfl rfl
      (x := .integer .int 7) rfl rfl)) (.minus (y := .integer .int (-7)) rfl ?_)) (.lit (.int rfl rfl
      (x := .integer .int 2) rfl rfl)) (.integers (by decide) rfl rfl ⟨-1, by decide⟩ rfl rfl))
    simp [Quantity.integer]
  · obtain ⟨q, hlit, hden, hne⟩ : ∃ q : ℚ,
        Literal.constant ⟨.float, "1e-4300"⟩ ⟨1, 1⟩ = .ok (.rat q) ∧
        10 ^ digitLimit ≤ q.den ∧ q.den ≠ 1 :=
      ⟨mkRat 1 (powTen 4300), rfl, by decide +kernel, by decide +kernel⟩
    have hrun : (eval ⟨{ path := "p" }, {}, 0⟩ (fun _ => pure ()) ⟨none, {}⟩ none
        (.binary ⟨1, 1⟩ .shiftLeft (.lit ⟨1, 1⟩ ⟨.float, "1e-4300"⟩)
          (.lit ⟨1, 12⟩ ⟨.int, "1"⟩))).run.run ⟨{}, {}⟩ =
        (.error (.problem (.truncatedToInteger (.rat q)) ⟨1, 1⟩), ⟨{}, {}⟩) := by
      have hwhole : wholeNumber (.rat q) ⟨1, 1⟩ =
          Constant.problem (.truncatedToInteger (.rat q)) ⟨1, 1⟩ := if_neg hne
      have hone : Literal.constant ⟨.int, "1"⟩ ⟨1, 12⟩ = .ok (.int 1) := rfl
      rw [eval, eval, eval, hlit, hone]
      show (shift .shiftLeft ⟨1, 1⟩ ⟨some (.rat q), .basic .untypedFloat⟩
        ⟨some (.int 1), .basic .untypedInt⟩).run.run _ = _
      simp only [shift, Constant.shift, hwhole]
      rfl
    obtain ⟨fault, hfault⟩ := ((eval_exact _ _ _ _ _ _ (by decide +kernel) rfl rfl).2.2 _ _ hrun).2
      ⟨q, rfl, .inr hden⟩
    exact ⟨_, _, _, hrun, hfault⟩

end Resolving

end DeclBridge
