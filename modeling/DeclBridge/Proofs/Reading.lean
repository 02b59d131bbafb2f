import DeclBridge.Source.Reader.TypeExpr

/-!
# What readers take and leave

A reader is built from steps that take at most one token.  `Leaves A P p` says which tokens a reader
`p` leaves, by a rule for each way to build one: from tokens in `A` it leaves tokens in `P`, and where
it fails the tokens that are left are still in `A`.

There are no brackets and no reserved words in an expression (`taken_expr`).
-/

namespace DeclBridge.Reader

variable {α β : Type} {ts body : List Token} {op? : TokenKind → Option BinaryOp} {kind : TokenKind}
  {A P : List Token → Prop} {p : Reader α} {f : α → Reader β}

theorem bind_eq_ok {rest : List Token} {y : β} (h : (p >>= f) ts = .ok (y, rest)) :
    ∃ x mid, p ts = .ok (x, mid) ∧ f x mid = .ok (y, rest) := by
  cases hp : p ts with
  | error e =>
    simp only [bind, StateT.bind, hp, Except.bind] at h
    cases h
  | ok r =>
    simp only [bind, StateT.bind, hp, Except.bind] at h
    exact ⟨r.1, r.2, rfl, h⟩

theorem bind_of_ok {mid : List Token} {x : α}
    (h : p ts = .ok (x, mid)) : (p >>= f) ts = f x mid := by
  simp only [bind, StateT.bind, h, Except.bind]

theorem bind_of_error {left : List Token}
    (h : p ts = .error left) : (p >>= f) ts = .error left := by
  simp only [bind, StateT.bind, h, Except.bind]

/-! ## What readers leave -/

/-- From tokens in `A` a reader leaves tokens in `P` where it succeeds, and fails at tokens in `A`. -/
structure Leaves (A P : List Token → Prop) (p : Reader α) : Prop where
  ok : ∀ ts x rest, A ts → p ts = .ok (x, rest) → P rest
  error : ∀ ts left, A ts → p ts = .error left → A left

/-- A reader that stays among the tokens in `A`. -/
abbrev Stays (A : List Token → Prop) (p : Reader α) : Prop := Leaves A A p

/-- Tokens in `A` that begin with a given kind are in `P` without their first one. -/
def Drops (A P : List Token → Prop) (kind : TokenKind) : Prop :=
  ∀ t us, t.kind = kind → A (t :: us) → P us

namespace Leaves

protected theorem pure (x : α) : Stays A (pure x) :=
  ⟨fun _ _ _ h heq => by cases heq; exact h, fun _ _ _ heq => by cases heq⟩

theorem position : Stays A position :=
  ⟨fun _ _ _ h heq => by cases heq; exact h, fun _ _ _ heq => by cases heq⟩

theorem fail : Leaves A P (fail : Reader α) :=
  ⟨fun _ _ _ _ heq => (by cases heq), fun _ _ h heq => by cases heq; exact h⟩

protected theorem bind (hp : Stays A p) (hf : ∀ x, Leaves A P (f x)) : Leaves A P (p >>= f) where
  ok ts y rest h heq := by
    obtain ⟨x, mid, hx, hy⟩ := bind_eq_ok heq
    exact (hf x).ok mid y rest (hp.ok ts x mid h hx) hy
  error ts left h heq := by
    cases hx : p ts with
    | error left' =>
      rw [bind_of_error hx] at heq
      cases heq
      exact hp.error ts _ h hx
    | ok r =>
      rw [bind_of_ok hx] at heq
      exact (hf r.1).error r.2 left (hp.ok ts r.1 r.2 h hx) heq

protected theorem map (g : α → β) (hp : Leaves A P p) : Leaves A P (p >>= fun x => pure (g x)) where
  ok ts y rest h heq := by
    obtain ⟨x, mid, hx, hy⟩ := bind_eq_ok heq
    cases hy
    exact hp.ok ts x _ h hx
  error ts left h heq := by
    cases hx : p ts with
    | error left' =>
      rw [bind_of_error hx] at heq
      cases heq
      exact hp.error ts _ h hx
    | ok r =>
      rw [bind_of_ok hx] at heq
      cases heq

theorem counted {loop : Nat → Reader α} (h : ∀ count, Leaves A P (loop count)) :
    Leaves A P fun ts => loop ts.length ts :=
  ⟨fun ts => (h ts.length).ok ts, fun ts => (h ts.length).error ts⟩

/-- What is read may depend on the tokens that are there. -/
theorem of_tokens (h : ∀ ts, A ts → ∃ q : Reader α, Leaves A P q ∧ p ts = q ts) : Leaves A P p := by
  refine ⟨fun ts x rest hts heq => ?_, fun ts left hts heq => ?_⟩
  all_goals
    obtain ⟨q, hq, hform⟩ := h ts hts
    rw [hform] at heq
  · exact hq.ok ts x rest hts heq
  · exact hq.error ts left hts heq

theorem token (h : Drops A P kind) : Leaves A P (token kind) := by
  constructor <;> intro ts <;> cases ts <;> grind [Reader.token, Drops]

theorem mark {m : Mark} (h : Drops A P (.mark m)) : Leaves A P (mark m) := (token h).map _

theorem name (h : Drops A P .name) : Leaves A P name := (token h).map _

theorem skipIf (h : Drops A A kind) : Stays A (skipIf kind) := by
  constructor <;> intro ts <;> cases ts <;> grind [Reader.skipIf, Drops]

theorem takeIf {g : Token → Option α} (h : ∀ t x, g t = some x → Drops A A t.kind) :
    Stays A (takeIf g) := by
  constructor <;> intro ts <;> cases ts <;> grind [Reader.takeIf, Drops]

end Leaves

/-! ## Expressions -/

/-- Tokens other than brackets and reserved words. -/
def isPlain : TokenKind → Bool
  | .mark .lsqb | .mark .rsqb | .keyword _ => false
  | _ => true

/-- What is left of `body` after plain tokens were taken. -/
def Taken (body rest : List Token) : Prop :=
  ∃ taken, body = taken ++ rest ∧ ∀ t ∈ taken, isPlain t.kind = true

theorem Taken.drops (h : isPlain kind = true) : Drops (Taken body) (Taken body) kind := by
  rintro t us rfl ⟨taken, rfl, htaken⟩
  exact ⟨taken ++ [t], by simp, by simpa [or_imp, forall_and, h] using htaken⟩

section

variable {inner : Reader Expr} (hinner : Stays (Taken body) inner)

include hinner

theorem taken_operand : Stays (Taken body) (operand inner) := by
  refine .bind .position fun pos => .bind (.takeIf fun t x h => Taken.drops ?_) fun l => ?_
  · obtain ⟨k, hk, -⟩ := Option.map_eq_some_iff.1 h
    unfold literalKind? at hk
    split at hk <;> cases hk <;> simp [isPlain, *]
  · split
    · exact .pure _
    · refine .bind (.skipIf (Taken.drops rfl)) fun paren => ?_
      split
      · exact hinner.bind fun _ => (Leaves.mark (Taken.drops rfl)).map _
      · exact (Leaves.name (Taken.drops rfl)).map _

theorem taken_selections (pos : Position) (count : Nat) (x : Expr) :
    Stays (Taken body) (selections inner pos count x) := by
  induction count generalizing x with
  | zero => exact .pure _
  | succ count ih =>
    refine .bind (.skipIf (Taken.drops rfl)) fun dot => ?_
    split
    · exact .bind (.name (Taken.drops rfl)) fun _ => ih _
    · refine .bind (.skipIf (Taken.drops rfl)) fun paren => ?_
      split
      · exact hinner.bind fun _ => .bind (.skipIf (Taken.drops rfl)) fun _ =>
          .bind (.mark (Taken.drops rfl)) fun _ => ih _
      · exact .pure _

theorem taken_unary : Stays (Taken body) (unary inner) := by
  have hprimary : Stays (Taken body) (primary inner) := .bind .position fun pos =>
    (taken_operand hinner).bind fun x => .counted fun count => taken_selections hinner pos count x
  refine .counted fun count => ?_
  induction count with
  | zero => exact hprimary
  | succ count ih =>
    refine .bind .position fun pos => .bind (.takeIf fun t x h => Taken.drops ?_) fun op => ?_
    · unfold unaryOp? at h
      split at h <;> cases h <;> simp [isPlain, *]
    · split
      · exact ih.map _
      · exact hprimary

theorem taken_chain (hop : ∀ k op, op? k = some op → isPlain k = true) :
    Stays (Taken body) (chain op? inner) := by
  have hfrom (pos : Position) (count : Nat) (x : Expr) :
      Stays (Taken body) (chainFrom op? inner pos count x) := by
    induction count generalizing x with
    | zero => exact .pure _
    | succ count ih =>
      refine .bind (.takeIf fun t x h => Taken.drops (hop t.kind x h)) fun op => ?_
      split
      · exact hinner.bind fun _ => ih _
      · exact .pure _
  exact .bind .position fun pos => hinner.bind fun x => .counted fun count => hfrom pos count x

end

/-- Reading an expression takes no square bracket and no reserved word. -/
theorem taken_expr : Stays (Taken body) expr := by
  refine .counted fun depth => ?_
  induction depth with
  | zero => exact .fail
  | succ depth ih =>
    refine taken_chain (taken_chain (taken_chain (taken_chain (taken_chain (taken_unary ih)
      ?_) ?_) ?_) ?_) ?_
    all_goals
      intro k op h
      simp only [orOp?, andOp?, relationOp?, sumOp?, productOp?] at h
      split at h <;> cases h <;> rfl

end DeclBridge.Reader
