import DeclBridge.Proofs.Reading

/-!
# Reading types of any depth

Types are read by `typeWithin`, which counts how deep they nest, and `typeExpr` begins the count at
the number of tokens.  That number is always enough: something is read before any type inside, so
that the types inside have fewer tokens left than there are levels.  Hence the count can be
forgotten, and reading satisfies the equation of the grammar (`typeExpr_eq`): a type is what
`typeOver` makes of the types inside it.

`Agree n p q` is what carries the argument: on at most `n` tokens, `p` reads what `q` does and
leaves no more tokens than it found.  It is kept by every way to build a reader, and a reader that
takes a token first gains one level by it (`Agree.after`).
-/

namespace DeclBridge.Reader

variable {α β : Type} {kind : TokenKind} {us ts : List Token} {n : Nat} {t : Token}
  {inner : Reader TypeExpr}

/-- On at most `n` tokens two readers do the same, and leave no more tokens than there were. -/
def Agree (n : Nat) (p q : Reader α) : Prop :=
  ∀ ts : List Token, ts.length ≤ n →
    p ts = q ts ∧ ∀ x rest, p ts = .ok (x, rest) → rest.length ≤ ts.length

/-- A reader that takes a token where it succeeds. -/
def Takes (p : Reader α) : Prop :=
  ∀ ts x rest, p ts = .ok (x, rest) → rest.length < ts.length

namespace Agree

variable {p p' q q' : Reader α} {f f' : α → Reader β}

protected theorem pure (x : α) : Agree n (pure x) (pure x) := fun ts _ => by
  refine ⟨rfl, fun _ _ h => ?_⟩
  cases h
  exact Nat.le_refl _

protected theorem fail : Agree n (fail : Reader α) fail := fun _ _ =>
  ⟨rfl, fun _ _ h => by cases h⟩

protected theorem bind (h : Agree n p p') (hf : ∀ x, Agree n (f x) (f' x)) :
    Agree n (p >>= f) (p' >>= f') := fun ts hts => by
  obtain ⟨heq, hle⟩ := h ts hts
  cases hp : p ts with
  | error left =>
    rw [bind_of_error hp, bind_of_error (heq ▸ hp)]
    exact ⟨rfl, fun _ _ h => by cases h⟩
  | ok r =>
    obtain ⟨x, mid⟩ := r
    have hmid := hle x mid hp
    rw [bind_of_ok hp, bind_of_ok (heq ▸ hp)]
    obtain ⟨heq', hle'⟩ := hf x mid (Nat.le_trans hmid hts)
    exact ⟨heq', fun y rest hy => Nat.le_trans (hle' y rest hy) hmid⟩

/-- What follows a token has one token less to agree on. -/
theorem after (hp : Takes p) (hf : ∀ x, Agree n (f x) (f' x)) :
    Agree (n + 1) (p >>= f) (p >>= f') := fun ts hts => by
  cases hr : p ts with
  | error left =>
    rw [bind_of_error hr, bind_of_error hr]
    exact ⟨rfl, fun _ _ h => by cases h⟩
  | ok r =>
    obtain ⟨x, mid⟩ := r
    have hmid := hp ts x mid hr
    rw [bind_of_ok hr, bind_of_ok hr]
    obtain ⟨heq, hle⟩ := hf x mid (by omega)
    exact ⟨heq, fun y rest hy => Nat.le_trans (hle y rest hy) (Nat.le_of_lt hmid)⟩

protected theorem ite {c : Bool} (h : Agree n p p') (h' : Agree n q q') :
    Agree n (if c then p else q) (if c then p' else q') := by
  cases c
  · exact h'
  · exact h

protected theorem either (hp : Agree n p p') (hq : Agree n q q') :
    Agree n (either p q) (either p' q') := fun ts hts => by
  obtain ⟨hpeq, hple⟩ := hp ts hts
  obtain ⟨hqeq, hqle⟩ := hq ts hts
  refine ⟨by rw [either, either, hpeq, hqeq], fun x rest h => ?_⟩
  unfold either at h
  split at h
  · rename_i r hr
    cases h
    exact hple _ _ hr
  · split at h
    · rename_i y rest' hr
      split at h
      · cases h
      · cases h
        exact hqle _ _ hr
    · cases h

/-- Where the number of tokens bounds a loop, both loops have the same bound. -/
theorem counted {loop loop' : Nat → Reader α} (h : ∀ count, Agree n (loop count) (loop' count))
    (c : List Token → Nat) : Agree n (fun ts => loop (c ts) ts) (fun ts => loop' (c ts) ts) :=
  fun ts hts => h (c ts) ts hts

end Agree

/-! ## Single tokens -/

section

theorem token_of_kind (h : t.kind = kind) : token kind (t :: ts) = .ok (t, ts) := by
  rw [token, if_pos h]

theorem mark_of_kind {m : Mark} (h : t.kind = .mark m) : mark m (t :: ts) = .ok ((), ts) := by
  rw [mark, bind_of_ok (token_of_kind h)]
  rfl

theorem name_of_kind (h : t.kind = .name) : name (t :: ts) = .ok (t.text, ts) := by
  rw [name, bind_of_ok (token_of_kind h)]
  rfl

theorem skipIf_of_kind (h : t.kind = kind) : skipIf kind (t :: ts) = .ok (true, ts) := by
  rw [skipIf, if_pos h]

theorem skipIf_of_ne (h : t.kind ≠ kind) : skipIf kind (t :: ts) = .ok (false, t :: ts) := by
  rw [skipIf, if_neg h]

/-- What follows depends on the next token only through its kind. -/
theorem nextKind_bind {f : Option TokenKind → Reader α} :
    (nextKind >>= f) (t :: ts) = f (some t.kind) (t :: ts) := rfl

end

section

theorem token_takes (kind : TokenKind) : Takes (token kind) := fun ts x rest h => by
  cases ts with
  | nil => cases h
  | cons t ts =>
    simp only [token] at h
    split at h
    · cases h
      exact Nat.lt_succ_self _
    · cases h

theorem Takes.agree {p : Reader α} (h : Takes p) : Agree n p p := fun ts _ =>
  ⟨rfl, fun x rest hr => Nat.le_of_lt (h ts x rest hr)⟩

theorem Takes.bind {p : Reader α} {f : α → Reader β} (h : Takes p)
    (hf : ∀ x n, Agree n (f x) (f x)) : Takes (p >>= f) := fun ts y rest hr => by
  obtain ⟨x, mid, hx, hy⟩ := bind_eq_ok hr
  exact Nat.lt_of_le_of_lt ((hf x mid.length mid (Nat.le_refl _)).2 y rest hy) (h ts x mid hx)

theorem mark_takes (m : Mark) : Takes (mark m) := (token_takes _).bind fun _ _ => .pure _

theorem keyword_takes (k : Keyword) : Takes (keyword k) := (token_takes _).bind fun _ _ => .pure _

theorem name_takes : Takes name := (token_takes _).bind fun _ _ => .pure _

theorem position_agree : Agree n position position := fun _ _ =>
  ⟨rfl, fun _ _ h => by cases h; exact Nat.le_refl _⟩

theorem nextKind_agree : Agree n nextKind nextKind := fun _ _ =>
  ⟨rfl, fun _ _ h => by cases h; exact Nat.le_refl _⟩

theorem nextSatisfies_agree (c : TokenKind → Bool) : Agree n (nextSatisfies c) (nextSatisfies c) :=
  nextKind_agree.bind fun _ => .pure _

theorem agree_of_stays {p : Reader α}
    (h : ∀ k, Stays (fun us : List Token => us.length ≤ k) p) : Agree n p p := fun ts _ =>
  ⟨rfl, fun x rest => (h ts.length).ok ts x rest (Nat.le_refl _)⟩

theorem drops_length (k : Nat) (kind : TokenKind) :
    Drops (fun us => us.length ≤ k) (fun us => us.length ≤ k) kind :=
  fun _ _ _ h => Nat.le_of_succ_le h

theorem skipIf_agree (kind : TokenKind) : Agree n (skipIf kind) (skipIf kind) :=
  agree_of_stays fun k => .skipIf (drops_length k kind)

theorem takeIf_agree (g : Token → Option α) : Agree n (takeIf g) (takeIf g) :=
  agree_of_stays fun k => .takeIf fun t _ _ => drops_length k t.kind

/-! ## Repetition -/

variable {item item' : Reader α}

theorem separatedFrom_agree (h : Agree n item item') (count : Nat) :
    Agree n (separatedFrom item count) (separatedFrom item' count) := by
  induction count with
  | zero => exact h.bind fun _ => .pure _
  | succ count ih =>
    exact h.bind fun x => (skipIf_agree _).bind fun _ => .ite (ih.bind fun _ => .pure _) (.pure _)

theorem separated_agree (h : Agree n item item') : Agree n (separated item) (separated item') :=
  .counted (separatedFrom_agree h) _

theorem closedFrom_agree (h : Agree n item item') (close : Mark) (count : Nat) :
    Agree n (closedFrom item close count) (closedFrom item' close count) := by
  induction count with
  | zero => exact .fail
  | succ count ih =>
    exact h.bind fun x => (skipIf_agree _).bind fun _ => .ite
      ((skipIf_agree _).bind fun _ => .ite (.pure _) (ih.bind fun _ => .pure _))
      ((mark_takes close).agree.bind fun _ => .pure _)

theorem closed_agree (h : Agree n item item') (close : Mark) :
    Agree n (closed item close) (closed item' close) :=
  .counted (closedFrom_agree h close) _

theorem linesFrom_agree (h : Agree n item item') (close : Mark) (count : Nat) :
    Agree n (linesFrom item close count) (linesFrom item' close count) := by
  induction count with
  | zero => exact .fail
  | succ count ih =>
    exact (skipIf_agree _).bind fun _ => .ite (.pure _) <| h.bind fun x =>
      (skipIf_agree _).bind fun _ => .ite (ih.bind fun _ => .pure _)
        ((mark_takes close).agree.bind fun _ => .pure _)

theorem lines_agree (h : Agree n item item') (close : Mark) :
    Agree n (lines item close) (lines item' close) :=
  .counted (linesFrom_agree h close) _

/-! ## Types -/

theorem expr_agree : Agree n expr expr := fun ts _ => by
  refine ⟨rfl, fun x rest h => ?_⟩
  obtain ⟨taken, rfl, -⟩ := taken_expr.ok ts x rest ⟨[], rfl, by simp⟩ h
  simp

theorem qualifiedName_takes : Takes qualifiedName :=
  name_takes.bind fun _ _ => (skipIf_agree _).bind fun _ => .ite
    (name_takes.agree.bind fun _ => .pure _) (.pure _)

theorem tag_agree : Agree n tag tag := takeIf_agree _

section

variable {inner' : Reader TypeExpr} (h : Agree n inner inner')

include h

theorem typeArgs_agree : Agree n (typeArgs inner) (typeArgs inner') :=
  (skipIf_agree _).bind fun _ => .ite (closed_agree h _) (.pure _)

theorem variadicType_agree : Agree n (variadicType inner) (variadicType inner') :=
  (skipIf_agree _).bind fun _ => h.bind fun _ => .pure _

theorem parameters_agree : Agree n (parameters inner) (parameters inner') :=
  (mark_takes _).agree.bind fun _ => (skipIf_agree _).bind fun _ => .ite (.pure _) <|
    (closed_agree (.either (name_takes.agree.bind fun _ => variadicType_agree h)
      (variadicType_agree h)) _).bind fun _ => .pure _

theorem results_agree : Agree n (results inner) (results inner') :=
  (nextSatisfies_agree _).bind fun _ => .ite ((parameters_agree h).bind fun _ => .pure _) <|
    (nextSatisfies_agree _).bind fun _ => .ite (h.bind fun _ => .pure _) (.pure _)

theorem signature_agree (pos : Position) : Agree n (signature inner pos) (signature inner' pos) :=
  (parameters_agree h).bind fun _ => (results_agree h).bind fun _ => .pure _

theorem structLine_agree : Agree n (structLine inner) (structLine inner') :=
  position_agree.bind fun _ => .either
    ((separated_agree name_takes.agree).bind fun _ => h.bind fun _ =>
      tag_agree.bind fun _ => .pure _)
    ((skipIf_agree _).bind fun _ => position_agree.bind fun _ =>
      qualifiedName_takes.agree.bind fun _ => (typeArgs_agree h).bind fun _ =>
        tag_agree.bind fun _ => .pure _)

theorem unionTerms_agree (count : Nat) :
    Agree n (unionTerms inner count) (unionTerms inner' count) := by
  have hterm : Agree n (unionTerm inner) (unionTerm inner') :=
    (skipIf_agree _).bind fun _ => h.bind fun _ => .pure _
  induction count with
  | zero => exact hterm.bind fun _ => .pure _
  | succ count ih =>
    exact hterm.bind fun _ => (skipIf_agree _).bind fun _ =>
      .ite (ih.bind fun _ => .pure _) (.pure _)

theorem constraint_agree : Agree n (constraint inner) (constraint inner') := by
  refine position_agree.bind fun _ => (Agree.counted (unionTerms_agree h) _).bind fun terms => ?_
  split
  · exact .pure _
  · exact .pure _

theorem interfaceLine_agree : Agree n (interfaceLine inner) (interfaceLine inner') :=
  .either
    (position_agree.bind fun _ => name_takes.agree.bind fun _ =>
      (signature_agree h _).bind fun _ => .pure _)
    ((constraint_agree h).bind fun _ => .pure _)

/-- A type is read alike, one level deeper, where the types inside are. -/
theorem typeOver_agree : Agree (n + 1) (typeOver inner) (typeOver inner') := by
  refine nextKind_agree.bind fun kind => ?_
  split
  · exact position_agree.bind fun _ => .after qualifiedName_takes fun _ =>
      (typeArgs_agree h).bind fun _ => .pure _
  · exact .after (mark_takes _) fun _ => h.bind fun _ => (mark_takes _).agree.bind fun _ => .pure _
  · exact position_agree.bind fun _ => .after (mark_takes _) fun _ => h.bind fun _ => .pure _
  · exact position_agree.bind fun _ => .after (mark_takes _) fun _ =>
      (skipIf_agree _).bind fun _ => .ite (h.bind fun _ => .pure _) <|
        expr_agree.bind fun _ => (mark_takes _).agree.bind fun _ => h.bind fun _ => .pure _
  · exact position_agree.bind fun _ => .after (mark_takes _) fun _ =>
      (keyword_takes _).agree.bind fun _ => h.bind fun _ => .pure _
  · exact position_agree.bind fun _ => .after (keyword_takes _) fun _ =>
      (mark_takes _).agree.bind fun _ => h.bind fun _ => (mark_takes _).agree.bind fun _ =>
        h.bind fun _ => .pure _
  · exact position_agree.bind fun _ => .after (keyword_takes _) fun _ =>
      .either (h.bind fun _ => .pure _)
        ((mark_takes _).agree.bind fun _ => h.bind fun _ => .pure _)
  · exact position_agree.bind fun _ => .after (keyword_takes _) fun _ => signature_agree h _
  · exact position_agree.bind fun _ => .after (keyword_takes _) fun _ =>
      (mark_takes _).agree.bind fun _ => (lines_agree (structLine_agree h) _).bind fun _ => .pure _
  · exact position_agree.bind fun _ => .after (keyword_takes _) fun _ =>
      (mark_takes _).agree.bind fun _ =>
        (lines_agree (interfaceLine_agree h) _).bind fun _ => .pure _
  · exact .fail

end

/-- Levels beyond the number of tokens make no difference. -/
theorem typeWithin_agree {depth : Nat} (h : n ≤ depth) :
    Agree n (typeWithin n) (typeWithin depth) := by
  induction n generalizing depth with
  | zero =>
    intro ts hts
    obtain rfl := List.eq_nil_of_length_eq_zero (Nat.le_zero.1 hts)
    cases depth with
    | zero => exact Agree.fail [] (Nat.le_refl _)
    | succ depth => exact ⟨rfl, fun _ _ h => by cases h⟩
  | succ n ih =>
    obtain ⟨depth, rfl⟩ := Nat.exists_eq_add_one_of_ne_zero (n := depth) (by omega)
    exact typeOver_agree (ih (by omega))

theorem typeWithin_agree_typeExpr : Agree n (typeWithin n) typeExpr := fun ts hts => by
  obtain ⟨heq, hle⟩ := typeWithin_agree hts ts (Nat.le_refl _)
  exact ⟨heq.symm, fun x rest h => hle x rest (heq.trans h)⟩

/-- A type is read as the grammar says, with types of any depth inside. -/
theorem typeExpr_eq (ts : List Token) : typeExpr ts = typeOver typeExpr ts := by
  cases ts with
  | nil => rfl
  | cons t ts =>
    exact (typeOver_agree typeWithin_agree_typeExpr (t :: ts) (Nat.le_refl _)).1

theorem typeExpr_agree : Agree n typeExpr typeExpr := fun ts _ =>
  ⟨rfl, (typeWithin_agree (Nat.le_refl ts.length) ts (Nat.le_refl _)).2⟩

end

/-! ## Types by their first token -/

section

/-- Nothing but the first token of a type can be read as a type. -/
theorem typeOver_of_head
    (h : ∀ k ∈ ts.head?.map Token.kind, beginsType k = false ∧ k ≠ .mark .lpar) :
    typeOver inner ts = .error ts := by
  cases ts with
  | nil => rfl
  | cons t ts =>
    obtain ⟨hk, hlpar⟩ := h t.kind rfl
    rw [typeOver, nextKind_bind]
    refine congrFun (?_ : _ = fail) _
    split
    case h_11 => rfl
    case h_2 ht => exact absurd (Option.some.inj ht) hlpar
    all_goals
      rename_i ht
      rw [Option.some.inj ht] at hk
      cases hk

theorem typeOver_name (h : t.kind = .name) : typeOver inner (t :: ts) = typeName inner (t :: ts) := by
  rw [typeOver, nextKind_bind, h]

/-- No token but the first one of a type begins a type. -/
theorem typeExpr_of_head (h : ∀ k ∈ ts.head?.map Token.kind, beginsType k = false ∧ k ≠ .mark .lpar) :
    typeExpr ts = .error ts := (typeExpr_eq ts).trans (typeOver_of_head h)

theorem typeName_of_ok {n : Token}
    {r : Option String × String} (hread : qualifiedName (n :: ts) = .ok (r, t :: us))
    (ht : t.kind ≠ .mark .lsqb) :
    typeName inner (n :: ts) = .ok (.ref n.pos r.1 r.2 [], t :: us) := by
  have hargs : typeArgs inner (t :: us) = .ok ([], t :: us) := bind_of_ok (skipIf_of_ne ht)
  have hname : typeName inner (n :: ts) =
      (qualifiedName >>= fun r => typeArgs inner >>= fun args => pure (.ref n.pos r.1 r.2 args))
        (n :: ts) := rfl
  rw [hname, bind_of_ok hread, bind_of_ok hargs]
  rfl

end

end DeclBridge.Reader
