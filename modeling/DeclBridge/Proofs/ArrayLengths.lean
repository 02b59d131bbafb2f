import DeclBridge.Proofs.ReadingDepth
import DeclBridge.Source.Reader.File

/-!
# Array lengths after the name of a type

The bracket after the name of a declared type may hold the length of an array or type parameters, and
where it can be read as type parameters it is (`Reader.typeSpec_array`).

Both readings end at the same bracket: an expression has no brackets and no reserved words, and
without these no reader of types comes past the bracket that closes (`stays_typeParamDecl`).
-/

namespace DeclBridge.Reader

variable {α : Type} {n t bracket close : Token} {ts us body more rest : List Token} {e : Expr}
  {type elem : TypeExpr} {op? : TokenKind → Option BinaryOp} {kind : TokenKind} {next : Reader Expr}

theorem chain_of_error {left : List Token} (h : next ts = .error left) :
    chain op? next ts = .error left := by
  rw [chain, bind_of_ok rfl, bind_of_error h]

theorem expr_of_rsqb (ht : t.kind = .mark .rsqb) : expr (t :: us) = .error (t :: us) := by
  have hunary : unary (exprWithin us.length) (t :: us) = .error (t :: us) := by
    simp [unary, unaryFrom, primary, operand, position, takeIf, unaryOp?, literal?, literalKind?,
      skipIf, name, token, bind, StateT.bind, Except.bind, ht]
  exact chain_of_error (chain_of_error (chain_of_error (chain_of_error (chain_of_error hunary))))

/-! ## Types before a bracket -/

/-- Plain tokens up to a closing bracket, with `more` behind it. -/
def Ahead (more ts : List Token) : Prop :=
  ∃ plain close, ts = plain ++ close :: more ∧ close.kind = .mark .rsqb ∧
    ∀ t ∈ plain, isPlain t.kind = true

theorem ahead_cons (h : Ahead more (t :: us)) :
    t.kind = .mark .rsqb ∧ us = more ∨ isPlain t.kind = true ∧ Ahead more us := by
  obtain ⟨plain, close, heq, hclose, hplain⟩ := h
  cases plain with
  | nil =>
    cases heq
    exact .inl ⟨hclose, rfl⟩
  | cons t plain =>
    cases heq
    rw [List.forall_mem_cons] at hplain
    exact .inr ⟨hplain.1, plain, close, rfl, hclose, hplain.2⟩

theorem Ahead.exists_cons (h : Ahead more ts) : ∃ t us, ts = t :: us := by
  obtain ⟨plain, close, rfl, -⟩ := h
  cases plain <;> exact ⟨_, _, rfl⟩

theorem Ahead.drops (hkind : kind ≠ .mark .rsqb) : Drops (Ahead more) (Ahead more) kind := by
  rintro t us rfl h
  exact (ahead_cons h).elim (fun h => absurd h.1 hkind) (·.2)

theorem Ahead.drops_rsqb : Drops (Ahead more) (· = more) (.mark .rsqb) := by
  intro t us ht h
  refine (ahead_cons h).elim (·.2) fun h => ?_
  rw [ht] at h
  cases h.1

theorem stays_typeName {inner : Reader TypeExpr} : Stays (Ahead more) (typeName inner) := by
  have hname : Stays (Ahead more) name := .name (Ahead.drops (by decide))
  have hqualified : Stays (Ahead more) qualifiedName := by
    refine hname.bind fun first => .bind (.skipIf (Ahead.drops (by decide))) fun dot => ?_
    split
    · exact hname.map _
    · exact .pure _
  -- there is no bracket to begin type arguments with
  have hargs : Stays (Ahead more) (typeArgs inner) := by
    refine .of_tokens fun ts h => ⟨_, .pure [], ?_⟩
    obtain ⟨t, us, rfl⟩ := h.exists_cons
    refine bind_of_ok (skipIf_of_ne fun ht => ?_)
    have hkind := ahead_cons h
    rw [ht] at hkind
    rcases hkind with h | h <;> cases h.1
  exact .bind .position fun pos => hqualified.bind fun r => hargs.map _

theorem stays_typeOver {inner : Reader TypeExpr} (hinner : Stays (Ahead more) inner) :
    Stays (Ahead more) (typeOver inner) := by
  refine .of_tokens fun ts h => ?_
  obtain ⟨t, us, rfl⟩ := h.exists_cons
  refine ⟨_, ?_, nextKind_bind⟩
  split
  case h_1 => exact stays_typeName
  case h_2 =>
    exact .bind (.mark (Ahead.drops (by decide))) fun _ => hinner.bind fun _ =>
      (Leaves.mark (Ahead.drops (by decide))).map _
  case h_3 =>
    exact .bind .position fun _ => .bind (.mark (Ahead.drops (by decide))) fun _ => hinner.map _
  case h_5 =>
    exact .bind .position fun _ => .bind (.mark (Ahead.drops (by decide))) fun _ =>
      .bind ((Leaves.token (Ahead.drops (by decide))).map _) fun _ => hinner.map _
  case h_11 => exact .fail
  all_goals
    rename_i ht
    have hkind := ahead_cons h
    rw [Option.some.inj ht] at hkind
    rcases hkind with h | h <;> cases h.1

theorem stays_typeExpr : Stays (Ahead more) typeExpr := by
  refine .counted fun depth => ?_
  induction depth with
  | zero => exact .fail
  | succ depth ih => exact stays_typeOver ih

theorem stays_typeParamDecl : Stays (Ahead more) typeParamDecl := by
  have hname : Stays (Ahead more) name := .name (Ahead.drops (by decide))
  have hnames (count : Nat) : Stays (Ahead more) (separatedFrom name count) := by
    induction count with
    | zero => exact hname.map _
    | succ count ih =>
      refine hname.bind fun _ => .bind (.skipIf (Ahead.drops (by decide))) fun comma => ?_
      split
      · exact ih.map _
      · exact .pure _
  have hterm : Stays (Ahead more) (unionTerm typeExpr) :=
    .bind (.skipIf (Ahead.drops (by decide))) fun _ => stays_typeExpr.map _
  have hterms (count : Nat) : Stays (Ahead more) (unionTerms typeExpr count) := by
    induction count with
    | zero => exact hterm.map _
    | succ count ih =>
      refine hterm.bind fun _ => .bind (.skipIf (Ahead.drops (by decide))) fun bar => ?_
      split
      · exact ih.map _
      · exact .pure _
  refine .bind (.counted hnames) fun names => .map _ ?_
  refine .bind .position fun pos => .bind (.counted hterms) fun terms => ?_
  split <;> exact .pure _

/-- Items with the bracket that closes them are read to the bracket, or reading them fails before. -/
theorem leaves_closedFrom {item : Reader α} (hitem : Stays (Ahead more) item) (count : Nat) :
    Leaves (Ahead more) (· = more) (closedFrom item .rsqb count) := by
  induction count with
  | zero => exact .fail
  | succ count ih =>
    have hclose (x : α) : Leaves (Ahead more) (· = more) (mark .rsqb >>= fun _ => pure [x]) :=
      (Leaves.mark Ahead.drops_rsqb).map _
    refine hitem.bind fun x => .bind (.skipIf (Ahead.drops (by decide))) fun comma => ?_
    split
    · refine .of_tokens fun ts h => ?_
      obtain ⟨t, us, rfl⟩ := h.exists_cons
      by_cases ht : t.kind = .mark .rsqb
      · refine ⟨_, hclose x, ?_⟩
        rw [bind_of_ok (skipIf_of_kind ht), bind_of_ok (mark_of_kind ht)]
        rfl
      · exact ⟨_, ih.map (x :: ·), bind_of_ok (skipIf_of_ne ht)⟩
    · exact hclose x

/-! ## Declarations -/

theorem typeBody_of_type (pos : Position) (name : String) (params : List TypeParamDecl)
    (htype : typeExpr ts = .ok (type, rest)) :
    typeBody pos name params ts = .ok (⟨pos, name, params, type, false⟩, rest) := by
  have hequal : skipIf (.mark .equal) ts = .ok (false, ts) := by
    cases ts with
    | nil => rfl
    | cons t ts =>
      refine skipIf_of_ne fun ht => ?_
      rw [typeExpr_of_head (by simp [ht, beginsType])] at htype
      cases htype
  rw [typeBody, bind_of_ok hequal, bind_of_ok htype]
  rfl

theorem typeExpr_array (hbracket : bracket.kind = .mark .lsqb)
    (he : expr body = .ok (e, close :: more)) (hclose : close.kind = .mark .rsqb)
    (helem : typeExpr more = .ok (elem, rest)) :
    typeExpr (bracket :: body) = .ok (.array bracket.pos e elem, rest) := by
  have hslice : skipIf (.mark .rsqb) body = .ok (false, body) := by
    cases body with
    | nil => rfl
    | cons t us =>
      refine skipIf_of_ne fun ht => ?_
      rw [expr_of_rsqb ht] at he
      cases he
  rw [typeExpr_eq, typeOver, nextKind_bind, hbracket]
  show arrayOrSlice typeExpr _ = _
  rw [arrayOrSlice, bind_of_ok rfl, bind_of_ok (mark_of_kind hbracket), bind_of_ok hslice]
  show (expr >>= _) _ = _
  rw [bind_of_ok he, bind_of_ok (mark_of_kind hclose), bind_of_ok helem]
  rfl

/-- A type is declared with a bracket after its name, which can be read as the length `e` of an array
of `elem`.  If it can also be read as type parameters, these are declared and the type is `elem`;
otherwise the type is the array. -/
theorem typeSpec_array (hn : n.kind = .name) (hbracket : bracket.kind = .mark .lsqb)
    (he : expr body = .ok (e, close :: more)) (hclose : close.kind = .mark .rsqb)
    (helem : typeExpr more = .ok (elem, rest)) :
    (∀ params left, closed typeParamDecl .rsqb body = .ok (params, left) →
      typeSpec (n :: bracket :: body) = .ok (⟨n.pos, n.text, params, elem, false⟩, rest)) ∧
    ∀ left, closed typeParamDecl .rsqb body = .error left → typeSpec (n :: bracket :: body) =
        .ok (⟨n.pos, n.text, [], .array bracket.pos e elem, false⟩, rest) := by
  obtain ⟨plain, hbody, hplain⟩ := taken_expr.ok body e _ ⟨[], rfl, by simp⟩ he
  have hahead : Ahead more body := ⟨plain, close, hbody, hclose, hplain⟩
  have hleaves : Leaves (Ahead more) (· = more) (closedFrom typeParamDecl .rsqb (body.length + 1)) :=
    leaves_closedFrom stays_typeParamDecl _
  rw [typeSpec, bind_of_ok rfl, bind_of_ok (name_of_kind hn)]
  refine ⟨fun params left hparams => ?_, fun left hleft => ?_⟩
  · rw [either, bind_of_ok (mark_of_kind hbracket), bind_of_ok hparams,
      hleaves.ok body params left hahead hparams, typeBody_of_type _ _ _ helem]
    rfl
  · obtain ⟨plain', close', rfl, -⟩ := hleaves.error body left hahead hleft
    have hlength := (typeExpr_agree more (Nat.le_refl _)).2 _ _ helem
    rw [either, bind_of_ok (mark_of_kind hbracket), bind_of_error hleft,
      typeBody_of_type _ _ _ (typeExpr_array hbracket he hclose helem)]
    refine if_neg ?_
    simp only [List.length_append, List.length_cons]
    omega

/-- The product of two names is read as a type parameter with a pointer as its constraint. -/
theorem typeSpec_array_product :
    expr [⟨.name, "N", ⟨1, 4⟩⟩, ⟨.mark .star, "*", ⟨1, 6⟩⟩, ⟨.name, "M", ⟨1, 8⟩⟩,
        ⟨.mark .rsqb, "]", ⟨1, 9⟩⟩, ⟨.name, "int", ⟨1, 10⟩⟩] =
      .ok (.binary ⟨1, 4⟩ .mul (.ident ⟨1, 4⟩ "N") (.ident ⟨1, 8⟩ "M"),
        [⟨.mark .rsqb, "]", ⟨1, 9⟩⟩, ⟨.name, "int", ⟨1, 10⟩⟩]) ∧
    typeSpec [⟨.name, "T", ⟨1, 1⟩⟩, ⟨.mark .lsqb, "[", ⟨1, 3⟩⟩, ⟨.name, "N", ⟨1, 4⟩⟩,
        ⟨.mark .star, "*", ⟨1, 6⟩⟩, ⟨.name, "M", ⟨1, 8⟩⟩, ⟨.mark .rsqb, "]", ⟨1, 9⟩⟩,
        ⟨.name, "int", ⟨1, 10⟩⟩] =
      .ok (⟨⟨1, 1⟩, "T", [⟨["N"], .pointer ⟨1, 6⟩ (.ref ⟨1, 8⟩ none "M" [])⟩],
        .ref ⟨1, 10⟩ none "int" [], false⟩, []) :=
  ⟨rfl, (typeSpec_array rfl rfl rfl rfl rfl).1 _ _ rfl⟩

end DeclBridge.Reader
