import DeclBridge.Proofs.Thinning

/-!
# Constants with fewer packages

The value of a constant is unknown where it comes from a missing package, and operators pass that
on. An operand with a value is the same in both programs, as long as the kind of its type is known;
so an operator that is defined in the first program is defined in the second, except that the types
of its operands must still go together (`Ty.common?`).
-/

namespace DeclBridge

open Option

variable {t t' u v : Ty} {op : BinaryOp} {env : Surroundings} {S₁ S : Store} {id : SymbolId}
  {M : List String}

/-- The type of an operation on operands of two types, if they go together. -/
def Ty.common? (t u : Ty) : Option Ty :=
  match t.isUntyped, u.isUntyped with
  | false, false => if t.same u then some t else none
  | false, true => some t
  | true, false => some u
  | true, true =>
    match t.kind?.bind Kind.untypedRank?, u.kind?.bind Kind.untypedRank? with
    | some m, some n => some (if n ≤ m then t else u)
    | _, _ => if t.kind? = u.kind? then some t else none

theorem Ty.common?_cases (h : t.common? u = some v) : v = t ∨ v = u := by
  unfold common? at h
  split at h
  · split at h
    · exact .inl (some.inj h).symm
    · cases h
  · exact .inl (some.inj h).symm
  · exact .inr (some.inj h).symm
  · split at h
    · split at h
      · exact .inl (some.inj h).symm
      · exact .inr (some.inj h).symm
    · split at h
      · exact .inl (some.inj h).symm
      · cases h

/-- Types that are alike have common types that are. -/
theorem Ty.Alike.common? {u' v' : Ty} (ht : t.Alike M t')
    (hu : u.Alike M u') (hv : t.common? u = some v) (hv' : t'.common? u' = some v') :
    v.Alike M v' := by
  simp only [Ty.common?, ht.isUntyped, hu.isUntyped, ht.kind?, hu.kind?] at hv hv'
  generalize t.isUntyped = typed, u.isUntyped = typed' at hv hv'
  generalize t.kind?.bind Kind.untypedRank? = rank, u.kind?.bind Kind.untypedRank? = rank' at hv hv'
  cases typed <;> cases typed' <;> dsimp only at hv hv'
  · split at hv <;> split at hv' <;> simp only [some.injEq, reduceCtorEq] at hv hv'
    rwa [← hv, ← hv']
  · rwa [← some.inj hv, ← some.inj hv']
  · rwa [← some.inj hv, ← some.inj hv']
  · cases rank <;> cases rank' <;> dsimp only at hv hv' <;> split at hv <;>
      simp only [*, if_true, if_false, some.injEq, reduceCtorEq] at hv hv'
    all_goals rwa [← hv, ← hv']

/-- The type of a shift whose left operand has a given type. -/
def Ty.shifted (t : Ty) : Ty := if t.isUntyped then .basic .untypedInt else t

theorem Ty.Alike.shifted (h : t.Alike M t') : t.shifted.Alike M t'.shifted := by
  simp only [Ty.shifted, h.isUntyped]
  split
  · exact .refl _
  · exact h

/-- An operand of which the value is known only together with the kind. -/
def Operand.Kinded (env : Surroundings) (x : Operand) : Prop :=
  x.value ≠ none → ¬ env.Finds (fun r => Resolving.kindOf env r x.type) none

/-- A declared type of which nothing is known. -/
def Surroundings.IsStub (env : Surroundings) (t : Ty) : Prop :=
  ∃ id, t.symbol? = some id ∧
    (id.package = some env.outline.path → ¬ env.outline.DeclaresType id.name) ∧
    (id.package ≠ some env.outline.path → (env.program.typeInfo id).isStub = true)

theorem declaresType_iff_of_bare {o : Outline} {name : String}
    (h : (S.symbols.get? name).map Symbol.bare = (o.symbols.get? name).map Symbol.bare) :
    o.DeclaresType name ↔ ∃ s info, S.symbols.get? name = some s ∧ s.body = .type info := by
  unfold Outline.DeclaresType
  have hbare {s s' : Symbol} (hs : s.bare = s'.bare) :
      (∃ info, s.body = .type info) → ∃ info, s'.body = .type info := by
    rintro ⟨info, hbody⟩
    have hbodies := congrArg Symbol.body hs
    cases hbody' : s'.body with
    | type info' => exact ⟨info', rfl⟩
    | const => simp [Symbol.bare, SymbolBody.bare, hbody, hbody'] at hbodies
  cases hs : S.symbols.get? name <;> cases hs' : o.symbols.get? name <;>
    rw [hs, hs'] at h <;> simp only [map_some, map_none, reduceCtorEq] at h
  simp only [some.injEq, exists_and_left, exists_eq_left'] at h ⊢
  exact ⟨hbare h.symm, hbare h⟩

namespace Resolving

variable {p : Program} {resolve : String → Resolving Unit} {x x' y y' : Operand} {pos : Position}

/-- An operand whose kind is known with its value is the same, or its value is unknown. -/
theorem fades_cases (hx : x.Fades M env S x') (hkind : M ≠ [] → x'.Kinded env) :
    x'.value = x.value ∧ x.type.Alike M x'.type ∨ M ≠ [] ∧ x'.value = none := by
  rcases hx.value with h | ⟨hM, h | h⟩
  · exact .inl h
  · exact .inr ⟨hM, h⟩
  · exact .inr ⟨hM, by_contra fun hvalue => hkind hM hvalue h⟩

/-- The result of an operator other than a shift, for operands with a common type. -/
def combine (env : Surroundings) (resolve : String → Resolving Unit) (op : BinaryOp)
    (pos : Position) (x y : Operand) (type : Ty) : Resolving Operand := do
  let resultType := if isComparison op then .basic .untypedBool else type
  match x.value, y.value with
  | some a, some b =>
    if isComparison op then
      return ⟨some (.bool (← lift (Constant.compareWith op a b pos))), resultType⟩
    else if op = .and ∨ op = .or then
      match a, b with
      | .bool p, .bool q => return ⟨some (.bool (if op = .and then p && q else p || q)), type⟩
      | _, _ => problem (.nonBoolOperands op) pos
    else
      let kind ← kindOf env resolve type
      return ⟨some (← lift (Constant.arith op a b kind pos)), type⟩
  | _, _ => return ⟨none, resultType⟩

theorem binary_eq (hop : ¬ (op = .shiftLeft ∨ op = .shiftRight)) : binary env resolve op pos x y =
      commonType env resolve op pos x y >>= combine env resolve op pos x y := by
  rw [binary, if_neg hop]
  rfl

theorem combine_eq (h : x.value = none ∨ y.value = none) : combine env resolve op pos x y t =
      pure ⟨none, if isComparison op then .basic .untypedBool else t⟩ := by
  unfold combine
  dsimp only
  split
  · simp_all
  · rfl

/-- A conversion to a type whose kind has been found. -/
def convertTo (env : Surroundings) (x : Operand) (target : Ty) (pos : Position) :
    Option Kind → Resolving Operand
  | some kind => do
    match x.value with
    | none => return ⟨none, target⟩
    | some value => return ⟨some (← lift (value.convert kind pos)), target⟩
  | none => do
    match target with
    | .named id _ | .aliased id _ =>
      if (← typeInfo env id).isStub then return ⟨x.value, target⟩
      else problem .nonBasicTarget pos
    | _ => problem .nonBasicTarget pos

theorem convert_eq :
    convert env resolve x t pos = kindOf env resolve t >>= convertTo env x t pos := by
  unfold convert convertTo
  refine bind_congr fun k => ?_
  cases k <;> rfl

section

variable (h : p.Thins M env.outline env.program) (hresolve : Mirroring M env resolve)
  (hS : S.Mirrored M env)

include h hresolve hS

/-- The kind of an operand's type can be found out. -/
theorem kindOf_operand_mirrors (hx : x.Fades M env S x') :
    Mirrors M env S (kindOf (env.amid p) resolve x.type) (fun r => kindOf env r x'.type)
      fun _ _ _ => True := by
  rcases hx.kind with halike | ⟨k, hk⟩
  · exact (kindOf_mirrors h hresolve hS halike).mono fun _ _ _ _ _ => trivial
  · exact (kindOf_mirrors h hresolve hS (.refl x.type)).replace fun S₁ _ _ _ hgrows _ =>
      ⟨k, trivial, hk.mono hgrows⟩

/-! ## Operators -/

theorem unary_mirrors_of_same {op : UnaryOp} (hvalue : x'.value = x.value)
    (htype : x.type.Alike M x'.type) : Mirrors M env S (unary (env.amid p) resolve op pos x)
      (fun r => unary env r op pos x') fun S₁ z z' => z.type = x.type ∧ z.Fades M env S₁ z' ∧
        (x.value = none → z'.value = none) := by
  have hself : x.Fades M env S x' := ⟨.inl htype, .inl ⟨hvalue, htype⟩⟩
  have hsame (c : Constant) :
      Operand.Fades M env S ⟨some c, x.type⟩ ⟨some c, x'.type⟩ :=
    ⟨.inl htype, .inl ⟨rfl, htype⟩⟩
  unfold unary
  simp only [hvalue]
  split
  · exact .pure hS ⟨rfl, hself, fun hnone => hvalue.trans hnone⟩
  · exact .pure hS ⟨rfl, hsame _, by simp_all⟩
  · exact .problem
  · exact .problem
  · exact .problem
  · exact .pure hS ⟨rfl, hself, fun hnone => hvalue.trans hnone⟩
  · exact .pure hS ⟨rfl, hsame _, by simp_all⟩
  · -- the complement depends on the kind, unless that is unknown
    refine (kindOf_mirrors h hresolve hS htype).bind fun S₁ k k' hS₁ _ ⟨_, hk⟩ hfinds => ?_
    refine .pure hS₁ ⟨rfl, ⟨.inl htype, ?_⟩, by simp_all⟩
    rcases hk with rfl | ⟨hM, rfl⟩
    · exact .inl ⟨rfl, htype⟩
    · exact .inr ⟨hM, .inr hfinds.finds⟩
  · exact .problem

theorem unary_mirrors {op : UnaryOp} (hx : x.Fades M env S x') (hkind : M ≠ [] → x'.Kinded env) :
    Mirrors M env S (unary (env.amid p) resolve op pos x) (fun r => unary env r op pos x')
      fun S₁ z z' => z.Fades M env S₁ z' ∧ (x'.value = none → z'.value = none) := by
  rcases fades_cases hx hkind with ⟨hvalue, htype⟩ | ⟨hM, hnone⟩
  · rw [hvalue]
    exact (unary_mirrors_of_same h hresolve hS hvalue htype).mono fun _ _ _ _ hz => hz.2
  · have hpure (r : String → Resolving Unit) : unary env r op pos x' = pure x' := by
      simp only [unary, hnone]
    simp only [hpure]
    refine (unary_mirrors_of_same h hresolve hS rfl (.refl x.type)).replace
      fun S₁ z _ _ hgrows ⟨hz, _⟩ => ⟨x', ⟨⟨?_, .inr ⟨hM, .inl hnone⟩⟩, id⟩, Always.pure x'⟩
    rw [hz]
    exact (hx.mono hgrows).kind

omit h hresolve hS in
/-- The kinds of two operands matter for their common type only where they are untyped. -/
theorem commonType_eq :
    commonType env resolve op pos x y = (do
      let _ ← kindOf env resolve x.type
      let _ ← kindOf env resolve y.type
      match x.type.common? y.type with
      | some t => return t
      | none =>
        let why := if x.type.isUntyped then Problem.mismatchedKinds op else .mismatchedTypes op
        problem why pos) := by
  have hkind {t : Ty} (ht : t.isUntyped = true) : kindOf env resolve t = pure t.kind? := by
    refine kindOf_of_none ?_
    cases t with
    | basic => rfl
    | _ => cases ht
  unfold commonType Ty.common?
  cases hx : x.type.isUntyped <;> cases hy : y.type.isUntyped
  · refine bind_congr fun _ => bind_congr fun _ => ?_
    dsimp only
    split <;> rfl
  · rfl
  · rfl
  · rw [hkind hx, hkind hy]
    simp only [pure_bind, if_true]
    generalize x.type.kind?.bind Kind.untypedRank? = m, y.type.kind?.bind Kind.untypedRank? = n
    cases m <;> cases n <;> dsimp only
    all_goals split <;> rfl

theorem commonType_mirrors (hx : x.Fades M env S x') (hy : y.Fades M env S y')
    (hcommon : M ≠ [] → (x'.type.common? y'.type).isSome = true) :
    Mirrors M env S (commonType (env.amid p) resolve op pos x y)
      (fun r => commonType env r op pos x' y') fun S₁ t t' =>
        x.type.common? y.type = some t ∧ x'.type.common? y'.type = some t' ∧
        ∃ k, Always env S₁ (fun r => kindOf env r t') k := by
  simp only [commonType_eq]
  refine (kindOf_operand_mirrors h hresolve hS hx).bind fun S₁ _ k hS₁ hgrows₁ _ hk => ?_
  refine (kindOf_operand_mirrors h hresolve hS₁ (hy.mono hgrows₁)).bind
    fun S₂ _ l hS₂ hgrows₂ _ hl => ?_
  split
  · rename_i t ht
    have hsome : ∃ t', x'.type.common? y'.type = some t' := by
      by_cases hM : M = []
      · subst hM
        rw [hx.eq, hy.eq]
        exact ⟨t, ht⟩
      · exact isSome_iff_exists.1 (hcommon hM)
    obtain ⟨t', ht'⟩ := hsome
    simp only [ht']
    refine .pure hS₂ ⟨ht, rfl, ?_⟩
    rcases Ty.common?_cases ht' with rfl | rfl
    · exact ⟨k, hk.mono hgrows₂⟩
    · exact ⟨l, hl⟩
  · exact .problem

omit h hresolve hS in
theorem shift_eq (hx : x.value = none ∨ y.value = none) :
    shift op pos x y = pure ⟨none, x.type.shifted⟩ := by
  rw [shift]
  split
  · simp_all
  · rfl

omit h hresolve in
theorem shift_mirrors (hx : x.Fades M env S x')
    (hkind : M ≠ [] → x'.Kinded env) (hy : y.Fades M env S y') (hkind' : M ≠ [] → y'.Kinded env) :
    Mirrors M env S (shift op pos x y) (fun _ => shift op pos x' y') fun S₁ z z' =>
      z.Fades M env S₁ z' ∧ (x'.value = none ∨ y'.value = none → z'.value = none) := by
  -- what the first shift gives does not matter where a value of the second is unknown
  have hunknown (hM : M ≠ []) (hnone : x'.value = none ∨ y'.value = none) :
      Mirrors M env S (shift op pos x y) (fun _ => shift op pos x' y') fun S₁ z z' =>
        z.Fades M env S₁ z' ∧ (x'.value = none ∨ y'.value = none → z'.value = none) := by
    have htype : x.type.shifted.Alike M x'.type.shifted ∨
        ∃ k, Always env S (fun r => kindOf env r x'.type.shifted) k := by
      refine hx.kind.imp Ty.Alike.shifted fun hk => ?_
      unfold Ty.shifted
      split
      · exact ⟨_, basic_always _⟩
      · exact hk
    have hfades (v : Option Constant) :
        Operand.Fades M env S ⟨v, x.type.shifted⟩ ⟨none, x'.type.shifted⟩ :=
      ⟨htype, .inr ⟨hM, .inl rfl⟩⟩
    rw [shift_eq hnone, shift]
    split
    · rename_i a n _ _
      cases hr : a.shift op n pos with
      | error e => exact .throw
      | ok c => exact .pure hS ⟨hfades _, fun _ => rfl⟩
    · exact .pure hS ⟨hfades _, fun _ => rfl⟩
  rcases fades_cases hx hkind with ⟨hvalue, hx⟩ | ⟨hM, hnone⟩
  · rcases fades_cases hy hkind' with ⟨hvalue', -⟩ | ⟨hM, hnone⟩
    · simp only [shift, hvalue, hvalue']
      split
      · refine (Mirrors.result (V := fun _ a b => b = a) hS fun c hc => ⟨c, hc, rfl⟩).bind
          fun S₁ c _ hS₁ _ hc _ => ?_
        rw [hc]
        exact .pure hS₁ ⟨⟨.inl hx.shifted, .inl ⟨rfl, hx.shifted⟩⟩, by simp_all⟩
      · exact .pure hS ⟨⟨.inl hx.shifted, .inl ⟨rfl, hx.shifted⟩⟩, fun _ => rfl⟩
    · exact hunknown hM (.inr hnone)
  · exact hunknown hM (.inl hnone)

theorem combine_left :
    Mirrors M env S (combine (env.amid p) resolve op pos x y t) (fun _ => pure ())
      fun _ _ _ => True := by
  have hresult {α β : Type} {S : Store} (hS : S.Mirrored M env) {r : Except Failure α}
      {f : α → β} : Mirrors M env S (do return f (← lift r)) (fun _ => pure ())
        fun _ _ _ => True := by
    cases r with
    | error => exact .throw
    | ok => exact .pure hS trivial
  unfold combine
  dsimp only
  split
  · split
    · exact hresult hS
    · split
      · split
        · exact .pure hS trivial
        · exact .problem
      · exact (kindOf_mirrors h hresolve hS (.refl t)).left.left_bind fun _ _ hS₁ => hresult hS₁
  · exact .pure hS trivial

theorem combine_mirrors_of_same (hx : x'.value = x.value)
    (hy : y'.value = y.value) (ht : t.Alike M t')
    (hkind : M ≠ [] → x'.value ≠ none → y'.value ≠ none →
      ¬ env.Finds (fun r => kindOf env r t') none) :
    Mirrors M env S (combine (env.amid p) resolve op pos x y t)
      (fun r => combine env r op pos x' y' t') fun S₁ z z' =>
        z.Fades M env S₁ z' ∧ (x'.value = none ∨ y'.value = none → z'.value = none) := by
  have hsame (v : Option Constant) {S₁ : Store} {u u' : Ty} (hu : u.Alike M u') :
      Operand.Fades M env S₁ ⟨v, u⟩ ⟨v, u'⟩ := ⟨.inl hu, .inl ⟨rfl, hu⟩⟩
  have hresult {S₁ : Store} (hS₁ : S₁.Mirrored M env) {α : Type} {r : Except Failure α}
      {f : α → Constant} {u u' : Ty} (hu : u.Alike M u')
      (hknown : ¬ (x'.value = none ∨ y'.value = none)) :
      Mirrors M env S₁ (do return (⟨some (f (← lift r)), u⟩ : Operand))
        (fun _ => do return (⟨some (f (← lift r)), u'⟩ : Operand)) fun S₂ z z' =>
          z.Fades M env S₂ z' ∧ (x'.value = none ∨ y'.value = none → z'.value = none) := by
    cases r with
    | error => exact .throw
    | ok c => exact .pure hS₁ ⟨hsame _ hu, fun hnone => absurd hnone hknown⟩
  unfold combine
  simp only [hx, hy] at hresult hkind ⊢
  split
  · rename_i a b ha hb
    have hknown : ¬ (x.value = none ∨ y.value = none) := by simp [ha, hb]
    split
    · exact hresult hS (.refl _) hknown
    · split
      · split
        · exact .pure hS ⟨hsame _ ht, fun hnone => absurd hnone hknown⟩
        · exact .problem
      · refine (kindOf_mirrors h hresolve hS ht).bind fun S₁ k k' hS₁ _ ⟨_, hk⟩ hfinds => ?_
        have hk : k' = k := by
          rcases hk with hk | ⟨hM, rfl⟩
          · exact hk
          · exact absurd hfinds.finds (hkind hM (by simp [ha]) (by simp [hb]))
        rw [hk]
        exact hresult hS₁ ht hknown
  · refine .pure hS ⟨hsame none ?_, fun _ => rfl⟩
    split
    · exact .refl _
    · exact ht

/-- An operator with two operands is defined where it was, if their types go together.  Its value is
unknown where one of theirs is. -/
theorem binary_mirrors (hx : x.Fades M env S x')
    (hkind : M ≠ [] → x'.Kinded env) (hy : y.Fades M env S y') (hkind' : M ≠ [] → y'.Kinded env)
    (hcommon : M ≠ [] → ¬ (op = .shiftLeft ∨ op = .shiftRight) →
      (x'.type.common? y'.type).isSome = true) :
    Mirrors M env S (binary (env.amid p) resolve op pos x y)
      (fun r => binary env r op pos x' y') fun S₁ z z' =>
        z.Fades M env S₁ z' ∧ (x'.value = none ∨ y'.value = none → z'.value = none) := by
  by_cases hop : op = .shiftLeft ∨ op = .shiftRight
  · simp only [binary, if_pos hop]
    exact shift_mirrors hS hx hkind hy hkind'
  · simp only [binary_eq hop]
    refine (commonType_mirrors h hresolve hS hx hy fun hM => hcommon hM hop).bind
      fun S₁ t t' hS₁ hgrows htypes _ => ?_
    obtain ⟨ht, ht', k, hk⟩ := htypes
    have hunknown (hM : M ≠ []) (hnone : x'.value = none ∨ y'.value = none) :
        Mirrors M env S₁ (combine (env.amid p) resolve op pos x y t)
          (fun r => combine env r op pos x' y' t') fun S₁ z z' =>
            z.Fades M env S₁ z' ∧
              (x'.value = none ∨ y'.value = none → z'.value = none) := by
      simp only [combine_eq hnone]
      refine (combine_left h hresolve hS₁).replace fun S₂ _ _ _ hgrows₂ _ =>
        ⟨_, ⟨⟨.inr ?_, .inr ⟨hM, .inl rfl⟩⟩, fun _ => rfl⟩, Always.pure _⟩
      split
      · exact ⟨_, basic_always _⟩
      · exact ⟨k, hk.mono hgrows₂⟩
    rcases fades_cases hx hkind with ⟨hvalue, htype⟩ | ⟨hM, hnone⟩
    · rcases fades_cases hy hkind' with ⟨hvalue', htype'⟩ | ⟨hM, hnone⟩
      · refine combine_mirrors_of_same h hresolve hS₁ hvalue hvalue'
          (htype.common? htype' ht ht') fun hM hx hy => ?_
        rcases Ty.common?_cases ht' with rfl | rfl
        · exact hkind hM hx
        · exact hkind' hM hy
      · exact hunknown hM (.inr hnone)
    · exact hunknown hM (.inl hnone)

omit h hresolve in
theorem lengthOf_mirrors (hx : x.Fades M env S x') (hkind : M ≠ [] → x'.Kinded env) :
    Mirrors M env S (lengthOf pos x) (fun _ => lengthOf pos x') fun S₁ z z' =>
      z.Fades M env S₁ z' ∧ (x'.value = none → z'.value = none) := by
  rcases fades_cases hx hkind with ⟨hvalue, -⟩ | ⟨hM, hnone⟩
  · simp only [lengthOf, hvalue]
    split
    · exact .pure hS ⟨.refl _, fun _ => rfl⟩
    · split
      · exact .pure hS ⟨.refl _, by simp_all⟩
      · exact .throw
    · exact .problem
  · have hfades (v : Option Constant) :
        Operand.Fades M env S ⟨v, .basic .int⟩ ⟨none, .basic .int⟩ :=
      ⟨.inl (.refl _), .inr ⟨hM, .inl rfl⟩⟩
    simp only [lengthOf, hnone]
    split
    · exact .pure hS ⟨hfades _, fun _ => rfl⟩
    · split
      · exact .pure hS ⟨hfades _, fun _ => rfl⟩
      · exact .throw
    · exact .problem

/-! ## Conversions -/

omit hresolve in
/-- Where the first resolution finds that nothing is known of a type, nothing is known of it without
the missing packages. -/
theorem isStub_of_typeInfo {info : TypeInfo}
    (ht : t.symbol? = some id) (hdone : id.package = some env.outline.path → S.IsDone id.name)
    (hrun : (typeInfo (env.amid p) id).run.run S = (.ok info, S₁)) (hstub : info.isStub = true) :
    env.IsStub t := by
  refine ⟨id, ht, fun hown hdeclared => ?_, fun hother => ?_⟩
  · rw [typeInfo, if_pos hown] at hrun
    cases hrun
    obtain ⟨s, info, hs, hbody⟩ := (declaresType_iff_of_bare (hS.bare id.name)).1 hdeclared
    have hnone : info.underlying = none := by
      rw [hs, bind_some, Symbol.typeInfo?, hbody] at hstub
      simp only [getD_some, TypeInfo.isStub, Bool.and_eq_true, isNone_iff_eq_none]
        at hstub
      exact hstub.1
    exact hS.complete id.name s info (hdone hown) hs hbody hnone
  · rw [typeInfo, if_neg hother] at hrun
    cases hrun
    cases hin : id.isIn M with
    | true =>
      rw [h.typeInfo_of_isIn hin]
      rfl
    | false =>
      rw [h.typeInfo_of_not_isIn hin]
      exact hstub

omit h hresolve hS in
/-- The second resolution sees that nothing is known of a type. -/
theorem typeInfo_always (hstub : env.IsStub t) (ht : t.symbol? = some id) :
    ∃ info, info.isStub = true ∧ Always env S (fun _ => typeInfo env id) info := by
  obtain ⟨id', ht', hown, hother⟩ := hstub
  cases ht.symm.trans ht'
  by_cases hid : id.package = some env.outline.path
  · refine ⟨{}, rfl, fun count S' hsettled _ _ => ⟨S', ?_, hsettled, .refl S'⟩⟩
    have hnone : (S'.symbols.get? id.name).bind Symbol.typeInfo? = none := by
      refine bind_eq_none_iff.2 fun s hs => ?_
      cases hbody : s.body with
      | const => rw [Symbol.typeInfo?, hbody]
      | type info =>
        exact absurd ((declaresType_iff_of_bare (hsettled.bare id.name)).2 ⟨s, info, hs, hbody⟩)
          (hown hid)
    rw [typeInfo, if_pos hid]
    show (Except.ok (((S'.symbols.get? id.name).bind Symbol.typeInfo?).getD {}), S') = _
    rw [hnone]
    rfl
  · refine ⟨env.program.typeInfo id, hother hid, ?_⟩
    simp only [typeInfo, if_neg hid]
    exact .pure _

omit h hresolve hS in
theorem convertTo_none :
    convertTo env x t pos none = (match t.symbol? with
      | some id => do
        if (← typeInfo env id).isStub then return ⟨x.value, t⟩ else problem .nonBasicTarget pos
      | none => problem .nonBasicTarget pos) := by
  cases t <;> rfl

omit h hresolve hS in
/-- A constant of a type of which nothing is known keeps its value. -/
theorem convertTo_none_always (hstub : env.IsStub t) :
    Always env S (fun _ => convertTo env x t pos none) ⟨x.value, t⟩ := by
  obtain ⟨id, ht, -⟩ := id hstub
  obtain ⟨info, hinfo, halways⟩ := typeInfo_always (S := S) hstub ht
  simp only [convertTo_none, ht]
  refine halways.bind ?_
  simp only [hinfo, if_true]
  exact .pure _

omit hresolve in
/-- Where the first resolution converts to a type without a kind, nothing is known of the type. -/
theorem isStub_of_convertTo (ht : t.Alike M t')
    (hdone : ∀ id, t.symbol? = some id → id.package = some env.outline.path → S.IsDone id.name)
    {z : Operand} (hrun : (convertTo (env.amid p) x t pos none).run.run S = (.ok z, S₁)) :
    env.IsStub t' ∧ z = ⟨x.value, t⟩ ∧ S₁ = S := by
  rw [convertTo_none] at hrun
  split at hrun
  · rename_i id hid
    obtain ⟨info, S₂, hinfo, hrest⟩ := Computation.bind_eq_ok hrun
    split at hrest
    · have hsame : S₂ = S := by
        rw [typeInfo] at hinfo
        split at hinfo <;> cases hinfo <;> rfl
      cases hrest
      rw [hsame] at hinfo ⊢
      exact ⟨isStub_of_typeInfo h hS (ht.symbol?.trans hid) (hdone id hid) hinfo ‹_›, rfl, rfl⟩
    · cases hrest
  · cases hrun

omit hresolve in
theorem convertTo_none_mirrors (ht : t.Alike M t')
    (hdone : ∀ id, t.symbol? = some id → id.package = some env.outline.path → S.IsDone id.name) :
    Mirrors M env S (convertTo (env.amid p) x t pos none)
      (fun _ => convertTo env x' t' pos none) fun _ z z' =>
        z = ⟨x.value, t⟩ ∧ z' = ⟨x'.value, t'⟩ := by
  intro z S₁ hrun
  obtain ⟨hstub, hz, rfl⟩ := isStub_of_convertTo h hS ht hdone hrun
  exact ⟨hS, .refl _, _, ⟨hz, rfl⟩, convertTo_none_always hstub⟩

omit h hresolve in
theorem convertTo_some_left {k : Kind} :
    Mirrors M env S (convertTo (env.amid p) x t pos (some k)) (fun _ => pure ())
      fun _ z _ => z.type = t := by
  unfold convertTo
  dsimp only
  split
  · exact .pure hS rfl
  · rename_i value _
    cases value.convert k pos with
    | error => exact .throw
    | ok => exact .pure hS rfl

/-- A conversion is possible where it was, if the target has a kind or is a type of which nothing is
known.  In the latter case the value is kept as it is. -/
theorem convert_mirrors (hx : x.Fades M env S x') (ht : t.Alike M t')
    (hkind : M ≠ [] → ∀ k, env.Finds (fun r => kindOf env r t') (some k) → x'.Kinded env)
    (hstub : M ≠ [] → env.Finds (fun r => kindOf env r t') none → env.IsStub t') :
    Mirrors M env S (convert (env.amid p) resolve x t pos) (fun r => convert env r x' t' pos)
      fun S₁ z z' => z.Fades M env S₁ z' ∧ (x'.value = none → z'.value = none) := by
  simp only [convert_eq]
  refine (kindOf_mirrors h hresolve hS ht).bind fun S₁ k k' hS₁ _ ⟨hdone, hk⟩ hfinds => ?_
  have hfinds := hfinds.finds
  cases k' with
  | some l =>
    obtain rfl : k = some l := by
      rcases hk with hk | ⟨-, hk⟩
      · exact hk.symm
      · cases hk
    rcases fades_cases hx fun hM => hkind hM l hfinds with ⟨hvalue, -⟩ | ⟨hM, hnone⟩
    · unfold convertTo
      simp only [hvalue]
      split
      · exact .pure hS₁ ⟨⟨.inl ht, .inl ⟨rfl, ht⟩⟩, fun _ => rfl⟩
      · rename_i value hsome
        cases value.convert l pos with
        | error => exact .throw
        | ok c => exact .pure hS₁ ⟨⟨.inl ht, .inl ⟨rfl, ht⟩⟩, by simp [hsome]⟩
    · have hpure : convertTo env x' t' pos (some l) = pure ⟨none, t'⟩ := by
        simp only [convertTo, hnone]
      simp only [hpure]
      exact (convertTo_some_left hS₁).replace fun S₂ z _ _ _ hz =>
        ⟨_, ⟨⟨.inl (hz ▸ ht), .inr ⟨hM, .inl rfl⟩⟩, fun _ => rfl⟩, Always.pure _⟩
  | none =>
    cases k with
    | none =>
      refine (convertTo_none_mirrors h hS₁ ht hdone).mono fun S₂ z z' hgrows hz => ?_
      obtain ⟨rfl, rfl⟩ := hz
      refine ⟨⟨.inl ht, ?_⟩, id⟩
      rcases hx.value with ⟨hvalue, -⟩ | ⟨hM, -⟩
      · exact .inl ⟨hvalue, ht⟩
      · exact .inr ⟨hM, .inr hfinds⟩
    | some l =>
      have hM : M ≠ [] := by
        rcases hk with hk | ⟨hM, -⟩
        · cases hk
        · exact hM
      exact (convertTo_some_left hS₁).replace fun S₂ z _ _ _ hz =>
        ⟨⟨x'.value, t'⟩, ⟨⟨.inl (hz ▸ ht), .inr ⟨hM, .inr hfinds⟩⟩, id⟩,
          convertTo_none_always (hstub hM hfinds)⟩

end

end Resolving

end DeclBridge
