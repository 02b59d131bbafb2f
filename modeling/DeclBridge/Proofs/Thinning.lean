import DeclBridge.Proofs.Lockstep

/-!
# Types and constants with fewer packages

Each function of the resolution is mirrored in a program without the packages `M`.  Types come out
alike, because a name refers to the same symbol in both programs.  What lies behind them may end at
a missing package (`Ty.Behind`), and then nothing is known of the kind.
-/

namespace DeclBridge

variable {id : SymbolId} {args args' : List Ty} {t : Ty} {scope : Scope} {name : String}
  {count : Nat} {pos : Position} {M : List String}

/-- The program `p'` has the packages of `p` without `M`, and `o` is none of these.  The symbols of
the missing packages were known there by their own names. -/
structure Program.Thins (M : List String) (o : Outline) (p p' : Program) : Prop where
  packages : ∀ path, p'.packages.get? path = if path ∈ M then none else p.packages.get? path
  own : o.path ∉ M
  symbols : ∀ path ∈ M, ∀ package, p.packages.get? path = some package →
    ∀ name s, package.symbols.get? name = some s → s.id = ⟨some path, name⟩

namespace Program.Thins

variable {o : Outline} {p p' : Program}

theorem typeInfo_of_isIn (h : p.Thins M o p') (hid : id.isIn M = true) : p'.typeInfo id = {} := by
  obtain ⟨path, hpath, hpackage⟩ := SymbolId.isIn_iff.1 hid
  rw [typeInfo, hpackage, Option.bind_some, h.packages, if_pos hpath]

theorem typeInfo_of_not_isIn (h : p.Thins M o p') (hid : id.isIn M = false) :
    p'.typeInfo id = p.typeInfo id := by
  cases hpackage : id.package with
  | none => simp only [typeInfo, hpackage, Option.bind_none]
  | some path =>
    have hpath : path ∉ M := fun hpath => by
      rw [SymbolId.isIn_iff.2 ⟨path, hpath, hpackage⟩] at hid
      cases hid
    simp only [typeInfo, hpackage, Option.bind_some, h.packages, if_neg hpath]

theorem typeInfo_fades (h : p.Thins M o p') (id : SymbolId) :
    id.isIn M = true ∧ p'.typeInfo id = {} ∨ (p.typeInfo id).Fades M (p'.typeInfo id) := by
  cases hid : id.isIn M with
  | true => exact .inl ⟨rfl, h.typeInfo_of_isIn hid⟩
  | false =>
    rw [h.typeInfo_of_not_isIn hid]
    exact .inr (.refl _)

end Program.Thins

abbrev Surroundings.amid (env : Surroundings) (p : Program) : Surroundings :=
  { env with program := p }

namespace Resolving

variable {env : Surroundings} {p : Program} {resolve : String → Resolving Unit} {S : Store}

/-! ## References -/

/-- What a store says of a type, or of none where there is no such symbol. -/
theorem typeInfo?_fades {s s' : Option Symbol} (h : Option.Rel (Symbol.Fades M env S name) s s') :
    ((s.bind Symbol.typeInfo?).getD {}).Fades M ((s'.bind Symbol.typeInfo?).getD {}) := by
  cases h with
  | none => exact .refl _
  | @some s s' h =>
    have hbody := h.body
    simp only [Option.bind_some, Symbol.typeInfo?]
    generalize s.body = body, s'.body = body' at hbody ⊢
    cases hbody with
    | type hinfo => exact hinfo
    | const => exact .refl _

/-- A step from a declared type leads to related types, where `T` relates the parts of declarations.
It leads nowhere from a type of a missing package. -/
theorem follow_mirrors (h : p.Thins M env.outline env.program) (hresolve : Mirroring M env resolve)
    (hS : S.Mirrored M env) {T : Ty → Ty → Prop} {part : TypeInfo → Option Ty}
    (hrefl : ∀ t, T t t) (hempty : part {} = none)
    (hpart : ∀ info info', info.Fades M info' → ∀ args args' : List Ty,
      args.map (Ty.stubbed M) = args'.map (Ty.stubbed M) →
      Option.Rel T ((part info).map (instantiate info.params args))
        ((part info').map (instantiate info'.params args')))
    (hargs : args.map (Ty.stubbed M) = args'.map (Ty.stubbed M)) :
    Mirrors M env S (follow (env.amid p) resolve part id args)
      (fun r => follow env r part id args') fun S₁ found found' =>
        (id.package = some env.outline.path → S₁.IsDone id.name) ∧
        (id.isIn M = true ∧ found' = none ∨ Option.Rel T found found') := by
  cases hid : id.package with
  | none =>
    simp only [follow, hid]
    refine .pure hS ⟨fun heq => (by cases heq), .inr ?_⟩
    split
    · exact .some (hrefl _)
    · exact .none
  | some path =>
    by_cases hpath : path = env.outline.path
    · subst hpath
      simp only [follow_own (env.amid p) hid, follow_own env hid]
      refine (lookUp_mirrors hresolve hS id.name).bind fun S₁ s s' hS₁ _ hfound _ => ?_
      obtain ⟨hdone, hs⟩ := hfound
      exact .pure hS₁ ⟨fun _ => hdone, .inr (hpart _ _ (typeInfo?_fades hs) _ _ hargs)⟩
    · simp only [follow_other (env.amid p) hid hpath, follow_other env hid hpath]
      refine .pure hS ⟨fun heq => absurd (Option.some.inj heq) hpath, ?_⟩
      rcases h.typeInfo_fades id with ⟨hin, hinfo⟩ | hinfo
      · exact .inl ⟨hin, by rw [hinfo, hempty]; rfl⟩
      · exact .inr (hpart _ _ hinfo _ _ hargs)

theorem underlyingWithin_of_isIn (h : p.Thins M env.outline env.program)
    (ht : t.symbol? = some id) (hid : id.isIn M = true) (count : Nat) :
    underlyingWithin env resolve (count + 1) t = pure t := by
  obtain ⟨path, hpath, hpackage⟩ := SymbolId.isIn_iff.1 hid
  have hne : path ≠ env.outline.path := fun heq => h.own (heq ▸ hpath)
  have hnone (part : TypeInfo → Option Ty) (hpart : part {} = none) (args : List Ty) :
      follow env resolve part id args = pure none := by
    rw [follow_other _ hpackage hne, h.typeInfo_of_isIn hid]
    simp only [hpart, Option.map_none]
  cases t with
  | named id' args =>
    cases ht
    rw [underlyingWithin, hnone _ rfl, pure_bind]
    rfl
  | aliased id' args =>
    cases ht
    rw [underlyingWithin, hnone _ rfl, pure_bind]
  | _ => cases ht

theorem underlyingWithin_of_none (ht : t.symbol? = none)
    (count : Nat) : underlyingWithin env resolve (count + 1) t = pure t := by
  cases t with
  | named | aliased => cases ht
  | _ => rfl

/-- What the way to a structure gives: the structure behind, and that the declaration which a
reference leads to is done. -/
def Reached (M : List String) (env : Surroundings) (t : Ty) (S₁ : Store) (u u' : Ty) : Prop :=
  (∀ id, t.symbol? = some id → id.package = some env.outline.path → S₁.IsDone id.name) ∧ u.Behind M u'

theorem kindOf_of_none (ht : t.symbol? = none) : kindOf env resolve t = pure t.kind? := by
  cases t with
  | named | aliased => cases ht
  | _ => rfl

theorem kindOf_of_some (ht : t.symbol? = some id) :
    kindOf env resolve t = do return (← underlying env resolve t).kind? := by
  cases t with
  | named | aliased =>
    rw [kindOf]
    refine congrArg (underlying env resolve _ >>= ·) (funext fun u => ?_)
    cases u <;> rfl
  | _ => cases ht

section

variable (h : p.Thins M env.outline env.program) (hresolve : Mirroring M env resolve)

include h hresolve

theorem underlyingWithin_named_mirrors
    (hS : S.Mirrored M env) (hargs : args.map (Ty.stubbed M) = args'.map (Ty.stubbed M)) :
    Mirrors M env S (underlyingWithin (env.amid p) resolve (count + 1) (.named id args))
      (fun r => underlyingWithin env r (count + 1) (.named id args'))
      (Reached M env (.named id args)) := by
  have hself : (Ty.named id args).Behind M (.named id args') :=
    .inl (by rw [Ty.Alike, Ty.stubbed_named, Ty.stubbed_named, hargs])
  refine (follow_mirrors (T := Ty.Behind M) h hresolve hS (fun t => .inl (.refl t)) rfl
    (fun info info' hinfo args args' hargs => ?_) hargs).bind fun S₁ found found' hS₁ _ hfound _ => ?_
  · have hbehind := hinfo.underlying
    generalize info.underlying = u, info'.underlying = u' at hbehind ⊢
    cases hbehind with
    | none => exact .none
    | some hu => exact .some (instantiate_behind hinfo.names hargs hu)
  · refine .pure hS₁ ⟨by rintro _ ⟨⟩; exact hfound.1, ?_⟩
    rcases hfound.2 with ⟨hin, rfl⟩ | hrel
    · exact .inr ⟨id, rfl, hin⟩
    · cases hrel with
      | none => exact hself
      | some hu => exact hu

theorem underlyingWithin_aliased_mirrors
    (ih : ∀ {S : Store}, S.Mirrored M env → ∀ {t t' : Ty}, t.Alike M t' →
      Mirrors M env S (underlyingWithin (env.amid p) resolve count t)
        (fun r => underlyingWithin env r count t') (Reached M env t)) (hS : S.Mirrored M env)
    (hargs : args.map (Ty.stubbed M) = args'.map (Ty.stubbed M)) :
    Mirrors M env S (underlyingWithin (env.amid p) resolve (count + 1) (.aliased id args))
      (fun r => underlyingWithin env r (count + 1) (.aliased id args'))
      (Reached M env (.aliased id args)) := by
  refine (follow_mirrors (T := Ty.Alike M) h hresolve hS Ty.Alike.refl rfl
    (fun info info' hinfo args args' hargs => ?_) hargs).bind fun S₁ found found' hS₁ _ hfound _ => ?_
  · have hrhs := hinfo.rhs
    generalize info.rhs = u, info'.rhs = u' at hrhs ⊢
    cases u <;> cases u' <;> simp only [Option.map_some, Option.map_none, reduceCtorEq] at hrhs ⊢
    · exact .none
    · exact .some (instantiate_alike hinfo.names hargs (Option.some.inj hrhs))
  · have hdone {S₂ : Store} (hgrows : S₁.Grows S₂) : ∀ id', (Ty.aliased id args).symbol? = some id' →
        id'.package = some env.outline.path → S₂.IsDone id'.name := by
      rintro _ ⟨⟩ hown
      exact hgrows.isDone (hfound.1 hown)
    rcases hfound.2 with ⟨hin, rfl⟩ | hrel
    · -- the first resolution goes on; where it ends does not matter for the second
      have hstuck {u : Ty} : u.Behind M (.aliased id args') := .inr ⟨id, rfl, hin⟩
      cases found with
      | none => exact .pure hS₁ ⟨hdone (.refl S₁), hstuck⟩
      | some u =>
        exact (ih hS₁ (.refl u)).replace fun S₂ _ _ _ hgrows _ =>
          ⟨_, ⟨hdone hgrows, hstuck⟩, Always.pure _⟩
    · cases hrel with
      | none =>
        refine .pure hS₁ ⟨hdone (.refl S₁), .inl ?_⟩
        simp only [Ty.Alike, Ty.stubbed_aliased, hargs]
      | some hu => exact (ih hS₁ hu).mono fun S₂ _ _ hgrows hreached => ⟨hdone hgrows, hreached.2⟩

/-- The structure behind types that are alike is alike, unless the way to it ends at a missing
package. -/
theorem underlyingWithin_mirrors (count : Nat) (hS : S.Mirrored M env) {t t' : Ty}
    (ht : t.Alike M t') : Mirrors M env S (underlyingWithin (env.amid p) resolve count t)
      (fun r => underlyingWithin env r count t') (Reached M env t) := by
  induction count generalizing S t t' with
  | zero => exact .throw
  | succ count ih =>
    -- a reference to a missing package may be an alias in the one program only
    have hmissing {id : SymbolId} (hid : t.symbol? = some id) (hin : id.isIn M = true)
        {y : (String → Resolving Unit) → Resolving Ty}
        (hself : Mirrors M env S (underlyingWithin (env.amid p) resolve (count + 1) t) y
          (Reached M env t)) :
        Mirrors M env S (underlyingWithin (env.amid p) resolve (count + 1) t)
          (fun r => underlyingWithin env r (count + 1) t') (Reached M env t) := by
      have hid' := ht.symbol?.trans hid
      simp only [underlyingWithin_of_isIn h hid' hin]
      exact hself.replace fun S₁ _ _ _ _ hreached =>
        ⟨t', ⟨hreached.1, .inr ⟨id, hid', hin⟩⟩, Always.pure t'⟩
    cases t with
    | named id args =>
      cases hin : id.isIn M with
      | true => exact hmissing rfl hin (underlyingWithin_named_mirrors h hresolve hS rfl)
      | false =>
        obtain ⟨args', rfl⟩ := ht.of_named hin
        exact underlyingWithin_named_mirrors h hresolve hS ht.args
    | aliased id args =>
      cases hin : id.isIn M with
      | true => exact hmissing rfl hin (underlyingWithin_aliased_mirrors h hresolve ih hS rfl)
      | false =>
        obtain ⟨args', rfl⟩ := ht.of_aliased hin
        exact underlyingWithin_aliased_mirrors h hresolve ih hS ht.args
    | _ =>
      simp only [underlyingWithin_of_none ht.symbol?]
      exact .pure hS ⟨nofun, .inl ht⟩

/-- The kind of a type is the same, or it is not known without the missing packages. -/
theorem kindOf_mirrors (hS : S.Mirrored M env) {t t' : Ty} (ht : t.Alike M t') :
    Mirrors M env S (kindOf (env.amid p) resolve t) (fun r => kindOf env r t') fun S₁ k k' =>
      (∀ id, t.symbol? = some id → id.package = some env.outline.path → S₁.IsDone id.name) ∧
      (k' = k ∨ M ≠ [] ∧ k' = none) := by
  cases hsymbol : t.symbol? with
  | none =>
    simp only [kindOf_of_none hsymbol, kindOf_of_none (ht.symbol?.trans hsymbol)]
    exact .pure hS ⟨nofun, .inl ht.kind?⟩
  | some id =>
    simp only [kindOf_of_some hsymbol, kindOf_of_some (ht.symbol?.trans hsymbol)]
    refine (underlyingWithin_mirrors h hresolve _ hS ht).bind fun S₁ u u' hS₁ _ hreached _ => ?_
    exact .pure hS₁ ⟨hsymbol ▸ hreached.1, hreached.2.kind?⟩

end

section

variable (h : p.Thins M env.outline env.program) (hS : S.Mirrored M env)

include h hS

/-- A name of an imported package refers to the same symbol, or to a stub. -/
theorem imported_mirrors {package : String} :
    Mirrors M env S (imported (env.amid p) scope package name pos)
      (fun _ => imported env scope package name pos) fun _ s s' =>
        ∃ path, scope.imports.get? package = some path ∧
          (path ∉ M ∧ s' = s ∨ path ∈ M ∧ s.id = ⟨some path, name⟩ ∧
            s' = { name, package := some path, body := .type {} }) := by
  unfold imported
  split
  · exact .problem
  · rename_i path hpath
    simp only [hpath, h.packages]
    by_cases hM : path ∈ M
    · -- what the first program has in this package is of no account
      simp only [if_pos hM]
      split
      · exact .pure hS ⟨path, rfl, .inr ⟨hM, rfl, rfl⟩⟩
      · rename_i q hq
        split
        · rename_i s hs
          split
          · exact .pure hS ⟨path, rfl, .inr ⟨hM, h.symbols path hM q hq name s hs, rfl⟩⟩
          · exact .problem
        · exact .problem
    · simp only [if_neg hM]
      split
      · exact .pure hS ⟨path, rfl, .inl ⟨hM, rfl⟩⟩
      · split
        · split
          · exact .pure hS ⟨path, rfl, .inl ⟨hM, rfl⟩⟩
          · exact .problem
        · exact .problem

omit h hS in
theorem reference_alike {isAlias isAlias' : Bool}
    (hargs : args.map (Ty.stubbed M) = args'.map (Ty.stubbed M))
    (halias : isAlias = isAlias' ∨ id.isIn M = true) :
    (reference isAlias id args).Alike M (reference isAlias' id args') := by
  rcases halias with rfl | hin
  · cases isAlias <;> simp [reference, Ty.Alike, Ty.stubbed_named, Ty.stubbed_aliased, hargs]
  · cases isAlias <;> cases isAlias' <;>
      simp [reference, Ty.Alike, Ty.stubbed_named, Ty.stubbed_aliased, hargs, hin]

theorem typeNamed_mirrors {params : Table String Ty} {package : Option String}
    (hargs : args.map (Ty.stubbed M) = args'.map (Ty.stubbed M)) :
    Mirrors M env S (typeNamed (env.amid p) scope params pos package name args)
      (fun _ => typeNamed env scope params pos package name args') fun _ t t' => t.Alike M t' := by
  unfold typeNamed
  dsimp only
  split
  · refine (imported_mirrors h hS).bind fun S₁ s s' hS₁ _ ⟨path, _, hs⟩ _ => ?_
    split
    · exact .problem
    · rename_i info hbody
      rcases hs with ⟨-, rfl⟩ | ⟨hM, hid, rfl⟩
      · simp only [hbody]
        exact .pure hS₁ (reference_alike hargs (.inl rfl))
      · rw [hid]
        exact .pure hS₁ (reference_alike hargs (.inr (SymbolId.isIn_iff.2 ⟨path, hM, rfl⟩)))
  · split
    · exact .pure hS (.refl _)
    · split
      · split
        · exact .problem
        · exact .pure hS (reference_alike hargs (.inl rfl))
      · split
        · exact .pure hS (.refl _)
        · exact .problem

/-! ## Constants -/

omit h hS in
theorem basic_always (k : Kind) : Always env S (fun r => kindOf env r (.basic k)) (some k) :=
  .pure _

theorem evalImported_mirrors {pos' : Position} {package : String} :
    Mirrors M env S (evalImported (env.amid p) scope pos package name)
      (fun _ => evalImported env scope pos package name) fun S₁ x x' => x.Fades M env S₁ x' ∧
        (env.outline.DependsOn M scope (.select pos (.ident pos' package) name) → x'.value = none) := by
  unfold evalImported
  refine (imported_mirrors h hS).bind fun S₁ s s' hS₁ _ ⟨path, hpath, hs⟩ _ => ?_
  rcases hs with ⟨hM, rfl⟩ | ⟨hM, -, rfl⟩
  · have hdepends : ¬ env.outline.DependsOn M scope (.select pos (.ident pos' package) name) := by
      rintro ⟨hpath', hM'⟩
      cases hpath.symm.trans hpath'
      exact hM hM'
    split
    · exact .pure hS₁ ⟨.refl _, fun hd => absurd hd hdepends⟩
    · split
      · exact .pure hS₁ ⟨.refl _, fun hd => absurd hd hdepends⟩
      · exact .problem
  · have hfades (x : Operand) : x.Fades M env S₁ ⟨none, .basic .untypedInt⟩ :=
      ⟨.inr ⟨_, basic_always _⟩, .inr ⟨List.ne_nil_of_mem hM, .inl rfl⟩⟩
    split
    · exact .pure hS₁ ⟨hfades _, fun _ => rfl⟩
    · split
      · exact .pure hS₁ ⟨hfades _, fun _ => rfl⟩
      · exact .problem

end

end Resolving

end DeclBridge
