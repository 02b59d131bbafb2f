import DeclBridge.Proofs.Resolution

/-!
# Resolution under a limit

A chain of aliases is followed up to a limit, and the fault that ends a longer one is the only thing
by which the limit shows.  `Stable C J x` says this of a computation `x` that depends on a limit: a
higher limit gives the same result, unless the lower one was exceeded, and under the condition `C`
some limit is not exceeded.  There is one rule for each way to build a computation, and one lemma
for each function of the resolution.

The condition is that every chain of aliases ends.  A chain goes on from an alias to what it stands
for (`Outline.AliasStep`); what the aliases of the package stand for is what they can be resolved
to, in whatever order.
-/

namespace DeclBridge

open Resolving

variable {J : Store → Prop} {α : Type} {C : Prop}

/-- Ended by the limit. -/
def Exhausted {α : Type} (run : Except Failure α × Store) : Prop :=
  run.1 = .error (.fault .endlessType)

/-- A failure that no limit causes: a problem, a fault of a value or the want of a declaration. -/
def Failure.Ordinary : Failure → Prop
  | .problem .. | .fault (.undeclared _) => True
  | .fault why => why.OfValue

theorem Failure.OfValue.ordinary {e : Failure} (h : e.OfValue) : e.Ordinary := by
  cases e with
  | problem => trivial
  | fault why =>
    cases why with
    | undeclared => trivial
    | _ => exact h

/-- A failure that resolution may end with. -/
def Failure.OfResolution (e : Failure) : Prop := e = .fault .endlessType ∨ e.Ordinary

/-- Where `J` holds, `y` gives the result of `x`, unless `x` was ended by the limit. -/
def Outlasts {α : Type} (J : Store → Prop) (y x : Resolving α) : Prop :=
  ∀ S, J S → Exhausted (x.run.run S) ∨ y.run.run S = x.run.run S

theorem Outlasts.refl (x : Resolving α) : Outlasts J x x :=
  fun _ _ => .inr rfl

theorem Outlasts.bind {β : Type} {Q : α → Prop} {x y : Resolving α}
    {f g : α → Resolving β} (hx : Outlasts J y x)
    (hkeeps : Triple J x (fun a S => J S ∧ Q a) fun _ _ => True)
    (hf : ∀ a, Q a → Outlasts J (g a) (f a)) : Outlasts J (y >>= g) (x >>= f) := by
  intro S hS
  rcases hrun : x.run.run S with ⟨e | a, S₁⟩
  · rw [Computation.run_bind_error hrun]
    rcases hx S hS with hexhausted | hsame
    · rw [hrun] at hexhausted
      cases hexhausted
      exact .inl rfl
    · exact .inr (Computation.run_bind_error (hsame.trans hrun))
  · rcases hx S hS with hexhausted | hsame
    · rw [hrun] at hexhausted
      cases hexhausted
    · rw [Computation.run_bind_ok hrun, Computation.run_bind_ok (hsame.trans hrun)]
      obtain ⟨hS₁, ha⟩ := hkeeps.ok hS hrun
      exact hf a ha S₁ hS₁

/-- A computation that depends on a limit gives the same result with a higher one, unless it was
ended by the limit, and under the condition `C` there is a limit that is high enough.  It keeps `J`,
also where it fails. -/
structure Stable (C : Prop) (J : Store → Prop) {α : Type} (x : Nat → Resolving α) : Prop where
  mono : ∀ {m n : Nat}, m ≤ n → Outlasts J (x n) (x m)
  keeps : ∀ n, Triple J (x n) (fun _ => J) fun e S => J S ∧ e.OfResolution
  ends : C → ∀ S, J S → ∃ n, ¬ Exhausted ((x n).run.run S)

namespace Stable

variable {β : Type}

variable {x : Nat → Resolving α} {f : Nat → α → Resolving β}

/-- A computation that does not depend on the limit. -/
theorem fixed {x : Resolving α} (h : Triple J x (fun _ => J) fun e S => J S ∧ e.Ordinary) :
    Stable C J fun _ => x where
  mono _ := .refl x
  keeps _ := h.weaken (fun _ hS => hS) (fun _ _ hS => hS) fun _ _ he => ⟨he.1, .inr he.2⟩
  ends _ S hS := by
    refine ⟨0, fun hexhausted => ?_⟩
    rcases hrun : x.run.run S with ⟨e | a, S'⟩ <;> rw [hrun] at hexhausted <;> cases hexhausted
    exact (h.error hS hrun).2

/-- From some limit on, the result is always the same. -/
theorem settles (h : Stable C J x) (hC : C) {S : Store} (hS : J S) :
    ∃ n r, ¬ Exhausted r ∧ ∀ m, n ≤ m → (x m).run.run S = r := by
  obtain ⟨n, hn⟩ := h.ends hC S hS
  exact ⟨n, _, hn, fun m hm => (h.mono hm S hS).resolve_left hn⟩

theorem pure (a : α) : Stable C J fun _ => (Pure.pure a : Resolving α) :=
  fixed (.pure fun _ hS => hS)

theorem problem {why : Problem} {pos : Position} :
    Stable C J fun _ => (problem why pos : Resolving α) :=
  fixed (.throw fun _ hS => ⟨hS, trivial⟩)

theorem fault {why : Fault} (h : why.OfValue) :
    Stable C J fun _ => (throw (.fault why) : Resolving α) :=
  fixed (.throw fun _ hS => ⟨hS, Failure.OfValue.ordinary h⟩)

theorem get : Stable C J fun _ => (MonadState.get : Resolving Store) :=
  fixed (.get fun _ hS => hS)

theorem update {g : Store → Store} (h : ∀ S, J S → J (g S)) :
    Stable C J fun _ => (modify g : Resolving Unit) :=
  fixed (.update h)

/-- A result that was computed apart from the store. -/
theorem lift {r : Except Failure α} (h : FailsOnly Failure.OfValue r) :
    Stable C J fun _ => lift r :=
  fixed (.result (fun _ _ _ hS => hS) fun e he _ hS => ⟨hS, (h.of_error e he).ordinary⟩)

/-- What follows may rely on what is known of the result. -/
theorem bind_of {Q : α → Prop}
    (hx : Stable C J x) (hQ : ∀ n, Triple J (x n) (fun a _ => Q a) fun _ _ => True)
    (hf : ∀ a, Q a → Stable C J fun n => f n a) : Stable C J fun n => x n >>= f n where
  mono {m n} hmn := by
    refine (hx.mono hmn).bind ?_ fun a ha => (hf a ha).mono hmn
    exact ((hx.keeps m).and (hQ m)).weaken (fun _ hS => hS) (fun _ _ h => h) fun _ _ _ => trivial
  keeps n := ((hx.keeps n).and (hQ n)).bind fun a => .assume fun S hS =>
    ((hf a hS.2).keeps n).start hS.1
  ends hC S hS := by
    obtain ⟨n, r, hr, hsame⟩ := hx.settles hC hS
    obtain ⟨e | a, S₁⟩ := r
    · refine ⟨n, fun hexhausted => hr ?_⟩
      rw [Computation.run_bind_error (hsame n (Nat.le_refl n))] at hexhausted
      cases hexhausted
      rfl
    · -- the higher of the two limits is high enough for both parts
      have hrun := hsame n (Nat.le_refl n)
      obtain ⟨n', r', hr', hsame'⟩ := (hf a ((hQ n).ok hS hrun)).settles hC
        ((hx.keeps n).ok hS hrun)
      refine ⟨max n n', ?_⟩
      rw [Computation.run_bind_ok (hsame _ (Nat.le_max_left n n')), hsame' _ (Nat.le_max_right n n')]
      exact hr'

theorem bind (hx : Stable C J x)
    (hf : ∀ a, Stable C J fun n => f n a) : Stable C J fun n => x n >>= f n :=
  hx.bind_of (Q := fun _ => True) (fun n => (hx.keeps n).weaken (fun _ hS => hS)
    (fun _ _ _ => trivial) fun _ _ _ => trivial) fun a _ => hf a

end Stable

/-- Results are in `Q`, and depend on the limit as `Stable` says. -/
def Resolving.Judgement.stable (C : Prop) (J : Store → Prop) : Judgement Nat where
  move _ := .stay
  place _ := True
  Holds _ x Q := Stable C J x ∧ ∀ n, Triple J (x n) (fun a _ => Q a) fun _ _ => True
  pure {_ u _ _ x} a ha hQ := by
    obtain rfl : x = fun _ => a := funext fun n => (ha n).trans (Stays.stay (u := u) a)
    exact ⟨.pure a, fun _ => .pure fun _ _ => hQ⟩
  bind {_ _ u _ _ _ _ _ _} hx hf := by
    simp only [Stays.stay (u := u)] at hf
    refine ⟨hx.1.bind_of hx.2 fun a ha => (hf a ha).1, fun n => ?_⟩
    have hstep := ((hx.1.keeps n).and (hx.2 n)).weaken (fun _ hS => hS) (fun _ _ h => h)
      fun _ _ _ => trivial
    exact hstep.bind fun a => .assume fun S hS => ((hf a hS.2).2 n).start hS.1
  mono hx hR := ⟨hx.1, fun n => (hx.2 n).post (fun _ _ h => hR _ h)⟩
  problem _ := ⟨.problem, fun _ => .throw fun _ _ => trivial⟩
  surrogate := ⟨.fault trivial, fun _ => .throw fun _ _ => trivial⟩
  value _ hfails _ := ⟨.lift (hfails _).ofValue,
    fun _ => .result (fun _ _ _ _ => trivial) fun _ _ _ _ => trivial⟩

theorem Stable.judged {u : Move → α → α} {x : Nat → Resolving α} (h : Stable C J x) :
    (Resolving.Judgement.stable C J).Holds u x fun _ => True :=
  ⟨h, fun n => (h.keeps n).weaken (fun _ hS => hS) (fun _ _ _ => trivial) fun _ _ _ => trivial⟩

/-! ## Chains of aliases -/

/-- A type that an alias of the package can be resolved to, with the names of its parameters. -/
def Outline.StandsFor (o : Outline) (p : Program) (name : String) (params : List String)
    (t : Ty) : Prop :=
  ∃ decl, o.types.get? name = some decl ∧ decl.spec.isAlias = true ∧
    params = decl.spec.params.flatMap (·.names) ∧
    ∃ limit count S S', (typeOf ⟨o, p, limit⟩ (resolveSymbol ⟨o, p, limit⟩ count)
      decl.scope (paramTypes decl.spec.params) decl.spec.type).run.run S = (.ok t, S')

/-- A step from an alias to what it stands for, with its arguments put in. -/
inductive Outline.AliasStep (o : Outline) (p : Program) : Ty → Ty → Prop
  | own {name : String} {params : List String} {args : List Ty} {t : Ty} :
    o.StandsFor p name params t →
    AliasStep o p (.aliased ⟨some o.path, name⟩ args) (t.subst (.ofList (params.zip args)))
  | imported {id : SymbolId} {args : List Ty} {t : Ty} : id.package ≠ some o.path →
    (p.typeInfo id).rhs = some t →
    AliasStep o p (.aliased id args) (instantiate (p.typeInfo id).params args t)

/-- Every chain of aliases ends. -/
def Outline.AliasesEnd (o : Outline) (p : Program) : Prop :=
  WellFounded fun t u => o.AliasStep p u t

/-- The aliases of a store stand for what they can be resolved to. -/
def Store.Traced (o : Outline) (p : Program) (S : Store) : Prop :=
  ∀ name s info t, S.symbols.get? name = some s → s.body = .type info → info.rhs = some t →
    o.StandsFor p name (info.params.map (·.name)) t

namespace Resolving

section

variable {o : Outline} {p : Program} {resolve : Nat → String → Resolving Unit}

/-! ## References -/

theorem typeInfo_stable (id : SymbolId) : Stable C J fun n => typeInfo ⟨o, p, n⟩ id := by
  simp only [typeInfo]
  split
  · exact Stable.get.bind fun _ => .pure _
  · exact .pure _

variable (hresolve : ∀ name, Stable C J fun n => resolve n name)

include hresolve

theorem follow_stable (part : TypeInfo → Option Ty) (id : SymbolId) (args : List Ty) :
    Stable C J fun n => follow ⟨o, p, n⟩ (resolve n) part id args := by
  simp only [follow]
  split
  · exact .pure _
  · split
    · exact (hresolve id.name).bind fun _ => (typeInfo_stable id).bind fun _ => .pure _
    · exact (typeInfo_stable id).bind fun _ => .pure _

/-- Where an alias leads to is one step on. -/
theorem follow_rhs (hJ : ∀ S, J S → S.Traced o p) (n : Nat) (id : SymbolId) (args : List Ty) :
    Triple J (follow ⟨o, p, n⟩ (resolve n) (·.rhs) id args) (fun found _ => ∀ t, found = some t →
        t = errorInterface ∨ o.AliasStep p (.aliased id args) t) fun _ _ => True := by
  have hinfo : Triple J (do
      let info ← typeInfo ⟨o, p, n⟩ id
      return info.rhs.map (instantiate info.params args) : Resolving (Option Ty))
      (fun found _ => ∀ t, found = some t →
        t = errorInterface ∨ o.AliasStep p (.aliased id args) t) fun _ _ => True := by
    simp only [typeInfo]
    split
    · rename_i hid
      refine .bind (Q := fun info S => ∀ t, info.rhs = some t →
        o.StandsFor p id.name (info.params.map (·.name)) t) ?_ fun info => .pure ?_
      · refine .bind (Q := fun store _ => store.Traced o p) (.get hJ) fun store =>
          Triple.pure fun _ hstore t ht => ?_
        rcases hs : store.symbols.get? id.name with _ | s
        · rw [hs] at ht
          cases ht
        · rw [hs] at ht
          rw [Option.bind_some, Symbol.typeInfo?] at ht ⊢
          cases hbody : s.body with
          | const value type =>
            rw [hbody] at ht
            cases ht
          | type info =>
            rw [hbody] at ht
            exact hstore id.name s info t hs hbody ht
      · intro _ hstands t ht
        obtain ⟨u, hu, rfl⟩ := Option.map_eq_some_iff.1 ht
        obtain ⟨package, name⟩ := id
        cases hid
        exact .inr (.own (hstands u hu))
    · rename_i hid
      refine .pure fun _ _ t ht => ?_
      obtain ⟨u, hu, rfl⟩ := Option.map_eq_some_iff.1 ht
      exact .inr (.imported hid hu)
  simp only [follow]
  split
  · refine .pure fun _ _ t ht => ?_
    split at ht
    · exact .inl (Option.some.inj ht).symm
    · cases ht
  · split
    · exact ((hresolve id.name).keeps n |>.weaken (fun _ hS => hS) (fun _ _ hS => hS)
        fun _ _ _ => trivial).bind fun _ => hinfo
    · exact hinfo

theorem underlyingWithin_keeps (n count : Nat) (t : Ty) :
    Triple J (underlyingWithin ⟨o, p, n⟩ (resolve n) count t) (fun _ => J)
      fun e S => J S ∧ e.OfResolution := by
  induction count generalizing t with
  | zero => exact .throw fun _ hS => ⟨hS, .inl rfl⟩
  | succ count ih =>
    cases t with
    | named id args =>
      simp only [underlyingWithin]
      exact ((follow_stable hresolve _ id args).keeps n).bind fun _ => .pure fun _ hS => hS
    | aliased id args =>
      simp only [underlyingWithin]
      refine ((follow_stable hresolve _ id args).keeps n).bind fun found => ?_
      cases found with
      | none => exact .pure fun _ hS => hS
      | some u => exact ih u
    | _ => exact .pure fun _ hS => hS

theorem underlyingWithin_mono {m n count count' : Nat} (hmn : m ≤ n) (hcount : count ≤ count')
    (t : Ty) : Outlasts J (underlyingWithin ⟨o, p, n⟩ (resolve n) count' t)
      (underlyingWithin ⟨o, p, m⟩ (resolve m) count t) := by
  have hfollow (part : TypeInfo → Option Ty) (id : SymbolId) (args : List Ty) :
      Triple J (follow ⟨o, p, m⟩ (resolve m) part id args) (fun _ S => J S ∧ True)
        fun _ _ => True :=
    ((follow_stable hresolve part id args).keeps m).weaken (fun _ hS => hS)
      (fun _ _ hS => ⟨hS, trivial⟩) fun _ _ _ => trivial
  induction count generalizing count' t with
  | zero => exact fun _ _ => .inl rfl
  | succ count ih =>
    obtain ⟨count', rfl⟩ := Nat.exists_eq_add_of_le' (Nat.le_trans (Nat.le_add_left 1 count) hcount)
    cases t with
    | named id args =>
      simp only [underlyingWithin]
      exact ((follow_stable hresolve _ id args).mono hmn).bind (hfollow _ id args) fun _ _ => .refl _
    | aliased id args =>
      simp only [underlyingWithin]
      refine ((follow_stable hresolve _ id args).mono hmn).bind (hfollow _ id args) fun found _ => ?_
      cases found with
      | none => exact .refl _
      | some u => exact ih (Nat.le_of_succ_le_succ hcount) u
    | _ => exact .refl _

theorem underlyingWithin_ends (hJ : ∀ S, J S → S.Traced o p) (hC : C) (hends : o.AliasesEnd p)
    (t : Ty) (S : Store) (hS : J S) :
    ∃ n, ¬ Exhausted ((underlyingWithin ⟨o, p, n⟩ (resolve n) n t).run.run S) := by
  -- by the length of the chain from `t` on
  induction t using hends.induction generalizing S with
  | _ t ih =>
    cases t with
    | named id args =>
      obtain ⟨n, r, hr, hsame⟩ := ((follow_stable (o := o) (p := p) hresolve (·.underlying) id
        args).bind fun found => .pure (found.getD (.named id args))).settles hC hS
      refine ⟨n + 1, ?_⟩
      simp only [underlyingWithin]
      rw [hsame (n + 1) (Nat.le_succ n)]
      exact hr
    | aliased id args =>
      have hfollow := follow_stable (o := o) (p := p) hresolve (·.rhs) id args
      obtain ⟨n, r, hr, hsame⟩ := hfollow.settles hC hS
      obtain ⟨e | found, S₁⟩ := r
      · refine ⟨n + 1, ?_⟩
        simp only [underlyingWithin]
        rw [Computation.run_bind_error (hsame (n + 1) (Nat.le_succ n))]
        exact fun hexhausted => hr (by cases hexhausted; rfl)
      · -- what is found has a shorter chain
        have hrest : ∃ n', ∀ t, found = some t →
            ¬ Exhausted ((underlyingWithin ⟨o, p, n'⟩ (resolve n') n' t).run.run S₁) := by
          cases found with
          | none => exact ⟨0, fun _ h => by cases h⟩
          | some u =>
            rcases (follow_rhs hresolve hJ n id args).ok hS (hsame n (Nat.le_refl n)) u rfl with
              rfl | hstep
            · exact ⟨1, fun _ ht => Option.some.inj ht ▸ fun h => by cases h⟩
            · obtain ⟨n', hn'⟩ := ih u hstep S₁ ((hfollow.keeps n).ok hS (hsame n (Nat.le_refl n)))
              exact ⟨n', fun _ ht => Option.some.inj ht ▸ hn'⟩
        have hS₁ := (hfollow.keeps n).ok hS (hsame n (Nat.le_refl n))
        obtain ⟨n', hn'⟩ := hrest
        refine ⟨max n n' + 1, ?_⟩
        simp only [underlyingWithin]
        rw [Computation.run_bind_ok (hsame _ (by omega))]
        cases found with
        | none => exact fun h => by cases h
        | some u =>
          rw [(underlyingWithin_mono hresolve (m := n') (by omega) (Nat.le_max_right n n') u
            S₁ hS₁).resolve_left (hn' u rfl)]
          exact hn' u rfl
    | _ => exact ⟨1, fun h => by cases h⟩

section

variable (hJ : ∀ S, J S → S.Traced o p) (hC : C → o.AliasesEnd p)

include hJ hC

theorem underlying_stable (t : Ty) :
    Stable C J fun n => underlying ⟨o, p, n⟩ (resolve n) t where
  mono hmn := underlyingWithin_mono hresolve hmn hmn t
  keeps n := underlyingWithin_keeps hresolve n n t
  ends h := underlyingWithin_ends hresolve hJ h (hC h) t

/-! ## Types -/

/-- The resolution of a package does not depend on the limit unless that is exceeded. -/
theorem looks_stable : (Judgement.stable C J).Looks (fun n => ⟨o, p, n⟩) resolve o
    (fun _ => True) fun _ => True where
  outline _ := o.moves_stay
  made _ _ _ := trivial
  predeclared _ := trivial
  own _ _ _ _ := trivial
  info _ {id _} _ := (typeInfo_stable id).judged
  look name _ := by
    refine (Judgement.stable C J).mono (Stable.judged ?_) fun _ _ _ _ _ _ => trivial
    exact (hresolve name).bind fun _ => Stable.get.bind fun _ => .pure _
  behind t _ := by
    simp only [Judgement.stable, Ty.moved_stay]
    exact (underlying_stable hresolve hJ hC t).judged (u := Ty.moved)

omit hresolve hJ hC in
theorem imports_stable (scope : Scope) :
    (Judgement.stable C J).Imports (fun n => ⟨o, p, n⟩) scope fun _ => True :=
  fun package name _ hpos => (Judgement.stable C J).holds_imported _ scope package name
    hpos fun path _ => ⟨(p.packages.get? path).map (·.symbols.get? name), fun _ =>
      (looked_stay _).symm, fun _ => ⟨fun _ _ _ _ => trivial, fun _ _ => trivial⟩,
      fun _ _ => ⟨fun _ _ _ _ => trivial, fun _ _ => trivial⟩⟩

theorem carries_stable (scope : Scope) (params : Table String Ty) :
    (Judgement.stable C J).Carries (fun n => ⟨o, p, n⟩) resolve scope (fun _ => params)
      (fun _ => True) fun t => ∀ site ∈ t.sites, site.In o (fun _ => True) fun _ => True :=
  (looks_stable hresolve hJ hC).carries (q := params) (imports_stable scope)
    (fun _ name => by simp only [Judgement.stable, funext Ty.moved_stay, Option.map_id'])
    fun _ _ _ => trivial

theorem typeOf_stable (scope : Scope) (params : Table String Ty) (t : TypeExpr) :
    Stable C J fun n => typeOf ⟨o, p, n⟩ (resolve n) scope params t := by
  have htype := (carries_stable hresolve hJ hC scope params).typeOf (t := t)
    fun _ _ => .all _
  simp only [Judgement.stable, TypeExpr.moved_stay] at htype
  exact htype.1

theorem paramsOf_stable (scope : Scope) (params : Table String Ty) (decls : List TypeParamDecl) :
    Stable C J fun n => paramsOf ⟨o, p, n⟩ (resolve n) scope params decls := by
  have hparams := (carries_stable hresolve hJ hC scope params).paramsOf (q := params)
    (fun _ name => by simp only [Judgement.stable, funext Ty.moved_stay, Option.map_id'])
    decls fun _ _ _ _ => .all _
  simp only [Judgement.stable, funext TypeParamDecl.moved_stay, List.map_id'] at hparams
  exact hparams.1

end

end

end Resolving

end DeclBridge
