import DeclBridge.Proofs.Tolerance

/-!
# Symbols with fewer packages

While a symbol is in work its entry in the store changes, in the first resolution as in the second.
`MirrorsFor` is `Mirrors` for the time in which a symbol is in work.  A symbol that the first
resolution completes can be resolved in the second from any store in which it was not begun, and
always becomes the same (`resolveSymbol_mirroring`).
-/

namespace DeclBridge

open Resolving

variable {body' : SymbolBody} {count : Nat} {name' : String} {s : Option Symbol} {decl : TypeDecl}
  {mark : Progress} {env : Surroundings} {o : Outline} {body : SymbolBody} {name : String}
  {M : List String} {S S₁ : Store}

theorem Symbol.withBody_eq {s s' : Symbol} (h : s.bare = s'.bare) (body : SymbolBody) :
    ({ s with body } : Symbol) = { s' with body } := by
  cases s
  cases s'
  simp only [Symbol.bare, Symbol.mk.injEq] at h ⊢
  exact ⟨h.1, h.2.1, h.2.2.1, trivial⟩

namespace Store

theorem symbols_withBody (S : Store) (name : String) (body : SymbolBody) (name' : String) :
    (S.withBody name body).symbols.get? name' =
      if name = name' then (S.symbols.get? name').map fun s => { s with body }
      else S.symbols.get? name' := by
  rw [withBody, Table.get?_modify]

theorem symbols_withBody_self
    (h : (S.symbols.get? name).map Symbol.bare = (o.symbols.get? name).map Symbol.bare) :
    (S.withBody name body).symbols.get? name =
      (o.symbols.get? name).map fun s => { s with body } := by
  rw [symbols_withBody, if_pos rfl]
  cases hs : S.symbols.get? name <;> cases hs' : o.symbols.get? name <;> rw [hs, hs'] at h <;>
    simp only [Option.map_some, Option.map_none, reduceCtorEq, Option.some.injEq] at h ⊢
  exact Symbol.withBody_eq h body

/-- A meaning of the declared kind. -/
def Fits (o : Outline) (name : String) (body : SymbolBody) : Prop :=
  ∀ s, o.symbols.get? name = some s → s.body.bare = body.bare

theorem bare_withBody
    (h : ∀ name, (S.symbols.get? name).map Symbol.bare = (o.symbols.get? name).map Symbol.bare)
    (hfits : Fits o name body) (name' : String) :
    ((S.withBody name body).symbols.get? name').map Symbol.bare =
      (o.symbols.get? name').map Symbol.bare := by
  by_cases hname : name = name'
  · subst hname
    rw [symbols_withBody_self (h name)]
    cases hs : o.symbols.get? name with
    | none => rfl
    | some s => simp [Symbol.bare, hfits s hs]
  · rw [symbols_withBody, if_neg hname, h name']

theorem ne_of_isDone (hname : ¬ S.IsDone name) (hdone : S.IsDone name') : name ≠ name' := by
  rintro rfl
  exact hname hdone

theorem isDone_withMark :
    (S.withMark name mark).IsDone name' ↔ if name = name' then mark = .done else S.IsDone name' := by
  rw [IsDone, withMark, Table.get?_insert]
  split <;> simp [IsDone]

theorem IsDone.withMark (hdone : S.IsDone name')
    (hname : ¬ S.IsDone name) : (S.withMark name mark).IsDone name' := by
  rw [isDone_withMark, if_neg (ne_of_isDone hname hdone)]
  exact hdone

namespace Settled

theorem withBody (h : S.Settled env) (hname : ¬ S.IsDone name) (hfits : Fits env.outline name body) :
    (S.withBody name body).Settled env where
  clean := h.clean
  bare := bare_withBody h.bare hfits
  done name' hdone := by
    rw [symbols_withBody, if_neg (ne_of_isDone hname hdone)]
    exact h.done name' hdone

theorem withStart (h : S.Settled env) : (S.withMark name .started).Settled env where
  clean := clean_withMark h.clean (by decide)
  bare := h.bare
  done name' hdone := by
    rw [isDone_withMark] at hdone
    split at hdone
    · cases hdone
    · exact h.done name' hdone

/-- A symbol may be marked as done when it is as it would be if it had been resolved first. -/
theorem withDone (h : S.Settled env)
    (hname : env.Finds (lookUp · name) (S.symbols.get? name)) :
    (S.withMark name .done).Settled env where
  clean := clean_withMark h.clean (by decide)
  bare := h.bare
  done name' hdone := by
    rw [isDone_withMark] at hdone
    split at hdone
    · subst ‹name = name'›
      exact hname
    · exact h.done name' hdone

end Settled

namespace Mirrored

theorem withBody (h : S.Mirrored M env) (hname : ¬ S.IsDone name)
    (hfits : Fits env.outline name body) : (S.withBody name body).Mirrored M env where
  clean := h.clean
  bare := bare_withBody h.bare hfits
  complete name' s info hdone hs hbody := by
    rw [symbols_withBody, if_neg (ne_of_isDone hname hdone)] at hs
    exact h.complete name' s info hdone hs hbody
  done name' hdone := by
    obtain ⟨s', hs', halways⟩ := h.done name' hdone
    rw [symbols_withBody, if_neg (ne_of_isDone hname hdone)]
    exact ⟨s', fades_of_done hs' fun _ h => h, halways.of_done fun _ h => h⟩

theorem withStart (h : S.Mirrored M env) (hname : ¬ S.IsDone name) :
    (S.withMark name .started).Mirrored M env := by
  have hnew : ∀ name', (S.withMark name .started).IsDone name' → S.IsDone name' := by
    intro name' hdone
    rw [isDone_withMark] at hdone
    split at hdone
    · cases hdone
    · exact hdone
  refine ⟨clean_withMark h.clean (by decide), h.bare, fun name' s info hdone => ?_,
    fun name' hdone => ?_⟩
  · exact h.complete name' s info (hnew name' hdone)
  · obtain ⟨s', hs', halways⟩ := h.done name' (hnew name' hdone)
    exact ⟨s', fades_of_done hs' fun _ hdone => hdone.withMark hname,
      halways.of_done fun _ hdone => hdone.withMark hname⟩

/-- A symbol may be marked as done when the second resolution has one to go with it. -/
theorem withDone (h : S.Mirrored M env) (hname : ¬ S.IsDone name)
    (hcomplete : ∀ s info, S.symbols.get? name = some s → s.body = .type info →
      info.underlying ≠ none) {s' : Option Symbol}
    (hs' : Option.Rel (Symbol.Fades M env S name) (S.symbols.get? name) s')
    (halways : Always env (S.withMark name .done) (lookUp · name) s') :
    (S.withMark name .done).Mirrored M env := by
  refine ⟨clean_withMark h.clean (by decide), h.bare, fun name' s info hdone hs => ?_,
    fun name' hdone => ?_⟩
  · rw [isDone_withMark] at hdone
    split at hdone
    · subst ‹name = name'›
      exact hcomplete s info hs
    · exact h.complete name' s info hdone hs
  · rw [isDone_withMark] at hdone
    split at hdone
    · subst ‹name = name'›
      exact ⟨s', fades_of_done hs' fun _ hdone => hdone.withMark hname, halways⟩
    · obtain ⟨s', hs', halways⟩ := h.done name' hdone
      exact ⟨s', fades_of_done hs' fun _ hdone => hdone.withMark hname,
        halways.of_done fun _ hdone => hdone.withMark hname⟩

end Mirrored

theorem Grows.withBody (hname : ¬ S.IsDone name) : S.Grows (S.withBody name body) :=
  ⟨.refl S, fun name' hdone => by rw [symbols_withBody, if_neg (ne_of_isDone hname hdone)]⟩

theorem Calm.withBody : S.Calm (S.withBody name body) := ⟨.refl S, fun _ h => h⟩

theorem not_isDone_of_started (h : S.progress.get? name = some .started) : ¬ S.IsDone name :=
  fun hdone => by
    rw [IsDone, h] at hdone
    cases hdone

end Store

/-! ## A symbol in work -/

/-- `y` gives `b` in every store that a resolution may have reached, while a symbol is in work. -/
def AlwaysFor {β : Type} (env : Surroundings) (S : Store) (name : String)
    (y : (String → Resolving Unit) → Resolving β) (b : β) : Prop :=
  ∀ count S', S'.Settled env → S'.untried env.outline < count → S.Clear S' →
    S'.progress.get? name = some .started →
    ∃ S₁', (y (resolveSymbol env count)).run.run S' = (.ok b, S₁') ∧
      S₁'.Settled env ∧ S'.Calm S₁'

/-- Wherever `x` gives a result while a symbol is in work, `y` gives one that is related to it. -/
def MirrorsFor {α β : Type} (M : List String) (env : Surroundings) (S : Store) (name : String)
    (x : Resolving α) (y : (String → Resolving Unit) → Resolving β) (V : Store → α → β → Prop) :
    Prop :=
  ∀ a S₁, S.progress.get? name = some .started → x.run.run S = (.ok a, S₁) →
    S₁.Mirrored M env ∧ S.Grows S₁ ∧ ∃ b, V S₁ a b ∧ AlwaysFor env S₁ name y b

section

variable {α β γ δ : Type}
  {x : Resolving α} {y : (String → Resolving Unit) → Resolving β} {V : Store → α → β → Prop}

namespace AlwaysFor

theorem of_done {b : β} (h : AlwaysFor env S name y b)
    (hdone : ∀ name, S.IsDone name → S₁.IsDone name) : AlwaysFor env S₁ name y b :=
  fun count S' hsettled hcount hclear => h count S' hsettled hcount fun name hname =>
    hclear name (hdone name hname)

theorem bind {b : β} {g : (String → Resolving Unit) → β → Resolving γ} {c : γ}
    (hy : AlwaysFor env S name y b) (hg : AlwaysFor env S name (fun r => g r b) c) :
    AlwaysFor env S name (fun r => y r >>= g r) c := by
  intro count S' hsettled hcount hclear hstarted
  obtain ⟨S₁', hrun, hsettled₁, hcalm⟩ := hy count S' hsettled hcount hclear hstarted
  have hcount₁ := Nat.lt_of_le_of_lt (hcalm.marks.untried_le (o := env.outline)) hcount
  obtain ⟨S₂', hrun₂, hsettled₂, hcalm₂⟩ := hg count S₁' hsettled₁ hcount₁ (hclear.calm hcalm)
    (hcalm.marks name .started hstarted)
  refine ⟨S₂', ?_, hsettled₂, hcalm.trans hcalm₂⟩
  rw [Computation.run_bind_ok hrun, hrun₂]

theorem setBody (hfits : Store.Fits env.outline name body) :
    AlwaysFor env S name (fun _ => setBody name body) () :=
  fun _ S' hsettled _ _ hstarted => ⟨S'.withBody name body, rfl,
    hsettled.withBody (Store.not_isDone_of_started hstarted) hfits, Store.Calm.withBody⟩

end AlwaysFor

namespace MirrorsFor

theorem of_mirrors (h : Mirrors M env S x y V) : MirrorsFor M env S name x y V := by
  intro a S₁ _ hrun
  obtain ⟨hS₁, hgrows, b, hV, hy⟩ := h a S₁ hrun
  exact ⟨hS₁, hgrows, b, hV, fun count S' hsettled hcount hclear _ =>
    hy count S' hsettled hcount hclear⟩

theorem bind {W : Store → γ → δ → Prop} {f : α → Resolving γ}
    {g : (String → Resolving Unit) → β → Resolving δ} (hx : MirrorsFor M env S name x y V)
    (hf : ∀ S₁ a b, S₁.Mirrored M env → S.Grows S₁ → V S₁ a b →
      MirrorsFor M env S₁ name (f a) (fun r => g r b) W) :
    MirrorsFor M env S name (x >>= f) (fun r => y r >>= g r) W := by
  intro c S₂ hstarted hrun
  obtain ⟨a, S₁, hrun₁, hrun₂⟩ := Computation.bind_eq_ok hrun
  obtain ⟨hS₁, hgrows₁, b, hV, hy⟩ := hx a S₁ hstarted hrun₁
  obtain ⟨hS₂, hgrows₂, d, hW, hg⟩ := hf S₁ a b hS₁ hgrows₁ hV c S₂
    (hgrows₁.marks name .started hstarted) hrun₂
  exact ⟨hS₂, hgrows₁.trans hgrows₂, d, hW,
    (hy.of_done fun _ hdone => hgrows₂.isDone hdone).bind hg⟩

theorem setBody (hS : S.Mirrored M env)
    (hfits : Store.Fits env.outline name body) (hfits' : Store.Fits env.outline name body') :
    MirrorsFor M env S name (setBody name body)
      (fun _ => setBody name body') fun _ _ _ => True := by
  rintro _ _ hstarted ⟨⟩
  have hname := Store.not_isDone_of_started hstarted
  exact ⟨hS.withBody hname hfits, .withBody hname, (), trivial, .setBody hfits'⟩

end MirrorsFor

end

theorem Store.fits_type (h : o.DeclaresType name) (info : TypeInfo) :
    Store.Fits o name (.type info) := by
  intro s hs
  obtain ⟨s', info', hs', hbody⟩ := h
  cases hs.symm.trans hs'
  rw [hbody]
  rfl

theorem Store.fits_const (h : o.DeclaresConst name)
    (value : Option Constant) (type : Option Ty) : Store.Fits o name (.const value type) := by
  intro s hs
  obtain ⟨s', value', type', hs', hbody⟩ := h
  cases hs.symm.trans hs'
  rw [hbody]
  rfl

/-- The meanings that two resolutions give to a symbol. -/
structure SymbolBody.Mirrors (M : List String) (env : Surroundings) (S : Store) (name : String)
    (body body' : SymbolBody) : Prop where
  fits : Store.Fits env.outline name body
  complete : ∀ info, body = .type info → info.underlying ≠ none
  fades : body.Fades M env S name body'

theorem SymbolBody.Mirrors.fits' (h : body.Mirrors M env S name body') :
    Store.Fits env.outline name body' := by
  intro s hs
  rw [h.fits s hs]
  cases h.fades <;> rfl

namespace Resolving

/-! ## Declarations -/

section

variable (env : Surroundings) (resolve : String → Resolving Unit)

/-- The meaning of a declared type; what is known of it on the way is stored. -/
def typeBody (name : String) (decl : TypeDecl) : Resolving SymbolBody := do
  let paramTable := paramTypes decl.spec.params
  let params ← paramsOf env resolve decl.scope paramTable decl.spec.params
  let info : TypeInfo := { params }
  setBody name (.type info)
  let type ← typeOf env resolve decl.scope paramTable decl.spec.type
  let info := if decl.spec.isAlias then { info with isAlias := true, rhs := some type } else info
  setBody name (.type info)
  let behind ← underlying env resolve type
  return .type { info with underlying := some behind }

def constBody (decl : ConstDecl) : Resolving SymbolBody := do
  let x ← eval env resolve decl.scope (some decl.spec.iota) decl.value
  let x ← match decl.spec.type with
    | some t => do
      let target ← typeOf env resolve decl.scope {} t
      convert env resolve x target decl.spec.pos
    | none => pure x
  return .const x.value (if x.type.isUntyped then none else some x.type)

end

variable {p : Program} {resolve : String → Resolving Unit}

theorem resolveType_eq :
    resolveType env resolve name decl = typeBody env resolve name decl >>= setBody name := by
  simp only [resolveType, typeBody, bind_assoc, pure_bind]

theorem resolveConst_eq {decl : ConstDecl} :
    resolveConst env resolve name decl = constBody env resolve decl >>= setBody name := by
  simp only [resolveConst, constBody, bind_assoc, pure_bind]
  refine bind_congr fun x => ?_
  cases decl.spec.type with
  | none => rw [pure_bind]
  | some t => simp only [bind_assoc, pure_bind]

theorem constant_fades {x x' : Operand} (h : x.Fades M env S x') :
    (constant x.value (if x.type.isUntyped then none else some x.type)).Fades M env S
      (constant x'.value (if x'.type.isUntyped then none else some x'.type)) := by
  cases huntyped : x'.type.isUntyped with
  | true =>
    refine ⟨.inr ⟨_, basic_always _⟩, ?_⟩
    rcases h.value with ⟨hvalue, htype⟩ | ⟨hM, hnone | hnone⟩
    · refine .inl ⟨hvalue, ?_⟩
      rw [← htype.isUntyped, huntyped, if_pos rfl, hvalue]
      exact .refl _
    · exact .inr ⟨hM, .inl hnone⟩
    · -- the type of an untyped operand has a kind
      obtain ⟨k, hk⟩ : ∃ k, x'.type = .basic k := by
        generalize x'.type = t at huntyped
        cases t with
        | basic k => exact ⟨k, rfl⟩
        | _ => cases huntyped
      rw [hk] at hnone
      cases hnone.unique (basic_always (S := S) k).finds
  | false =>
    have hconstant : constant x'.value (if false = true then none else some x'.type) = x' := rfl
    rw [hconstant]
    have htyped (htype : x.type.Alike M x'.type) :
        constant x.value (if x.type.isUntyped then none else some x.type) = x := by
      rw [← htype.isUntyped, huntyped]
      rfl
    refine ⟨h.kind.imp_left fun htype => ?_, h.value.imp_left fun hsame => ?_⟩
    · rw [htyped htype]
      exact htype
    · rw [htyped hsame.2]
      exact hsame

section

variable (h : p.Thins M env.outline env.program) (hresolve : Mirroring M env resolve)
  (htolerates : M ≠ [] → env.Tolerates)
  (hkinds : M ≠ [] → env.KindsKnown) (hS : S.Mirrored M env)

include h hresolve htolerates hkinds hS

theorem typeBody_mirrors (hdeclares : env.outline.DeclaresType name) (hdecl : env.outline.types.get? name = some decl) :
    MirrorsFor M env S name (typeBody (env.amid p) resolve name decl)
      (fun r => typeBody env r name decl) fun S₁ => SymbolBody.Mirrors M env S₁ name := by
  have hfits := Store.fits_type hdeclares
  unfold typeBody
  refine (MirrorsFor.of_mirrors (paramsOf_mirrors h hresolve htolerates hkinds hS _
    fun d hd => .constraint hdeclares hdecl hd)).bind fun S₁ ps ps' hS₁ _ hps => ?_
  refine (MirrorsFor.setBody hS₁ (hfits _) (hfits _)).bind fun S₂ _ _ hS₂ _ _ => ?_
  refine (MirrorsFor.of_mirrors (typeOf_mirrors h hresolve htolerates hkinds hS₂ _
    (.type hdeclares hdecl))).bind fun S₃ t t' hS₃ _ ht => ?_
  refine (MirrorsFor.setBody hS₃ (hfits _) (hfits _)).bind fun S₄ _ _ hS₄ _ _ => ?_
  refine (MirrorsFor.of_mirrors (underlyingWithin_mirrors h hresolve env.limit hS₄ ht)).bind
    fun S₅ u u' hS₅ _ hreached => ?_
  refine MirrorsFor.of_mirrors (Mirrors.pure hS₅ ⟨hfits _, ?_, .type ?_⟩)
  · rintro _ ⟨⟩
    simp
  have ht : t.stubbed M = t'.stubbed M := ht
  cases decl.spec.isAlias with
  | true => exact ⟨hps, rfl, congrArg some ht, .some hreached.2⟩
  | false => exact ⟨hps, rfl, rfl, .some hreached.2⟩

theorem constBody_mirrors {decl : ConstDecl} (hdeclares : env.outline.DeclaresConst name)
    (hdecl : env.outline.consts.get? name = some decl) :
    Mirrors M env S (constBody (env.amid p) resolve decl) (fun r => constBody env r decl)
      fun S₁ => SymbolBody.Mirrors M env S₁ name := by
  -- the operand that is stored, and what is stored of it
  have hstored {S₁ : Store} (hS₁ : S₁.Mirrored M env) {x x' : Operand}
      (hx : x.Fades M env S₁ x')
      (hvalue : env.outline.DependsOn M decl.scope decl.value → x'.value = none) :
      Mirrors M env S₁
        (pure (SymbolBody.const x.value (if x.type.isUntyped then none else some x.type)))
        (fun _ => pure
          (SymbolBody.const x'.value (if x'.type.isUntyped then none else some x'.type)))
        fun S₂ => SymbolBody.Mirrors M env S₂ name := by
    refine Mirrors.pure hS₁ ⟨Store.fits_const hdeclares _ _, nofun, .const (constant_fades hx) ?_⟩
    intro decl' hdecl' hdepends
    cases hdecl.symm.trans hdecl'
    exact hvalue hdepends
  unfold constBody
  refine (eval_mirrors h hresolve htolerates hkinds hS decl.value
    (.constant hdeclares hdecl)).bind fun S₁ x x' hS₁ _ ⟨hx, hvalue⟩ hsees => ?_
  cases htype : decl.spec.type with
  | none => exact hstored hS₁ hx hvalue
  | some te =>
    dsimp only
    refine (typeOf_mirrors h hresolve htolerates hkinds hS₁ te
      (.constant hdeclares hdecl htype)).bind fun S₂ t t' hS₂ hgrows ht htarget => ?_
    have hconverts : env.Converts decl.scope (some decl.spec.iota)
        decl.value t' :=
      .constant hdeclares hdecl htype htarget.finds
    refine (convert_mirrors h hresolve hS₂ (hx.mono hgrows) ht
      (fun hM k hk => hkinds hM (.converted hconverts hk) hsees.finds)
      fun hM hnone => (htolerates hM).conversions hconverts hnone).bind
      fun S₃ z z' hS₃ _ ⟨hz, hnone⟩ _ => ?_
    exact hstored hS₃ hz fun hdepends => hnone (hvalue hdepends)

end

/-- Gives a symbol in work its meaning, and the symbol as it then is. -/
theorem lookUp_setBody_mirrors (hS : S.Mirrored M env) (hbody : body.Mirrors M env S name body') :
    MirrorsFor M env S name (lookUp (setBody · body) name)
      (fun _ => lookUp (setBody · body') name) fun S₁ s s' =>
        (∀ s₀ info, s = some s₀ → s₀.body = .type info → info.underlying ≠ none) ∧
        Option.Rel (Symbol.Fades M env S₁ name) s s' := by
  intro _ _ hstarted hrun
  cases hrun
  have hname := Store.not_isDone_of_started hstarted
  have hget : (S.withBody name body).symbols.get? name = _ :=
    Store.symbols_withBody_self (hS.bare name)
  refine ⟨hS.withBody hname hbody.fits, .withBody hname,
    (env.outline.symbols.get? name).map fun s => { s with body := body' }, ⟨?_, ?_⟩, ?_⟩
  · intro s₀ info hs₀ hinfo
    obtain ⟨s, -, rfl⟩ := Option.map_eq_some_iff.1 (hget.symm.trans hs₀)
    exact hbody.complete info hinfo
  · show Option.Rel _ ((S.withBody name body).symbols.get? name) _
    rw [hget]
    cases hs : env.outline.symbols.get? name with
    | none => exact .none
    | some s =>
      have hbare : body.bare = body'.bare := (hbody.fits s hs).symm.trans (hbody.fits' s hs)
      have hfades : ({ s with body } : Symbol).Fades M env S name { s with body := body' } :=
        ⟨by simp only [Symbol.bare, hbare], hbody.fades⟩
      exact .some (hfades.of_done fun _ hdone => hdone)
  · intro _ S' hsettled _ _ hstarted'
    refine ⟨S'.withBody name body', ?_, hsettled.withBody (Store.not_isDone_of_started hstarted')
      hbody.fits', .withBody⟩
    rw [← Store.symbols_withBody_self (hsettled.bare name)]
    rfl

theorem lookUp_resolveBody_mirrors (h : p.Thins M env.outline env.program) (houtline : env.outline.Sound)
    (hresolve : Mirroring M env resolve) (htolerates : M ≠ [] → env.Tolerates)
    (hkinds : M ≠ [] → env.KindsKnown) (hS : S.Mirrored M env)
    {symbol : Symbol} (hsymbol : env.outline.symbols.get? name = some symbol) :
    MirrorsFor M env S name (lookUp (resolveBody (env.amid p) resolve) name)
      (fun r => lookUp (resolveBody env r) name) fun S₁ s s' =>
        (∀ s₀ info, s = some s₀ → s₀.body = .type info → info.underlying ≠ none) ∧
        Option.Rel (Symbol.Fades M env S₁ name) s s' := by
  simp only [lookUp, resolveBody, hsymbol]
  cases hbody : symbol.body with
  | type info =>
    obtain ⟨decl, hdecl⟩ :=
      Option.isSome_iff_exists.1 (houtline.type name symbol info hsymbol hbody)
    simp only [hdecl, resolveType_eq, bind_assoc]
    exact (typeBody_mirrors h hresolve htolerates hkinds hS ⟨symbol, info, hsymbol, hbody⟩
      hdecl).bind fun S₁ body body' hS₁ _ hbodies => lookUp_setBody_mirrors hS₁ hbodies
  | const value type =>
    obtain ⟨decl, hdecl⟩ :=
      Option.isSome_iff_exists.1 (houtline.const name symbol value type hsymbol hbody)
    simp only [hdecl, resolveConst_eq, bind_assoc]
    exact (MirrorsFor.of_mirrors (constBody_mirrors h hresolve htolerates hkinds hS
      ⟨symbol, value, type, hsymbol, hbody⟩ hdecl)).bind fun S₁ body body' hS₁ _ hbodies =>
        lookUp_setBody_mirrors hS₁ hbodies

/-! ## Symbols -/

/-- A symbol that was not tried is done if its declaration was resolved. -/
theorem resolveSymbol_fresh_ok {S₂ : Store} (hmark : S.progress.get? name = none) :
    (resolveSymbol env (count + 1) name).run.run S = (.ok (), S₂) ↔
      ∃ S₁, (resolveBody env (resolveSymbol env count) name).run.run (S.withMark name .started) =
        (.ok (), S₁) ∧ S₂ = S₁.withMark name .done := by
  rw [resolveSymbol_fresh hmark]
  dsimp only
  rcases (resolveBody env (resolveSymbol env count) name).run.run
    (S.withMark name .started) with ⟨failure | ⟨⟩, S₁⟩
  · exact ⟨fun h => (nomatch h), fun ⟨_, h, _⟩ => (nomatch h)⟩
  · constructor
    · rintro ⟨⟩
      exact ⟨S₁, rfl, rfl⟩
    · rintro ⟨_, ⟨⟩, rfl⟩
      rfl

theorem isDone_of_resolveSymbol (hclean : S.progress.get? name ≠ some .failed)
    (hrun : (resolveSymbol env (count + 1) name).run.run S = (.ok (), S₁)) : S₁.IsDone name := by
  cases hmark : S.progress.get? name with
  | none =>
    obtain ⟨S₂, -, rfl⟩ := (resolveSymbol_fresh_ok hmark).1 hrun
    exact Table.get?_insert_self _ _ _
  | some mark =>
    cases mark with
    | started =>
      rw [resolveSymbol_started hmark] at hrun
      cases hrun
    | failed => exact absurd hmark hclean
    | done =>
      rw [resolveSymbol_tried hmark nofun] at hrun
      cases hrun
      exact hmark

/-- A symbol in work becomes `s`, in every store that a resolution may have reached. -/
def Becomes (env : Surroundings) (S : Store) (name : String) (s : Option Symbol) : Prop :=
  ∀ count S', S'.Settled env →
    (env.outline.symbols.contains name = true → S'.untried env.outline < count) → S.Clear S' →
    S'.progress.get? name = some .started →
    ∃ S₁', (resolveBody env (resolveSymbol env count) name).run.run S' = (.ok (), S₁') ∧
      S₁'.symbols.get? name = s ∧ S₁'.Settled env ∧ S'.Calm S₁'

theorem Becomes.fresh (h : Becomes env S name s)
    (hname : ¬ S.IsDone name) {S' : Store} (hsettled : S'.Settled env)
    (hcount : S'.untried env.outline < count) (hclear : S.Clear S')
    (hmark : S'.progress.get? name = none) :
    ∃ S₁', (lookUp (resolveSymbol env count) name).run.run S' = (.ok s, S₁'.withMark name .done) ∧
      S₁'.symbols.get? name = s ∧ S₁'.Settled env ∧ (S'.withMark name .started).Calm S₁' := by
  obtain ⟨count, rfl⟩ := Nat.exists_eq_add_one_of_ne_zero (Nat.ne_zero_of_lt hcount)
  have hclear' : S.Clear (S'.withMark name .started) := by
    intro name' hdone
    rw [Store.withMark, Table.get?_insert, if_neg (Store.ne_of_isDone hname hdone)]
    exact hclear name' hdone
  have hcount' (hdeclared : env.outline.symbols.contains name = true) :
      (S'.withMark name .started).untried env.outline < count :=
    Nat.lt_of_lt_of_le (Store.untried_withMark_lt (Table.mem_keys_iff.2 hdeclared) hmark)
      (Nat.le_of_lt_succ hcount)
  obtain ⟨S₁', hrun, rfl, hsettled₁, hcalm⟩ := h count (S'.withMark name .started)
    hsettled.withStart hcount' hclear' (Table.get?_insert_self _ _ _)
  refine ⟨S₁', ?_, rfl, hsettled₁, hcalm⟩
  rw [lookUp, Computation.run_bind_ok ((resolveSymbol_fresh_ok hmark).2 ⟨S₁', hrun, rfl⟩)]
  rfl

/-- Where nothing is resolved yet every symbol is fresh. -/
theorem Becomes.finds (h : Becomes env S name s)
    (hname : ¬ S.IsDone name) : env.Finds (lookUp · name) s := by
  obtain ⟨S₁', hrun, -⟩ := h.fresh hname (Store.start_settled env) (Store.untried_lt _ _)
    (fun _ _ hstarted => nomatch hstarted) rfl
  exact ⟨_, hrun⟩

/-- After a symbol is done, it is always what it has become. -/
theorem Becomes.always (h : Becomes env S name s)
    (hname : ¬ S.IsDone name) : Always env (S.withMark name .done) (lookUp · name) s := by
  intro count S' hsettled hcount hclear
  have hfinds := h.finds hname
  cases hmark : S'.progress.get? name with
  | none =>
    obtain ⟨S₁', hrun, hget, hsettled₁, hcalm⟩ := h.fresh hname hsettled hcount
      (fun name' hdone => hclear name' (hdone.withMark hname)) hmark
    refine ⟨_, hrun, hsettled₁.withDone (hget ▸ hfinds), ?_, ?_⟩
    · exact ((Store.Extends.refl S').withMark hmark |>.trans hcalm.marks).withMark hmark
    · intro name' hstarted
      rw [Store.withMark, Table.get?_insert] at hstarted
      split at hstarted
      · cases hstarted
      · have := hcalm.started name' hstarted
        rwa [Store.withMark, Table.get?_insert, if_neg ‹_›] at this
  | some mark =>
    cases mark with
    | started => exact absurd hmark (hclear name (Store.isDone_withMark.2 (by rw [if_pos rfl])))
    | failed => exact absurd hmark (hsettled.clean name)
    | done =>
      obtain ⟨count, rfl⟩ := Nat.exists_eq_add_one_of_ne_zero (Nat.ne_zero_of_lt hcount)
      refine ⟨S', ?_, hsettled, .refl S'⟩
      show (lookUp (resolveSymbol env (count + 1)) name).run.run S' = _
      rw [lookUp, Computation.run_bind_ok (resolveSymbol_tried hmark fun h => by cases h),
        hfinds.unique (hsettled.done name hmark)]
      rfl

section

variable (h : p.Thins M env.outline env.program) (houtline : env.outline.Sound)
  (htolerates : M ≠ [] → env.Tolerates)
  (hkinds : M ≠ [] → env.KindsKnown)

include h houtline htolerates hkinds

/-- Where the declaration of a symbol in work can be resolved, the second resolution always makes
the same of it. -/
theorem resolveBody_becomes (hresolve : Mirroring M env resolve) (hS : S.Mirrored M env)
    (hstarted : S.progress.get? name = some .started)
    (hrun : (resolveBody (env.amid p) resolve name).run.run S = (.ok (), S₁)) :
    S₁.Mirrored M env ∧ S.Grows S₁ ∧
      (∀ s info, S₁.symbols.get? name = some s → s.body = .type info → info.underlying ≠ none) ∧
      ∃ s', Option.Rel (Symbol.Fades M env S₁ name) (S₁.symbols.get? name) s' ∧
        Becomes env S₁ name s' := by
  cases hsymbol : env.outline.symbols.get? name with
  | none =>
    simp only [resolveBody, hsymbol] at hrun
    cases hrun
  | some symbol =>
    have hlookUp : (lookUp (resolveBody (env.amid p) resolve) name).run.run S =
        (.ok (S₁.symbols.get? name), S₁) := Computation.run_bind_ok hrun
    obtain ⟨hS₁, hgrows, s', ⟨hcomplete, hs'⟩, halways⟩ :=
      lookUp_resolveBody_mirrors h houtline hresolve htolerates hkinds hS hsymbol _ S₁ hstarted
        hlookUp
    refine ⟨hS₁, hgrows, hcomplete, s', hs', fun count S' hsettled hcount hclear hstarted' => ?_⟩
    obtain ⟨S₁', hrun', hsettled₁, hcalm⟩ := halways count S' hsettled
      (hcount (Table.contains_of_get? hsymbol)) hclear hstarted'
    obtain ⟨⟨⟩, S₂', hbody, hget⟩ := Computation.bind_eq_ok hrun'
    cases hget
    exact ⟨S₁', hbody, rfl, hsettled₁, hcalm⟩

/-- Symbols that the first resolution completes can be resolved without the packages `M`. -/
theorem resolveSymbol_mirroring (count : Nat) :
    Mirroring M env (resolveSymbol (env.amid p) count) := by
  induction count with
  | zero => exact fun _ _ _ _ hrun => nomatch hrun
  | succ count ih =>
    intro S name S₂ hS hrun
    cases hmark : S.progress.get? name with
    | none =>
      obtain ⟨S₁, hbody, rfl⟩ := (resolveSymbol_fresh_ok hmark).1 hrun
      have hname : ¬ S.IsDone name := fun hdone => nomatch hmark.symm.trans hdone
      have hstarted : (S.withMark name .started).progress.get? name = some .started :=
        Table.get?_insert_self _ _ _
      obtain ⟨hS₁, hgrows, hcomplete, s', hs', hbecomes⟩ := resolveBody_becomes h houtline
        htolerates hkinds ih (hS.withStart hname) hstarted hbody
      have hname₁ := Store.not_isDone_of_started (hgrows.marks name .started hstarted)
      refine ⟨hS₁.withDone hname₁ hcomplete hs' (hbecomes.always hname₁), ⟨?_, ?_⟩,
        Table.get?_insert_self _ _ _⟩
      · exact (((Store.Extends.refl S).withMark hmark).trans hgrows.marks).withMark hmark
      · exact fun name' hdone => hgrows.symbol name' (hdone.withMark hname)
    | some mark =>
      cases mark with
      | started =>
        rw [resolveSymbol_started hmark] at hrun
        cases hrun
      | failed => exact absurd hmark (hS.clean name)
      | done =>
        rw [resolveSymbol_tried hmark nofun] at hrun
        cases hrun
        exact ⟨hS, .refl S, hmark⟩

end

end Resolving

end DeclBridge
