import DeclBridge.Proofs.RequestOrder
import DeclBridge.Proofs.Scoping

/-!
# What references lead to

A name stands for a type only where a type of that name is declared.  So a reference to a package
that was loaded leads to a declared type, and it is an alias where the declaration is one
(`Program.Declares`).

While a package is resolved, its own declarations are looked up in a store that is not complete yet.
What is found of a type is all the same what the loaded program says of it in the end, since a symbol
is looked up only when it is done.  `Program.follow` and `Program.kindOf` read off the loaded program
what resolution finds on its way (`Resolving.follow_found`, `Resolving.kindOf_found`).
-/

namespace DeclBridge

open Resolving Outline List

variable {id : SymbolId} {args : List Ty} {name : String} {isAlias : Bool} {J : Store → Prop}
  {info : TypeInfo} {pos : Position} {s : Option Symbol} {p : Program} {t : Ty} {env : Surroundings}
  {T : Ty → Prop} {package : Package} {path : String} {G : Symbol → Prop} {params : List TypeParam}
  {packages : Table String Package} {S₀ : Store} {decl : TypeDecl} {symbol : Symbol} {scope : Scope}
  {names : List String} {sources : Sources}

/-! ## References in types -/

namespace Ty

variable {T T' : Bool → SymbolId → Prop}

theorem Refers.mono (hT : ∀ isAlias id, T isAlias id → T' isAlias id) (h : t.Refers T) :
    t.Refers T' :=
  fun u hu isAlias id heq => hT isAlias id (h u hu isAlias id heq)

theorem Refers.part (h : t.Refers T) {u : Ty} (hu : u ∈ t.parts) : u.Refers T :=
  fun v hv => h v (parts_trans hu hv)

theorem refers_of_children (hsymbol : t.symbol? = none) (h : ∀ c ∈ t.children, c.Refers T) :
    t.Refers T := by
  refine refers_iff.2 ⟨fun isAlias id heq => ?_, h⟩
  cases t with
  | named | aliased => cases hsymbol
  | _ => cases heq

theorem refers_named : (named id args).Refers T ↔ T false id ∧ ∀ a ∈ args, a.Refers T := by
  rw [refers_iff]
  refine and_congr_left fun _ => ⟨fun h => h _ _ rfl, fun h _ _ heq => ?_⟩
  cases heq
  exact h

theorem refers_aliased : (aliased id args).Refers T ↔ T true id ∧ ∀ a ∈ args, a.Refers T := by
  rw [refers_iff]
  refine and_congr_left fun _ => ⟨fun h => h _ _ rfl, fun h _ _ heq => ?_⟩
  cases heq
  exact h

theorem refers_reference : (reference isAlias id args).Refers T ↔
      T isAlias id ∧ ∀ a ∈ args, a.Refers T := by
  cases isAlias with
  | false => exact refers_named
  | true => exact refers_aliased

end Ty

/-! ## What a program says of types -/

namespace Program

/-- A type of a package that was loaded is declared there, as an alias or not. -/
def Declares (p : Program) (isAlias : Bool) (id : SymbolId) : Prop :=
  ∀ path package, id.package = some path → p.packages.get? path = some package →
    ∃ s info, package.symbols.get? id.name = some s ∧ s.body = .type info ∧
      info.isAlias = isAlias

/-- A reference that means the same among some packages of a program as in the whole of it. -/
structure Knows (p : Program) (packages : Table String Package) (isAlias : Bool) (id : SymbolId) :
    Prop where
  declares : p.Declares isAlias id
  same : ∀ path, id.package = some path → packages.get? path = p.packages.get? path

/-- What a reference to a declared type leads to by one step. -/
def follow (p : Program) (part : TypeInfo → Option Ty) (id : SymbolId) (args : List Ty) :
    Option Ty :=
  match id.package with
  | none => if id.name = "error" then some errorInterface else none
  | some _ =>
    let info := p.typeInfo id
    (part info).map (instantiate info.params args)

/-- The structural type behind a type, unless there are more than `count` aliases before it. -/
def underlyingWithin (p : Program) : (count : Nat) → Ty → Option Ty
  | 0, _ => none
  | count + 1, t =>
    match t with
    | .named id args => some ((p.follow (·.underlying) id args).getD t)
    | .aliased id args =>
      match p.follow (·.rhs) id args with
      | some aliased => underlyingWithin p count aliased
      | none => some t
    | t => some t

theorem underlyingWithin_self (p : Program) (count : Nat) (ht : t.symbol? = none) :
    p.underlyingWithin (count + 1) t = some t := by
  cases t with
  | named | aliased => cases ht
  | _ => rfl

/-- The basic kind of a type, if it has one. -/
def kindOf (p : Program) (limit : Nat) (t : Ty) : Option Kind :=
  match t.symbol? with
  | none => t.kind?
  | some _ => (p.underlyingWithin limit t).bind Ty.kind?

theorem kindOf_named {kind : Kind} (limit : Nat) (args : List Ty)
    (h : (p.typeInfo id).underlying = some (.basic kind)) :
    p.kindOf (limit + 1) (.named id args) = some kind := by
  obtain ⟨path, -, -, hpath, -⟩ := typeInfo_eq h
  simp only [kindOf, Ty.symbol?, underlyingWithin, follow, hpath, h, Option.map_some,
    Option.getD_some, Option.bind_some, instantiate, Ty.subst, Ty.kind?]

end Program

/-! ## Symbols that are done -/

/-- Without packages that are missing a type is the same. -/
theorem TypeInfo.Fades.eq {info' : TypeInfo} (h : info.Fades [] info') : info = info' := by
  have hstubbed : Ty.stubbed [] = id := funext Ty.stubbed_nil
  obtain ⟨underlying, params, isAlias, rhs⟩ := info
  obtain ⟨underlying', params', isAlias', rhs'⟩ := info'
  obtain ⟨hparams, halias, hrhs, hunder⟩ := h
  simp only [hstubbed, Option.map_id_fun, id_eq, map_id_fun'] at hparams hrhs
  obtain rfl : underlying = underlying' := by
    cases hunder with
    | none => rfl
    | some hbehind =>
      rcases hbehind with halike | ⟨id, -, hin⟩
      · rw [halike.eq]
      · obtain ⟨path, hpath, -⟩ := SymbolId.isIn_iff.1 hin
        exact absurd hpath not_mem_nil
  obtain rfl := show isAlias = isAlias' from halias
  rw [hparams, hrhs]

/-- What is stored of a type that is done is what is found where nothing is resolved yet. -/
theorem Store.Mirrored.typeInfo?_eq {S : Store} (h : S.Mirrored [] env) (hdone : S.IsDone name)
    (hs : env.Finds (lookUp · name) s) :
    (S.symbols.get? name).bind Symbol.typeInfo? = s.bind Symbol.typeInfo? := by
  obtain ⟨s', hrel, halways⟩ := h.done name hdone
  obtain rfl := halways.finds.unique hs
  generalize S.symbols.get? name = found at hrel ⊢
  cases hrel with
  | none => rfl
  | @some s s' hfades =>
    have hbody := hfades.body
    rw [Option.bind_some, Option.bind_some, Symbol.typeInfo?, Symbol.typeInfo?]
    generalize s.body = body, s'.body = body' at hbody ⊢
    cases hbody with
    | type hinfo => exact congrArg some hinfo.eq
    | const => rfl

/-- The resolution of one package of a loaded program, after other packages whose symbols have the
property `G`. -/
structure Surroundings.Stage (p : Program) (G : Symbol → Prop) (env : Surroundings)
    (package : Package) : Prop where
  outline : env.outline.Sound
  resolves : env.outline.resolveWithin env.limit env.program = .ok package
  own : p.packages.get? env.outline.path = some package
  others : ∀ path Q, env.program.packages.get? path = some Q →
    p.packages.get? path = some Q ∧ ∀ name s, Q.symbols.get? name = some s →
      s.name = name ∧ s.package = some path ∧ G s
  imports : ∀ path ∈ env.outline.imports, path ≠ env.outline.path ∧
    env.program.packages.get? path = p.packages.get? path

/-- A store of a resolution that began in `S₀`, whose symbols have the property `G` when they are
done. -/
structure Store.DoneIn (env : Surroundings) (G : Symbol → Prop) (S₀ S : Store) : Prop where
  mirrored : S.Mirrored [] env
  done : ∀ name s, S.IsDone name → S.symbols.get? name = some s → G s
  marks : S₀.Extends S

theorem Store.DoneIn.id_eq {S : Store} {s : Symbol}
    (h : Store.DoneIn env G S₀ S) (houtline : env.outline.Sound) (hs : S.symbols.get? name = some s) :
    s.id = ⟨some env.outline.path, name⟩ := by
  have hbare := h.mirrored.bare name
  rw [hs, Option.map_some] at hbare
  obtain ⟨symbol, hsymbol, heq⟩ := Option.map_eq_some_iff.1 hbare.symm
  obtain ⟨hname, hpackage⟩ := houtline.symbol name symbol hsymbol
  rw [Symbol.id, ← hname, ← hpackage]
  exact (congrArg Symbol.id heq).symm

/-- A way to resolve another symbol after which that one is done. -/
def Resolving.Completes (env : Surroundings) (G : Symbol → Prop) (S₀ : Store)
    (resolve : String → Resolving Unit) : Prop :=
  ∀ name, Triple (Store.DoneIn env G S₀) (resolve name)
    (fun _ S => Store.DoneIn env G S₀ S ∧ S.IsDone name) fun _ _ => True

/-- What a program says of a type: nothing, or what a symbol with the property `G` has. -/
def Program.Has (p : Program) (G : Symbol → Prop) (id : SymbolId) : Prop :=
  p.typeInfo id = {} ∨ ∃ s, s.id = id ∧ s.body = .type (p.typeInfo id) ∧ G s

/-- A property of types that is passed on where a reference is followed. -/
def Program.Passes (p : Program) (G : Symbol → Prop) (T : Ty → Prop) : Prop :=
  ∀ isAlias id args u, p.Has G id → T (reference isAlias id args) →
    p.follow (if isAlias then (·.rhs) else (·.underlying)) id args = some u → T u

/-- What a type is resolved to, from its parameters, the type that it is declared with and the
structure behind that. -/
def TypeDecl.resolved (decl : TypeDecl) (params : List TypeParam) (type behind : Ty) : TypeInfo where
  params := params
  isAlias := decl.spec.isAlias
  rhs := if decl.spec.isAlias then some type else none
  underlying := some behind

theorem TypeDecl.forall_types
    {type behind : Ty} (hbody : symbol.body = .type (decl.resolved params type behind))
    (hparams : ∀ q ∈ params, ∀ t, q.constraint = some t → T t) (htype : T type)
    (hbehind : T behind) : ∀ t ∈ symbol.types, T t := by
  refine (Symbol.forall_types_iff hbody).2 ⟨hparams, fun t ht => ?_, fun t ht => ?_⟩
  · rw [resolved] at ht
    split at ht
    · cases ht
      exact htype
    · cases ht
  · cases ht
    exact hbehind

theorem Program.typeInfo_symbol (p : Program) (id : SymbolId) : p.typeInfo id =
    (((id.package.bind p.packages.get?).bind fun Q => Q.symbols.get? id.name).bind
      Symbol.typeInfo?).getD {} := by
  rw [typeInfo]
  cases id.package.bind p.packages.get? <;> rfl

namespace Surroundings

/-- The references that the types of a package may have. -/
abbrev References (p : Program) (env : Surroundings) (package : Package) :
    Bool → SymbolId → Prop :=
  p.Knows (env.program.packages.insert env.outline.path package)

theorem typeInfo_other (hid : env.References p package isAlias id)
    (hother : id.package ≠ some env.outline.path) : env.program.typeInfo id = p.typeInfo id := by
  rw [Program.typeInfo, Program.typeInfo]
  cases hpackage : id.package with
  | none => rfl
  | some path =>
    have hne : env.outline.path ≠ path := fun heq => hother (heq ▸ hpackage)
    have hsame := hid.same path hpackage
    rw [Table.get?_insert_of_ne _ _ hne] at hsame
    rw [Option.bind_some, Option.bind_some, hsame]

namespace Stage

theorem foundIn (h : env.Stage p G package) : package.FoundIn env :=
  foundIn_of_resolveWithin h.outline h.resolves

theorem typeInfo_own (h : env.Stage p G package) (hid : id.package = some env.outline.path) :
    p.typeInfo id = ((package.symbols.get? id.name).bind Symbol.typeInfo?).getD {} := by
  rw [Program.typeInfo, hid, Option.bind_some, h.own]

theorem within (h : env.Stage p G package) : env.Within fun _ => True where
  own := trivial
  outline name s hs := (h.outline.symbol name s hs).2
  program path Q _ hQ name s hs :=
    ⟨((h.others path Q hQ).2 name s hs).2.1, fun _ _ _ _ _ _ _ => trivial⟩

end Stage

end Surroundings

namespace Resolving

variable {resolve : String → Resolving Unit}

theorem Completes.confined (hresolve : Completes env G S₀ resolve) (hstage : env.Stage p G package) :
    Confined (fun _ => True) env resolve (Store.DoneIn env G S₀) :=
  ⟨hstage.within, fun _ _ _ _ _ _ _ _ _ _ _ _ => trivial, fun name =>
    (hresolve name).post (fun _ _ h => h.1)⟩

/-! ## Looking up types -/

theorem instantiate_refers {T : Bool → SymbolId → Prop}
    (hargs : ∀ a ∈ args, a.Refers T) (ht : t.Refers T) : (instantiate params args t).Refers T :=
  Ty.Refers.subst (fun _ u hu => hargs u (of_mem_zip (Table.mem_of_get?_ofList hu)).2) ht

/-- A property that passes from what declared types are made of to the instances of these. -/
theorem passes_of_instances (herror : T errorInterface)
    (h : ∀ s info isAlias args t, G s → s.body = .type info → t ∈ s.types →
      T (reference isAlias s.id args) → T (instantiate info.params args t)) : p.Passes G T := by
  intro isAlias id args u hhas ht hu
  rw [Program.follow] at hu
  split at hu
  · split at hu
    · cases hu
      exact herror
    · cases hu
  · obtain ⟨v, hv, rfl⟩ := Option.map_eq_some_iff.1 hu
    rcases hhas with hempty | ⟨s, rfl, hbody, hs⟩
    · rw [hempty] at hv
      cases isAlias <;> cases hv
    · refine h s _ isAlias args v hs hbody ?_ ht
      rw [Symbol.types, hbody]
      cases isAlias with
      | false => exact mem_append_right _ (Option.mem_toList.2 hv)
      | true => exact mem_append_left _ (mem_append_right _ (Option.mem_toList.2 hv))

theorem passes_refers {T : Bool → SymbolId → Prop}
    (hG : ∀ s info, G s → s.body = .type info → ∀ t ∈ s.types, t.Refers T) :
    p.Passes G (Ty.Refers T) :=
  passes_of_instances (Ty.refers_of_children rfl (forall_mem_nil _))
    fun s info _ _ t hs hbody ht href =>
      instantiate_refers (Ty.refers_reference.1 href).2 (hG s info hs hbody t ht)

section

variable (hstage : env.Stage p G package) (hresolve : Completes env G S₀ resolve)

include hstage hresolve

/-- A symbol of the package has the property when it is looked up, and a type is then what it is in
the end. -/
theorem lookUp_found (name : String) : Gives (Store.DoneIn env G S₀) (lookUp resolve name) fun s =>
    s.bind Symbol.typeInfo? = (package.symbols.get? name).bind Symbol.typeInfo? ∧
      ∀ found, s = some found → found.id = ⟨some env.outline.path, name⟩ ∧ G found := by
  refine Triple.bind (hresolve name) fun _ => ?_
  refine .get_bind fun found h => .pure fun S heq => ?_
  obtain ⟨hS, hdone⟩ := h
  subst heq
  refine ⟨hS, ?_, fun s hs => ⟨hS.id_eq hstage.outline hs, hS.done name s hdone hs⟩⟩
  cases hdeclared : env.outline.symbols.get? name with
  | none =>
    -- what is not declared is not stored either
    have hbare := hS.mirrored.bare name
    rw [hdeclared, Option.map_none, Option.map_eq_none_iff] at hbare
    rw [hbare, hstage.foundIn.others name hdeclared]
  | some symbol =>
    exact hS.mirrored.typeInfo?_eq hdone
      (hstage.foundIn.declared name (Table.contains_of_get? hdeclared))

/-- What a reference leads to is what the loaded program says. -/
theorem follow_found (part : TypeInfo → Option Ty) (hid : env.References p package isAlias id) :
    Gives (Store.DoneIn env G S₀) (follow env resolve part id args) fun found =>
      found = p.follow part id args ∧ p.Has G id := by
  have hhas {s : Option Symbol} (hinfo : p.typeInfo id = (s.bind Symbol.typeInfo?).getD {})
      (hs : ∀ found, s = some found → found.id = id ∧ G found) : p.Has G id := by
    cases s with
    | none => exact .inl hinfo
    | some found =>
      rw [Option.bind_some, Symbol.typeInfo?] at hinfo
      split at hinfo
      · exact .inr ⟨found, (hs found rfl).1, hinfo ▸ ‹_›, (hs found rfl).2⟩
      · exact .inl hinfo
  cases hpackage : id.package with
  | none =>
    simp only [follow, Program.follow, hpackage]
    refine .pure ⟨rfl, .inl ?_⟩
    rw [Program.typeInfo, hpackage]
    rfl
  | some path =>
    simp only [Program.follow, hpackage]
    by_cases hown : path = env.outline.path
    · subst hown
      have hid : (⟨some env.outline.path, id.name⟩ : SymbolId) = id := by rw [← hpackage]
      rw [follow_own env hpackage]
      refine (lookUp_found hstage hresolve id.name).bind fun s hs => .pure ?_
      have hinfo : p.typeInfo id = (s.bind Symbol.typeInfo?).getD {} := by
        rw [hs.1, hstage.typeInfo_own hpackage]
      exact ⟨by rw [hinfo], hhas hinfo fun found hfound => hid ▸ hs.2 found hfound⟩
    · rw [follow_other env hpackage hown]
      have hother : id.package ≠ some env.outline.path := by
        rw [hpackage]
        exact fun heq => hown (Option.some.inj heq)
      have hsame := Surroundings.typeInfo_other hid hother
      refine .pure ⟨by rw [hsame], ?_⟩
      refine hhas (hsame.symm.trans (Program.typeInfo_symbol _ _)) fun found hfound => ?_
      rw [hpackage, Option.bind_some] at hfound
      obtain ⟨Q, hQ, hs⟩ := Option.bind_eq_some_iff.1 hfound
      obtain ⟨hname, hown, hG⟩ := (hstage.others path Q hQ).2 id.name found hs
      exact ⟨by rw [Symbol.id, hname, hown, ← hpackage], hG⟩

theorem underlyingWithin_found (hT : p.Passes G T)
    (hrefers : ∀ t, T t → t.Refers (env.References p package)) {count : Nat} (ht : T t) :
    Gives (Store.DoneIn env G S₀) (underlyingWithin env resolve count t) fun u =>
      p.underlyingWithin count t = some u ∧ T u := by
  induction count generalizing t with
  | zero => exact .throw
  | succ count ih =>
    unfold underlyingWithin
    split
    · rename_i id args
      refine (follow_found hstage hresolve (·.underlying)
        (Ty.refers_named.1 (hrefers _ ht)).1).bind fun found hfound => .pure ⟨?_, ?_⟩
      · rw [Program.underlyingWithin, hfound.1]
      · cases found with
        | none => exact ht
        | some u => exact hT false id args u hfound.2 ht hfound.1.symm
    · rename_i id args
      refine (follow_found hstage hresolve (·.rhs)
        (Ty.refers_aliased.1 (hrefers _ ht)).1).bind fun found hfound => ?_
      rw [Program.underlyingWithin, ← hfound.1]
      cases found with
      | none => exact .pure ⟨rfl, ht⟩
      | some u => exact ih (hT true id args u hfound.2 ht hfound.1.symm)
    · rename_i hnamed haliased
      refine .pure ⟨?_, ht⟩
      refine p.underlyingWithin_self count ?_
      cases t with
      | named => exact absurd rfl (hnamed _ _)
      | aliased => exact absurd rfl (haliased _ _)
      | _ => rfl

variable (hG : ∀ s info, G s → s.body = .type info → ∀ t ∈ s.types,
  t.Refers (env.References p package))

include hG

/-- The kind of a type is what the loaded program says. -/
theorem kindOf_found (ht : t.Refers (env.References p package)) :
    Gives (Store.DoneIn env G S₀) (kindOf env resolve t) fun kind =>
      kind = p.kindOf env.limit t := by
  rw [Program.kindOf]
  cases hsymbol : t.symbol? with
  | none =>
    rw [kindOf_of_none hsymbol]
    exact .pure rfl
  | some id =>
    rw [kindOf_of_some hsymbol]
    refine (underlyingWithin_found hstage hresolve (passes_refers hG) (fun _ h => h) ht).bind
      fun u hu => .pure ?_
    rw [hu.1, Option.bind_some]

end

/-! ## Names -/

/-- What the package declares as a type the program has as one. -/
theorem declares_own (hstage : env.Stage p G package)
    (hsymbol : env.outline.symbols.get? name = some symbol) (hbody : symbol.body = .type info) :
    p.Declares ((env.outline.types.get? name).any (·.spec.isAlias))
      ⟨some env.outline.path, name⟩ := by
  obtain ⟨decl, hdecl⟩ := Option.isSome_iff_exists.1
    (hstage.outline.type name symbol info hsymbol hbody)
  -- the symbol is what resolving its declaration first leaves in the store
  obtain ⟨S₂, hfound⟩ := hstage.foundIn.declared name (Table.contains_of_get? hsymbol)
  obtain ⟨⟨⟩, S, hresolve, hget⟩ := Computation.bind_eq_ok hfound
  have hbare := (resolveSymbol_mirroring_self hstage.outline _ _ name S
    (Store.start_mirrored [] env) hresolve).1.bare name
  obtain ⟨S₁, hrun, rfl⟩ := (resolveSymbol_fresh_ok rfl).1 hresolve
  have hstored : S₁.symbols.get? name = package.symbols.get? name :=
    Except.ok.inj (Prod.mk.inj hget).1
  simp only [resolveBody, hsymbol, hbody, hdecl] at hrun
  intro path Q hpath hQ
  cases hpath
  obtain rfl : package = Q := Option.some.inj (hstage.own.symm.trans hQ)
  rw [hsymbol, Option.map_some] at hbare
  obtain ⟨s, hs, -⟩ := Option.map_eq_some_iff.1 hbare
  obtain ⟨-, info', hinfo', halias⟩ := (resolveType_stores (J := fun _ => True)).ok trivial hrun s hs
  refine ⟨s, info', hstored ▸ hs, hinfo', ?_⟩
  rw [hdecl, halias]
  rfl

/-- What is imported belongs to another package, and is there in the whole program. -/
theorem imported_found (hstage : env.Stage p G package)
    (hscope : scope.ImportsFrom env.outline.imports) {label : String} :
    Gives J (imported env scope label name pos) fun s => (s.body = .type {} ∨ G s) ∧
      ∀ info, s.body = .type info → env.References p package info.isAlias s.id := by
  have hinsert {path : String} (hpath : scope.imports.get? label = some path) :
      (env.program.packages.insert env.outline.path package).get? path = p.packages.get? path := by
    obtain ⟨hne, hsame⟩ := hstage.imports path (hscope label path hpath)
    rw [Table.get?_insert_of_ne _ _ (Ne.symm hne), hsame]
  refine Judgement.single_imported (P := fun _ => True) (fun _ _ _ _ => trivial) trivial
    (fun path hpath hnone => ?_) fun path Q s hpath hQ hs => ?_
  · refine ⟨.inl rfl, fun info hinfo => ⟨fun path' Q hpath' hQ => ?_, fun path' hpath' => ?_⟩⟩
    · cases hpath'
      rw [← (hstage.imports path (hscope label path hpath)).2, hnone] at hQ
      cases hQ
    · cases hpath'
      exact hinsert hpath
  · obtain ⟨hname, hpackage, hG⟩ := (hstage.others path Q hQ).2 name s hs
    refine ⟨.inr hG, fun info hinfo => ⟨fun path' Q' hpath' hQ' => ?_, fun path' hpath' => ?_⟩⟩
    all_goals
      rw [Symbol.id, hpackage] at hpath'
      cases hpath'
    · rw [← (hstage.imports path (hscope label path hpath)).2, hQ] at hQ'
      cases hQ'
      exact ⟨s, info, by rw [Symbol.id, hname]; exact hs, hinfo, rfl⟩
    · exact hinsert hpath

/-- A name stands for a parameter, for a declared type or for a predeclared one. -/
theorem typeNamed_found (hstage : env.Stage p G package)
    (hscope : scope.ImportsFrom env.outline.imports)
    {params : Table String Ty} (hparams : ParamTable names params) {label : Option String}
    (hargs : ∀ a ∈ args, a.Refers (env.References p package)) :
    Gives J (typeNamed env scope params pos label name args)
      (Ty.Refers (env.References p package)) := by
  refine typeNamed_gives (fun label _ => ?_) (fun t ht => ?_) (fun _ _ s info hs hbody => ?_)
    fun t ht => ?_
  · exact (imported_found hstage hscope).mono fun s hs info hinfo =>
      Ty.refers_reference.2 ⟨hs.2 info hinfo, hargs⟩
  · obtain ⟨-, index, rfl⟩ := hparams.param name t ht
    exact Ty.refers_of_children rfl (forall_mem_nil _)
  · obtain ⟨hname, hpackage⟩ := hstage.outline.symbol name s hs
    refine Ty.refers_reference.2 ⟨⟨?_, fun path hpath => ?_⟩, hargs⟩
    · rw [Symbol.id, hname, hpackage]
      exact declares_own hstage hs hbody
    · rw [Symbol.id, hpackage] at hpath
      cases hpath
      rw [Table.get?_insert_self, hstage.own]
  · refine predeclared?_mem (fun t _ hsymbol hnone => ?_) (fun name' => ?_) ht
    · refine Ty.refers_of_children hsymbol fun _ hc => ?_
      rw [hnone] at hc
      cases hc
    · refine Ty.refers_named.2 ⟨⟨fun _ _ hpath => ?_, fun _ hpath => ?_⟩, by simp⟩
      all_goals cases hpath

/-! ## Declarations -/

section

variable (hstage : env.Stage p G package) (hresolve : Completes env G S₀ resolve)
  (hG : ∀ s info, G s → s.body = .type info → ∀ t ∈ s.types,
    t.Refers (env.References p package))
  (hscope : scope.ImportsFrom env.outline.imports) {params : Table String Ty}
  (hparams : ParamTable names params)

include hstage hresolve hG hscope hparams

theorem carries_references : Carries env resolve (Store.DoneIn env G S₀) scope params
    (Ty.Refers (env.References p package)) fun _ => True where
  made _ _ hsymbol hchildren := Ty.refers_of_children hsymbol hchildren
  part _ _ _ _ := trivial
  named _ _ _ _ _ _ _ hargs := typeNamed_found hstage hscope hparams hargs
  length _ _ := (hresolve.confined hstage).arrayLength_gives fun _ _ _ => trivial
  behind _ ht := (underlyingWithin_found hstage hresolve (passes_refers hG) (fun _ h => h) ht).mono
    fun _ _ => trivial

end

theorem setBody_done {body : SymbolBody}
    (hstarted : S₀.progress.get? name = some .started) (hfits : Store.Fits env.outline name body) :
    Triple (Store.DoneIn env G S₀) (setBody name body)
      (fun _ S => Store.DoneIn env G S₀ S ∧ ∀ s, S.symbols.get? name = some s → s.body = body)
      fun _ _ => True := by
  refine .update fun S hS => ?_
  have hname : ¬ S.IsDone name := Store.not_isDone_of_started (hS.marks name _ hstarted)
  refine ⟨⟨hS.mirrored.withBody hname hfits, fun name' s hdone hs => ?_, hS.marks.withBody⟩,
    fun s hs => Store.body_withBody hs⟩
  obtain ⟨s₀, hs₀, -, ⟨rfl, -⟩ | ⟨-, rfl⟩⟩ := Store.get?_withBody hs
  · exact absurd hdone hname
  · exact hS.done name' s hdone hs₀

/-- What a declared type is resolved to has the properties that its parts have. -/
theorem resolveType_found (hstage : env.Stage p G package) (hresolve : Completes env G S₀ resolve)
    (hstarted : S₀.progress.get? name = some .started)
    (hdeclares : env.outline.DeclaresType name) {Q : List TypeParam → Prop} {T T' : Ty → Prop}
    (hparams : Gives (Store.DoneIn env G S₀)
      (paramsOf env resolve decl.scope (paramTypes decl.spec.params) decl.spec.params) Q)
    (htype : Gives (Store.DoneIn env G S₀)
      (typeOf env resolve decl.scope (paramTypes decl.spec.params) decl.spec.type) T')
    (hT' : ∀ t, T' t → T t) (hT : p.Passes G T)
    (hrefers : ∀ t, T t → t.Refers (env.References p package)) :
    Triple (Store.DoneIn env G S₀) (resolveType env resolve name decl)
      (fun _ S => Store.DoneIn env G S₀ S ∧ ∀ s, S.symbols.get? name = some s →
        ∃ params type behind, s.body = .type (decl.resolved params type behind) ∧ Q params ∧ T' type ∧
          T behind ∧ p.underlyingWithin env.limit type = some behind) fun _ _ => True := by
  have hset (info : TypeInfo) : Gives (Store.DoneIn env G S₀) (setBody name (.type info))
      fun _ => True :=
    (setBody_done hstarted (Store.fits_type hdeclares info)).post
      (fun _ _ h => ⟨h.1, trivial⟩)
  rw [resolveType]
  refine hparams.bind_triple fun params hparams => ?_
  refine (hset _).bind_triple fun _ _ => ?_
  refine htype.bind_triple fun type htype => ?_
  refine (hset _).bind_triple fun _ _ => ?_
  refine (underlyingWithin_found hstage hresolve hT hrefers (hT' type htype)).bind_triple
    fun behind hbehind => ?_
  refine (setBody_done hstarted (Store.fits_type hdeclares _)).post (fun _ S hS => ⟨hS.1,
    fun s hs => ⟨params, type, behind, (hS.2 s hs).trans ?_, hparams, htype, hbehind.2, hbehind.1⟩⟩)
  rw [TypeDecl.resolved]
  cases decl.spec.isAlias <;> rfl

/-- A resolution that leaves a symbol with the property. -/
abbrev Yields (env : Surroundings) (G : Symbol → Prop) (S₀ : Store) (name : String)
    (x : Resolving Unit) : Prop :=
  Triple (Store.DoneIn env G S₀) x (fun _ S => Store.DoneIn env G S₀ S ∧
    ∀ s, S.symbols.get? name = some s → G s) fun _ _ => True

/-- A property of types says nothing of constants. -/
theorem resolveConst_yields (hstage : env.Stage p G package)
    (hresolve : Completes env G S₀ resolve) {decl : ConstDecl}
    (hstarted : S₀.progress.get? name = some .started) (hdeclares : env.outline.DeclaresConst name)
    (hG : ∀ s value type, s.body = .const value type → G s) :
    Yields env G S₀ name (resolveConst env resolve name decl) := by
  have hconfined := hresolve.confined hstage
  have hscope : decl.scope.Within fun _ => True := fun _ _ _ => trivial
  have hconst := hconfined.leads.looks.resolveConst name (hconfined.imports hscope) trivial
    (fun _ _ => .all _) (fun _ _ _ _ => .all _)
    fun value type _ => by
      simp only [Judgement.single, SymbolBody.moved]
      exact (setBody_done hstarted (Store.fits_const hdeclares _ _)).post
        (fun _ _ h => ⟨h.1, trivial⟩)
  simp only [Judgement.single, ConstDecl.moved_stay] at hconst
  refine (hconst.and resolveConst_stores).weaken (fun _ h => h) (fun _ S hS => ⟨hS.1.1, ?_⟩)
    fun _ _ _ => trivial
  intro s hs
  obtain ⟨value, type, hbody⟩ := hS.2 s hs
  exact hG s value type hbody

/-- The symbols of the package have the property when they are done, if the resolution of each
declaration gives it. -/
theorem resolveSymbol_completes (hstage : env.Stage p G package)
    (htype : ∀ count S₀ name decl, Completes env G S₀ (resolveSymbol env count) →
      S₀.progress.get? name = some .started → env.outline.DeclaresType name →
      env.outline.types.get? name = some decl →
      Yields env G S₀ name (resolveType env (resolveSymbol env count) name decl))
    (hconst : ∀ count S₀ name decl, Completes env G S₀ (resolveSymbol env count) →
      S₀.progress.get? name = some .started → env.outline.DeclaresConst name →
      env.outline.consts.get? name = some decl →
      Yields env G S₀ name (resolveConst env (resolveSymbol env count) name decl))
    (count : Nat) (S₀ : Store) : Completes env G S₀ (resolveSymbol env count) := by
  have hbody (count : Nat) (S₀ : Store) (name : String)
      (hresolve : Completes env G S₀ (resolveSymbol env count))
      (hstarted : S₀.progress.get? name = some .started) :
      Yields env G S₀ name (resolveBody env (resolveSymbol env count) name) := by
    cases hsymbol : env.outline.symbols.get? name with
    | none =>
      simp only [resolveBody, hsymbol]
      exact .throw fun _ _ => trivial
    | some symbol =>
      cases hbody : symbol.body with
      | type info =>
        obtain ⟨decl, hdecl⟩ := Option.isSome_iff_exists.1
          (hstage.outline.type name symbol info hsymbol hbody)
        simp only [resolveBody, hsymbol, hbody, hdecl]
        exact htype count S₀ name decl hresolve hstarted ⟨symbol, info, hsymbol, hbody⟩ hdecl
      | const value type =>
        obtain ⟨decl, hdecl⟩ := Option.isSome_iff_exists.1
          (hstage.outline.const name symbol value type hsymbol hbody)
        simp only [resolveBody, hsymbol, hbody, hdecl]
        exact hconst count S₀ name decl hresolve hstarted ⟨symbol, value, type, hsymbol, hbody⟩ hdecl
  induction count generalizing S₀ with
  | zero => exact fun _ => .throw fun _ _ => trivial
  | succ count ih =>
    intro name S hS
    rcases hrun : (resolveSymbol env (count + 1) name).run.run S with ⟨failure | ⟨⟩, S'⟩
    · trivial
    · obtain ⟨hmirrored, hgrows, hdone⟩ :=
        resolveSymbol_mirroring_self hstage.outline _ S name S' hS.mirrored hrun
      refine ⟨⟨hmirrored, ?_, hS.marks.trans hgrows.marks⟩, hdone⟩
      cases hmark : S.progress.get? name with
      | some mark =>
        -- a symbol that was tried is left as it is
        cases mark with
        | started =>
          rw [resolveSymbol_started hmark] at hrun
          cases hrun
        | failed => exact absurd hmark (hS.mirrored.clean name)
        | done =>
          rw [resolveSymbol_tried hmark (by simp)] at hrun
          cases hrun
          exact hS.done
      | none =>
        obtain ⟨S₂, hrun₂, rfl⟩ := (resolveSymbol_fresh_ok hmark).1 hrun
        have hname : ¬ S.IsDone name := fun hdone => by
          rw [Store.IsDone, hmark] at hdone
          cases hdone
        set S₁ := S.withMark name .started with hS₁
        have hstart : Store.DoneIn env G S₁ S₁ := by
          refine ⟨hS.mirrored.withStart hname, fun name' s hdone' hs => ?_, .refl S₁⟩
          rw [hS₁, Store.isDone_withMark] at hdone'
          split at hdone'
          · cases hdone'
          · exact hS.done name' s hdone' hs
        obtain ⟨hS₂, hsymbol⟩ := (hbody count S₁ name (ih S₁) (Table.get?_insert_self _ _ _)).ok
          hstart hrun₂
        intro name' s hdone' hs
        rw [Store.isDone_withMark] at hdone'
        split at hdone'
        · subst ‹name = name'›
          exact hsymbol s hs
        · exact hS₂.done name' s hdone' hs

end Resolving

/-- The symbols of a package that resolves have a property that resolution gives to them. -/
theorem Outline.symbols_of_completes (hstage : env.Stage p G package)
    (hcompletes : ∀ count S₀, Resolving.Completes env G S₀ (resolveSymbol env count))
    {s : Symbol} (hs : package.symbols.get? name = some s) : G s := by
  have hall {names : List String} {S S' : Store} (hS : Store.DoneIn env G S S)
      (h : resolveAll env S names = .ok (S', [])) :
      Store.DoneIn env G S' S' ∧ S.Extends S' ∧ ∀ name ∈ names, S'.IsDone name := by
    induction names generalizing S with
    | nil =>
      cases h
      exact ⟨hS, .refl _, forall_mem_nil _⟩
    | cons name names ih =>
      obtain ⟨S₁, hrun, hrest⟩ := resolveAll_cons_iff.1 h
      obtain ⟨hS₁, hdone⟩ := (hcompletes _ S name).ok hS hrun
      obtain ⟨hS', hext, hdone'⟩ := ih ⟨hS₁.mirrored, hS₁.done, .refl _⟩ hrest
      exact ⟨hS', hS₁.marks.trans hext,
        forall_mem_cons.2 ⟨hext name _ hdone, hdone'⟩⟩
  obtain ⟨S, -, hresolve, rfl⟩ := resolveWithin_iff.1 hstage.resolves
  obtain ⟨hS, -, hdone⟩ := hall ⟨Store.start_mirrored [] env, fun _ _ hdone => (by cases hdone),
    .refl _⟩ hresolve
  refine hS.done name s (hdone name ?_) hs
  -- the names that are stored are those that are declared
  have hbare := hS.mirrored.bare name
  rw [hs, Option.map_some] at hbare
  obtain ⟨symbol, hsymbol, -⟩ := Option.map_eq_some_iff.1 hbare.symm
  exact Table.mem_keys_iff.2 (Table.contains_of_get? hsymbol)

/-! ## Loading -/

/-- A reference that is known among some packages is known among more. -/
theorem Program.Knows.insert (h : p.Knows packages isAlias id)
    (hpackage : p.packages.get? path = some package) :
    p.Knows (packages.insert path package) isAlias id := by
  refine ⟨h.declares, fun path' hpath' => ?_⟩
  rw [Table.get?_insert]
  split
  · subst ‹path = path'›
    exact hpackage.symm
  · exact h.same path' hpath'

/-- The symbols of the packages that a program was built of have a property, if the packages get it
one after another. -/
theorem Loading.Built.symbols {G : Table String Package → Symbol → Prop}
    (hmono : ∀ packages path package s, p.packages.get? path = some package → G packages s →
      G (packages.insert path package) s)
    (hstage : ∀ (env : Surroundings) package, env.limit = aliasLimit →
      sources.outline? p env.outline.path = some env.outline →
      env.Stage p (G (env.program.packages.insert env.outline.path package)) package →
      ∀ count S₀, Resolving.Completes env (G (env.program.packages.insert env.outline.path package))
        S₀ (resolveSymbol env count))
    (h : Built sources p.Misses packages) (hsub : ∀ path Q, packages.get? path = some Q →
      p.packages.get? path = some Q) {Q : Package} (hQ : packages.get? path = some Q) {s : Symbol}
    (hs : Q.symbols.get? name = some s) : s.name = name ∧ s.package = some path ∧ G packages s := by
  induction h generalizing path Q name s with
  | empty => cases hQ
  | @insert packages path' package files _ hfree hnot hresolved ih =>
    have hother {q : String} (hq : packages.contains q = true) : q ≠ path' := by
      rintro rfl
      rw [Table.contains, hfree] at hq
      cases hq
    have hbefore (q : String) (found : Package) (hq : packages.get? q = some found) :
        p.packages.get? q = some found := by
      refine hsub q found ?_
      rw [Table.get?_insert_of_ne _ _ (hother (Table.contains_of_get? hq)).symm]
      exact hq
    have hown : p.packages.get? path' = some package := hsub _ _ (Table.get?_insert_self _ _ _)
    obtain ⟨houtline, hpath⟩ := ofFiles_sound p path' files
    obtain ⟨failures, hresolve⟩ := hresolved.resolve
    rw [hresolved.ofFiles_eq hbefore failures] at hresolve
    set env : Surroundings :=
      ⟨ofFiles p path' files, ⟨packages, failures⟩, aliasLimit⟩ with henv
    have hthis : env.Stage p (G (packages.insert path' package)) package := by
      refine ⟨houtline, hresolve, by rw [henv, hpath]; exact hown, fun q found hq => ?_,
        fun q hq => ?_⟩
      · refine ⟨hbefore q found hq, fun name s hs => ?_⟩
        obtain ⟨hname, hpackage, hG⟩ := ih hbefore hq hs
        exact ⟨hname, hpackage, hmono packages path' package s hown hG⟩
      · rw [henv, hpath]
        rcases hresolved.imports q (mem_imports_ofFiles_iff.1 hq) with hthere | hmissing
        · obtain ⟨found, hfound⟩ := Table.contains_iff.1 hthere
          exact ⟨hother hthere, hfound.trans (hbefore q found hfound).symm⟩
        · refine ⟨fun heq => hnot (heq ▸ hmissing), ?_⟩
          cases hfound : packages.get? q with
          | none => exact hmissing.2.symm
          | some found => exact (hbefore q found hfound).symm
    have hcompletes := hstage env package rfl
    simp only [henv, hpath] at hcompletes
    rw [Table.get?_insert] at hQ
    split at hQ
    · cases hQ
      subst ‹path' = path›
      obtain ⟨hname, hpackage, -⟩ := (resolveWithin_sound
        ⟨hthis.within, houtline, fun _ _ => trivial⟩ hresolve).1.symbol name s hs
      exact ⟨hname, hpath ▸ hpackage, symbols_of_completes hthis
        (hcompletes hresolved.outline?_eq hthis) hs⟩
    · obtain ⟨hname, hpackage, hG⟩ := ih hbefore hQ hs
      exact ⟨hname, hpackage, hmono packages path' package s hown hG⟩

/-- A symbol that is no type, or a type with known references that has the property `H`. -/
def Symbol.Typed (T : Bool → SymbolId → Prop) (H : SymbolId → TypeInfo → Prop) (s : Symbol) : Prop :=
  ∀ info, s.body = .type info → (∀ t ∈ s.types, t.Refers T) ∧ H s.id info

/-- What is found of a declared type while it is resolved, `Q` of its parameters, `T'` of the type
that it is declared with and `T` of the structure behind that, gives it the property `H`. -/
structure TypeDecl.Earns (p : Program) (G : Symbol → Prop) (H : SymbolId → TypeInfo → Prop)
    (env : Surroundings) (S₀ : Store) (resolve : String → Resolving Unit) (name : String)
    (decl : TypeDecl) (Q : List TypeParam → Prop) (T' T : Ty → Prop) : Prop where
  params : Gives (Store.DoneIn env G S₀) (paramsOf env resolve decl.scope
    (paramTypes decl.spec.params) decl.spec.params) Q
  type : Gives (Store.DoneIn env G S₀) (typeOf env resolve decl.scope
    (paramTypes decl.spec.params) decl.spec.type) T'
  start : ∀ t, T' t → T t
  passes : p.Passes G T
  earns : ∀ params type behind, Q params → T' type → T behind →
    p.underlyingWithin aliasLimit type = some behind →
    H ⟨some env.outline.path, name⟩ (decl.resolved params type behind)

/-- The types of a loaded program have a property that each declared type earns. -/
theorem Program.load_types {patterns : List String}
    {log : List LogLine} (hload : Program.load sources patterns = (.ok p, log))
    {H : SymbolId → TypeInfo → Prop} (hearns : ∀ (env : Surroundings) package name decl S₀ resolve,
      sources.outline? p env.outline.path = some env.outline →
      env.Stage p (Symbol.Typed (env.References p package) H) package →
      env.outline.types.get? name = some decl → Resolving.Completes env
        (Symbol.Typed (env.References p package) H) S₀ resolve →
      ∃ Q T' T, decl.Earns p (Symbol.Typed (env.References p package) H) H env S₀ resolve name
        Q T' T) (hpackage : p.packages.get? path = some package)
    {s : Symbol} (hs : package.symbols.get? name = some s) :
    s.id = ⟨some path, name⟩ ∧ ∀ info, s.body = .type info → H s.id info := by
  refine (fun h => ⟨by rw [Symbol.id, h.1, h.2.1], fun info hbody => (h.2.2 info hbody).2⟩)
    ((Program.load_built hload).symbols (G := fun packages => Symbol.Typed (p.Knows packages) H)
      (fun packages path package s hpackage hs info hbody => ⟨fun t ht =>
        ((hs info hbody).1 t ht).mono fun _ _ hid => hid.insert hpackage, (hs info hbody).2⟩)
      (fun env package hlimit houtline hstage => ?_) (fun _ _ h => h) hpackage hs)
  refine resolveSymbol_completes hstage
    (fun count S₀ name decl hresolve hstarted hdeclares hdecl => ?_)
    fun _ _ _ _ hresolve hstarted hdeclares _ => resolveConst_yields hstage hresolve
      hstarted hdeclares fun s value type hconst info hbody => ?_
  · obtain ⟨Q, T', T, h⟩ := hearns env package name decl S₀ _ houtline hstage hdecl hresolve
    have hG (s : Symbol) (info : TypeInfo) (hs : s.Typed (env.References p package) H)
        (hbody : s.body = .type info) := (hs info hbody).1
    have hrefers := carries_references hstage hresolve hG
      (hstage.outline.typeScope name decl hdecl) (paramTypes_table decl.spec.params)
    refine (resolveType_found (T := fun t => t.Refers _ ∧ T t) hstage hresolve hstarted
      hdeclares ((hrefers.paramsOf_gives fun _ _ => trivial).both h.params)
      ((hrefers.typeOf_gives trivial).both h.type) (fun t ht => ⟨ht.1, h.start t ht.2⟩)
      (fun isAlias id args u hhas ht hu => ⟨passes_refers hG isAlias id args u hhas ht.1 hu,
        h.passes isAlias id args u hhas ht.2 hu⟩) fun _ ht => ht.1).post
      (fun _ S hS => ⟨hS.1, fun s hs info hinfo => ?_⟩)
    obtain ⟨params, type, behind, hbody, hparams, htype, hbehind, hwithin⟩ := hS.2 s hs
    refine ⟨decl.forall_types hbody hparams.1 htype.1 hbehind.1, ?_⟩
    obtain rfl := SymbolBody.type.inj (hbody.symm.trans hinfo)
    rw [hS.1.id_eq hstage.outline hs]
    exact h.earns params type behind hparams.2 htype.2 hbehind.2 (hlimit ▸ hwithin)
  · rw [hconst] at hbody
    cases hbody

end DeclBridge
