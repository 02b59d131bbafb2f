import DeclBridge.Proofs.Judgements

/-!
# What resolved types refer to

A type that resolution makes refers to the package itself, to its imports, and to what their types
refer to in turn.  Types come from several places: from names in the file, from what lies behind a
declared type with arguments put in, and from the types of imported constants.  `R` is a set of
packages that is closed under all of these, and each function of the resolution stays in it.

The statements are about any invariant `J` of the store that resolving another symbol keeps.
-/

namespace DeclBridge

variable {pos : Position} {args : List Ty} {s : Symbol} {id : SymbolId} {name : String} {t : Ty}
  {scope : Scope} {J : Store → Prop} {T : Ty → Prop}

/-- A failure that is reported, if at all, at a place in `P`, and is not for want of a declaration. -/
def Failure.At (P : Position → Prop) : Failure → Prop
  | .problem _ pos => P pos
  | .fault why => ∀ name, why ≠ .undeclared name

/-! ## Parts of declarations -/

/-- All packages that a declared type refers to are in `R`. -/
structure TypeInfo.Within (R : String → Prop) (info : TypeInfo) : Prop where
  params : ∀ p ∈ info.params, ∀ t, p.constraint = some t → t.Within R
  rhs : ∀ t, info.rhs = some t → t.Within R
  underlying : ∀ t, info.underlying = some t → t.Within R

def Symbol.Within (R : String → Prop) (s : Symbol) : Prop := ∀ t ∈ s.types, t.Within R

def Scope.Within (R : String → Prop) (scope : Scope) : Prop :=
  ∀ name path, scope.imports.get? name = some path → R path

def Store.Within (R : String → Prop) (store : Store) : Prop :=
  ∀ name s, store.symbols.get? name = some s → s.Within R

/-- A set of import paths that the types of a package cannot leave. -/
structure Surroundings.Within (R : String → Prop) (env : Surroundings) : Prop where
  own : R env.outline.path
  outline : ∀ name s, env.outline.symbols.get? name = some s →
    s.package = some env.outline.path
  program : ∀ path package, R path → env.program.packages.get? path = some package →
    ∀ name s, package.symbols.get? name = some s → s.package = some path ∧ s.Within R

variable {R : String → Prop}

theorem TypeInfo.within_empty : TypeInfo.Within R {} :=
  ⟨List.forall_mem_nil _, fun _ h => (nomatch h), fun _ h => (nomatch h)⟩

/-- The types of a declared type: those of its parameters, its right side and what is behind it. -/
theorem Symbol.forall_types_iff {info : TypeInfo} (hbody : s.body = .type info) :
    (∀ t ∈ s.types, T t) ↔ (∀ p ∈ info.params, ∀ t, p.constraint = some t → T t) ∧
      (∀ t, info.rhs = some t → T t) ∧ ∀ t, info.underlying = some t → T t := by
  rw [types, hbody]
  simp only [List.mem_append, List.mem_filterMap, Option.mem_toList]
  constructor
  · intro h
    exact ⟨fun p hp t ht => h t (.inl (.inl ⟨p, hp, ht⟩)), fun t ht => h t (.inl (.inr ht)),
      fun t ht => h t (.inr ht)⟩
  · rintro ⟨hparams, hrhs, hunderlying⟩ t ((⟨p, hp, ht⟩ | ht) | ht)
    · exact hparams p hp t ht
    · exact hrhs t ht
    · exact hunderlying t ht

theorem Symbol.within_type {info : TypeInfo} (hbody : s.body = .type info) :
    s.Within R ↔ info.Within R :=
  (forall_types_iff hbody).trans
    ⟨fun h => ⟨h.1, h.2.1, h.2.2⟩, fun h => ⟨h.params, h.rhs, h.underlying⟩⟩

theorem Symbol.within_const {value : Option Constant} {type : Option Ty}
    (hbody : s.body = .const value type) : s.Within R ↔ ∀ t, type = some t → t.Within R := by
  rw [Within, types, hbody]
  simp only [Option.mem_toList]

theorem within_typeInfo? (h : s.Within R) : (s.typeInfo?.getD {}).Within R := by
  rw [Symbol.typeInfo?]
  split
  · exact (Symbol.within_type ‹_›).1 h
  · exact TypeInfo.within_empty

/-- What the functions of the resolution need to stay in `R`: surroundings and stores that do, and a
way to resolve another symbol that keeps the invariant. -/
structure Resolving.Confined (R : String → Prop) (env : Surroundings)
    (resolve : String → Resolving Unit) (J : Store → Prop) : Prop where
  env : env.Within R
  store : ∀ S, J S → S.Within R
  resolve : ∀ name, Keeps J (fun _ => True) (resolve name)

namespace Resolving

variable {env : Surroundings} {resolve : String → Resolving Unit}

theorem problem_gives {α : Type} {why : Problem} {Q : α → Prop} : Gives J (problem why pos) Q :=
  .throw

theorem typeInfo_gives (id : SymbolId) : Gives J (typeInfo env id) fun _ => True := by
  rw [typeInfo]
  split
  · exact Triple.bind (Triple.get fun _ hS => hS) fun _ => Triple.pure fun _ hS => ⟨hS, trivial⟩
  · exact .pure trivial

/-! ## Judgements of one resolution -/

namespace Judgement

/-- The computation keeps `J` and gives results in `Q`; a failure that is reported at a place in `P`
is one of `E`. -/
def single (J : Store → Prop) (P : Position → Prop) (E : Failure → Store → Prop)
    (hE : ∀ e S, J S → e.At P → E e S) : Judgement Unit where
  move _ := .stay
  place := P
  Holds _ x Q := Triple J (x ()) (fun a S => J S ∧ Q a) E
  pure {_ u _ _ _} a ha hQ := .pure fun S hS => ⟨hS, by rwa [ha, Stays.stay (u := u)]⟩
  bind {_ _ u _ _ _ _ _ _} hx hf := .bind hx fun a => .assume fun S hS => by
    have hfa := hf a hS.2
    rw [Stays.stay (u := u)] at hfa
    exact hfa.start hS.1
  mono hx hR := hx.post (fun _ _ h => ⟨h.1, hR _ h.2⟩)
  problem hpos := .throw fun S hS => hE _ S hS hpos
  surrogate := .throw fun S hS => hE _ S hS fun _ h => (by cases h)
  value hpos hfails _ := by
    refine .result (fun _ _ S hS => ⟨hS, trivial⟩) fun e he S hS => hE e S hS ?_
    have hof := (hfails _).of_error e he
    cases e with
    | problem why p =>
      cases hof
      exact hpos
    | fault => exact Fault.OfValue.ne_undeclared hof

theorem single_imported {P : Position → Prop} {E : Failure → Store → Prop}
    (hE : ∀ e S, J S → e.At P → E e S) {package : String}
    {Q : Symbol → Prop} (hpos : P pos)
    (hstub : ∀ path, scope.imports.get? package = some path → env.program.packages.get? path = none →
      Q { name, package := some path, body := .type {} })
    (hfound : ∀ path p s, scope.imports.get? package = some path →
      env.program.packages.get? path = some p → p.symbols.get? name = some s → Q s) :
    Triple J (imported env scope package name pos) (fun s S => J S ∧ Q s) E := by
  refine (single J P E hE).holds_imported (fun _ => env) scope package name hpos fun path hpath =>
    ⟨(env.program.packages.get? path).map (·.symbols.get? name), fun _ => (looked_stay _).symm,
      fun hnone => hstub path hpath (Option.map_eq_none_iff.1 hnone), fun s hs => ?_⟩
  obtain ⟨p, hp, hs⟩ := Option.map_eq_some_iff.1 hs
  exact hfound path p s hpath hp hs

/-- Failures may be at all places. -/
abbrev giving (J : Store → Prop) : Judgement Unit :=
  single J (fun _ => True) (fun _ _ => True) fun _ _ _ _ => trivial

end Judgement

/-! ## References -/

/-- Arguments bring in only the packages that they refer to. -/
theorem instantiate_within {params : List TypeParam}
    (hargs : ∀ a ∈ args, a.Within R) (ht : t.Within R) : (instantiate params args t).Within R :=
  Ty.Within.subst (fun _ u hu => hargs u (List.of_mem_zip (Table.mem_of_get?_ofList hu)).2) ht

theorem within_reference {isAlias : Bool} : (reference isAlias id args).Within R ↔
      (∀ path, id.package = some path → R path) ∧ ∀ a ∈ args, a.Within R := by
  cases isAlias with
  | false | true => exact Ty.within_of_symbol rfl

/-- What is imported belongs to a package in `R` and refers to such packages only, and so do its
types if `T` follows from that. -/
theorem Judgement.single_imports {P : Position → Prop} {E : Failure → Store → Prop}
    {hE : ∀ e S, J S → e.At P → E e S} {T : Ty → Prop} (hscope : scope.Within R)
    (hprogram : ∀ path p, R path → env.program.packages.get? path = some p →
      ∀ name s, p.symbols.get? name = some s → s.package = some path ∧ s.Within R)
    (href : ∀ {isAlias id args}, (∀ path, id.package = some path → R path) → (∀ a ∈ args, T a) →
      T (reference isAlias id args)) (hT : ∀ t, t.Within R → T t) :
    (single J P E hE).Imports (fun _ => env) scope T := by
  intro package name pos hpos
  have hgood {path : String} {s : Symbol} (hpath : scope.imports.get? package = some path)
      (hpackage : s.package = some path) (hs : s.Within R) :
      (∀ info args, s.body = .type info → (∀ a ∈ args, T a) →
        T (reference info.isAlias s.id args)) ∧ ∀ t ∈ s.types, T t := by
    refine ⟨fun info args _ => href fun path' hid => ?_, fun t ht => hT t (hs t ht)⟩
    rw [Symbol.id, hpackage] at hid
    cases hid
    exact hscope package path hpath
  refine single_imported hE hpos (fun path hpath _ => ?_) fun path p s hpath hp hs => ?_
  · exact hgood hpath rfl ((Symbol.within_type rfl).2 TypeInfo.within_empty)
  · obtain ⟨hpackage, hwithin⟩ := hprogram path p (hscope package path hpath) hp name s hs
    exact hgood hpath hpackage hwithin

namespace Confined

variable (h : Confined R env resolve J)

include h

/-- A symbol of the package refers to allowed packages only. -/
theorem lookUp_gives (name : String) : Gives J (lookUp resolve name) fun s =>
    ∀ found, s = some found → found.Within R := by
  refine (Gives.of_keeps (h.resolve name)).bind fun _ _ => ?_
  refine .bind (Q := Store.Within R) (.get fun S hS => ⟨hS, h.store S hS⟩)
    fun store hstore => .pure fun found hfound => hstore name found hfound

theorem typeInfo_within (hid : ∀ path, id.package = some path → R path) :
    (env.program.typeInfo id).Within R := by
  rw [Program.typeInfo]
  split
  · rename_i package hpackage
    obtain ⟨path, hpath, hpackage⟩ := Option.bind_eq_some_iff.1 hpackage
    cases hs : package.symbols.get? id.name with
    | none => exact TypeInfo.within_empty
    | some s =>
      exact within_typeInfo? (h.env.program path package (hid path hpath) hpackage id.name s hs).2
  · exact TypeInfo.within_empty

/-- The types of a package cannot leave `R`. -/
theorem leads : (Judgement.giving J).Leads (fun _ => env) (fun _ => resolve) env.outline
    (fun _ => True) (Ty.Within R) env.limit where
  outline _ := env.outline.moves_stay
  made _ := Ty.within_of_children
  predeclared _ := (Ty.within_of_symbol rfl).2 ⟨fun _ h => (by cases h), List.forall_mem_nil _⟩
  own {name s args} hs _ hargs isAlias := by
    refine within_reference.2 ⟨fun path hpath => ?_, hargs⟩
    rw [Symbol.id, h.env.outline name s hs] at hpath
    cases hpath
    exact h.env.own
  info _ {id args} _ := typeInfo_gives id
  look name _ := h.lookUp_gives name
  limit _ := rfl
  args ht := (within_reference.1 ht).2
  subst := instantiate_within
  name _ _ := trivial
  other {isAlias id args} ht hid := by
    have hinfo := h.typeInfo_within (within_reference.1 ht).1
    exact ⟨_, fun _ => (TypeInfo.moved_stay _).symm,
      fun t ht => ht.elim (hinfo.underlying t) (hinfo.rhs t)⟩
  endless := Gives.throw (I := J) (Q := Ty.Within R) (e := Failure.fault .endlessType)

theorem imports (hscope : scope.Within R) :
    (Judgement.giving J).Imports (fun _ => env) scope (Ty.Within R) :=
  Judgement.single_imports hscope h.env.program
    (fun hid hargs => within_reference.2 ⟨hid, hargs⟩) fun _ ht => ht

/-- So does what lies behind a type. -/
theorem underlying_gives (ht : t.Within R) : Gives J (underlying env resolve t) (Ty.Within R) := by
  have hbehind := h.leads.looks.behind t ht
  simp only [Judgement.single, Ty.moved_stay] at hbehind
  exact hbehind

theorem arrayLength_gives (hscope : scope.Within R)
    {length : Expr} : Gives J (arrayLength env resolve scope pos length) fun _ => True := by
  have hlength : (Judgement.giving J).Holds (fun _ a => a) (fun _ => arrayLength env resolve
      (scope.moved .stay) (Move.stay.position pos) (length.moved .stay)) fun _ => True :=
    h.leads.looks.arrayLength (h.imports hscope) trivial fun _ _ => .all _
  simp only [Judgement.single, Expr.moved_stay] at hlength
  exact hlength

end Confined

/-! ## Type expressions -/

section TypeExpressions

variable {params : Table String Ty}

theorem typeNamed_gives {package : Option String}
    (himported : ∀ label, package = some label → Gives J (imported env scope label name pos)
      fun s => ∀ info, s.body = .type info → T (reference info.isAlias s.id args))
    (hparam : ∀ t, params.get? name = some t → T t)
    (hown : package = none → params.get? name = none → ∀ s info,
      env.outline.symbols.get? name = some s → s.body = .type info →
        T (reference ((env.outline.types.get? name).any (·.spec.isAlias)) s.id args))
    (hpredeclared : ∀ t, predeclared? name = some t → T t) :
    Gives J (typeNamed env scope params pos package name args) T := by
  unfold typeNamed
  split
  · refine (himported _ rfl).bind fun s hs => ?_
    split
    · exact problem_gives
    · exact .pure (hs _ ‹_›)
  · split
    · exact .pure (hparam _ ‹_›)
    · rename_i hnone
      split
      · rename_i s hs
        split
        · exact problem_gives
        · exact .pure (hown rfl hnone s _ hs ‹_›)
      · split
        · exact .pure (hpredeclared _ ‹_›)
        · exact problem_gives

/-- What gives a property `T` to the types that the type expressions of `W` stand for: a type has it
when all that is inside does, unless it is a parameter or a reference, and what a name stands for
has it when the arguments do. -/
structure Carries (env : Surroundings) (resolve : String → Resolving Unit) (J : Store → Prop)
    (scope : Scope) (params : Table String Ty) (T : Ty → Prop) (W : TypeExpr → Prop) : Prop where
  made : ∀ t : Ty, (∀ name index, t ≠ .param name index) → t.symbol? = none →
    (∀ c ∈ t.children, T c) → T t
  part : ∀ t, W t → ∀ c ∈ t.children, W c
  named : ∀ t, W t → ∀ pos package name args, (package, name, args.length) ∈ t.uses →
    (∀ a ∈ args, T a) → Gives J (typeNamed env scope params pos package name args) T
  length : ∀ pos length, Gives J (arrayLength env resolve scope pos length) fun _ => True
  behind : ∀ t, T t → Gives J (underlying env resolve t) fun _ => True

namespace Carries

variable {W : TypeExpr → Prop} (h : Carries env resolve J scope params T W)

include h

theorem judged : (Judgement.giving J).Carries (fun _ => env) (fun _ => resolve) scope
    (fun _ => params) T W where
  made := h.made
  part := h.part
  named pos package name written args ht hlength hargs := by
    simp only [Judgement.single, funext Ty.moved_stay, List.map_id']
    exact h.named _ ht pos package name args (hlength ▸ List.mem_cons_self) hargs
  embedded pos fields ht d hd name hname := by
    have huse : (name.package, name.name, 0) ∈ (TypeExpr.struct pos fields).uses :=
      List.mem_filterMap.2 ⟨d, hd, by rw [hname, Option.map_some]⟩
    exact h.named _ ht name.pos name.package name.name [] huse (List.forall_mem_nil _)
  line _ _ _ _ _ := trivial
  length pos length _ _ := by
    simp only [Judgement.single, Expr.moved_stay]
    exact h.length pos length
  behind t ht := by
    simp only [Judgement.single, Ty.moved_stay]
    exact h.behind t ht

/-- A type has the property `T` if it is made from names that have it. -/
theorem typeOf_gives {t : TypeExpr} (ht : W t) : Gives J (typeOf env resolve scope params t) T := by
  have hjudged := h.judged.typeOf ht
  simp only [Judgement.single, TypeExpr.moved_stay] at hjudged
  exact hjudged

theorem paramsOf_gives {decls : List TypeParamDecl} (hdecls : ∀ d ∈ decls, W d.constraint) :
    Gives J (paramsOf env resolve scope params decls) fun found =>
      ∀ p ∈ found, ∀ t, p.constraint = some t → T t := by
  have hparams : (Judgement.giving J).Params params fun _ => params :=
    fun _ name => by simp only [Judgement.single, funext Ty.moved_stay, Option.map_id']
  have hjudged := h.judged.paramsOf hparams decls hdecls
  simp only [Judgement.single, funext TypeParamDecl.moved_stay, List.map_id'] at hjudged
  exact hjudged

end Carries

end TypeExpressions

end Resolving

end DeclBridge
