import DeclBridge.Output.Declarations
import DeclBridge.Proofs.DeclaredTypes
import DeclBridge.Proofs.Definition

/-!
# Type parameters in the output

A definition should speak of the type parameters in its own head only.  This holds of the types that
it is written from, in a loaded program whose references have all their arguments
(`Program.load_scoped`).  It does not hold of the text: where an interface embeds a declared one,
the terms of the declared one are put in as they are declared, and the arguments of the reference
are not put in for its parameters (`Program.rendered_params`).
-/

namespace DeclBridge

open Outline List

variable {files : List SourceFile} {package : Package} {path : String} {t u : Ty} {p : Program}
  {names : List String}

/-! ## Loading -/

namespace Sources

/-- The number of type parameters that a type of a loaded package is declared with. -/
def arity (sources : Sources) (p : Program) (id : SymbolId) : Option Nat :=
  match id.package with
  | none => none
  | some path =>
    if p.packages.contains path then
      ((sources.outline? p path).bind (·.types.get? id.name)).map (·.spec.paramNames.length)
    else none

/-- In the loaded packages, every declared type is written with as many arguments as it has
parameters. -/
def Saturated (sources : Sources) (p : Program) : Prop :=
  ∀ path o, p.packages.contains path = true → sources.outline? p path = some o →
    o.Saturated (sources.arity p)

/-- The check that packages are saturated, where no type is written with a nesting of `depth`. -/
def SaturatedTo (depth : Nat) (sources : Sources) (p : Program) : Prop :=
  ∀ path ∈ p.packages.keys, ∀ o ∈ sources.outline? p path, ∀ decl ∈ o.types.values,
    ∀ t ∈ decl.spec.type :: decl.spec.params.map (·.constraint),
      o.isSaturated (sources.arity p) decl.scope decl.spec.paramNames depth t = true

instance (depth : Nat) (sources : Sources) (p : Program) : Decidable (sources.SaturatedTo depth p) :=
  inferInstanceAs (Decidable (∀ _ ∈ _, _))

theorem SaturatedTo.saturated {depth : Nat} {sources : Sources} (h : sources.SaturatedTo depth p) :
    sources.Saturated p :=
  fun path o hpath ho _ decl hdecl t ht => saturatedAt_of_isSaturated
    (h path (Table.mem_keys_iff.2 hpath) o ho decl (Table.mem_values_of_get? hdecl) t ht)

end Sources

/-- The symbols of packages with their types in scope. -/
def Loading.ScopedIn (arity : SymbolId → Option Nat) (packages : Table String Package) : Prop :=
  ∀ path package name s, packages.get? path = some package → package.symbols.get? name = some s →
    s.id = ⟨some path, name⟩ ∧
      ∀ info, s.body = .type info → arity s.id = some info.params.length ∧ info.Scoped arity

namespace Resolving

variable {p : Program} {arity : SymbolId → Option Nat} {env : Surroundings} {G : Symbol → Prop}
  {resolve : String → Resolving Unit} {S₀ : Store} {scope : Scope}
  {params : Table String Ty}

/-! ### Type expressions -/

/-- A name stands for a parameter in reach, for a type with the right number of arguments, or for a
predeclared type. -/
theorem typeNamed_scoped {J : Store → Prop} {pos : Position} {name : String} {label : Option String}
    {args : List Ty} (hstage : env.Stage p G package) (hnone : ∀ name, arity ⟨none, name⟩ = none)
    (hparams : ParamTable names params) (hargs : ∀ a ∈ args, a.ScopedIn arity names)
    (hcount : ∀ id needed, env.outline.target? scope names label name = some id →
      arity id = some needed → args.length = needed) :
    Gives J (typeNamed env scope params pos label name args) (Ty.ScopedIn arity names) := by
  refine typeNamed_gives (fun label hlabel => ?_) (fun t ht => ?_)
    (fun hlabel hfree s info hs _ => ?_) fun t ht => ?_
  · subst hlabel
    have htarget {path : String} (hpath : scope.imports.get? label = some path) :
        env.outline.target? scope names (some label) name = some ⟨some path, name⟩ := by
      rw [target?, hpath, Option.map_some]
    refine Judgement.single_imported (P := fun _ => True) (fun _ _ _ _ => trivial) trivial
      (fun path hpath _ => ?_) fun path Q s hpath hQ hs => ?_
    · exact fun _ _ => reference_scoped (fun needed => hcount _ needed (htarget hpath)) hargs
    · obtain ⟨hname, hpackage, -⟩ := (hstage.others path Q hQ).2 name s hs
      intro _ _
      rw [Symbol.id, hname, hpackage]
      exact reference_scoped (fun needed => hcount _ needed (htarget hpath)) hargs
  · obtain ⟨hname, index, rfl⟩ := hparams.param name t ht
    exact Ty.scopedIn_param hname
  · subst hlabel
    have hfree : name ∉ names := by
      intro hname
      have hsome := hparams.contains name hname
      rw [hfree] at hsome
      cases hsome
    have htarget : env.outline.target? scope names none name = some s.id := by
      obtain ⟨hname, hpackage⟩ := hstage.outline.symbol name s hs
      simp only [target?, if_neg hfree, hs, Option.map_some, Symbol.id, hname, hpackage]
    exact reference_scoped (fun needed => hcount s.id needed htarget) hargs
  · refine predeclared?_mem (fun t hparam hsymbol hchildren => ?_) (fun name' => ?_) ht
    · refine Ty.scopedIn_of_children hparam hsymbol fun _ hc => ?_
      rw [hchildren] at hc
      cases hc
    · refine @reference_scoped _ _ _ _ false (fun needed hneeded => ?_) (by simp)
      rw [hnone] at hneeded
      cases hneeded

theorem carries_scoped (hstage : env.Stage p G package) (hresolve : Completes env G S₀ resolve)
    (hnone : ∀ name, arity ⟨none, name⟩ = none) (hparams : ParamTable names params) :
    Carries env resolve (Store.DoneIn env G S₀) scope params (Ty.ScopedIn arity names)
      (env.outline.SaturatedAt arity scope names) where
  made _ := Ty.scopedIn_of_children
  part _ ht _ hc := ht.child hc
  named _ ht _ _ _ _ huse hargs := typeNamed_scoped hstage hnone hparams hargs
    fun _ _ htarget harity => ht.self huse htarget harity
  length _ _ := (hresolve.confined hstage).arrayLength_gives fun _ _ _ => trivial
  behind _ _ := ((hresolve.confined hstage).underlying_gives fun _ _ _ _ _ => trivial).mono
    fun _ _ => trivial

/-! ### Declarations -/

/-- What a reference leads to speaks of the parameters that its arguments speak of. -/
theorem passes_scoped {T : Bool → SymbolId → Prop} :
    p.Passes (Symbol.Typed T fun id info => arity id = some info.params.length ∧ info.Scoped arity)
      (Ty.ScopedIn arity names) := by
  refine passes_of_instances ?_ fun s info isAlias args t hs hbody ht href => ?_
  · refine Ty.scopedIn_of_children (fun _ _ heq => ?_) rfl (forall_mem_nil _)
    cases heq
  · obtain ⟨-, harity, hscoped⟩ := hs info hbody
    obtain ⟨hfits, hargs⟩ : (reference isAlias s.id args).Fits arity names ∧
        ∀ a ∈ args, a.ScopedIn arity names := by
      cases isAlias <;> exact Ty.scopedIn_iff.1 href
    have hcount : args.length = info.params.length := by
      cases isAlias <;> exact hfits.2 s.id _ rfl harity
    exact instantiate_scoped hcount hargs ((Symbol.scoped_type hbody).2 hscoped t ht)

end Resolving

/-- In a loaded program whose references have all their arguments, the types of a declaration speak
of its own parameters. -/
theorem Program.load_scoped {sources : Sources} {patterns : List String}
    {log : List LogLine} (hload : Program.load sources patterns = (.ok p, log))
    (hsaturated : sources.Saturated p) : Loading.ScopedIn (sources.arity p) p.packages := by
  refine fun path package name s hpackage hs => load_types hload (H := fun id info =>
      sources.arity p id = some info.params.length ∧ info.Scoped (sources.arity p))
    (fun env package name decl S₀ resolve houtline hstage hdecl hresolve => ?_) hpackage hs
  have hcontains := Table.contains_of_get? hstage.own
  obtain ⟨hwritten, hconstraints⟩ :=
    forall_mem_cons.1 (hsaturated _ _ hcontains houtline name decl hdecl)
  rw [forall_mem_map] at hconstraints
  have hscoped : Resolving.Carries env resolve _ decl.scope _
      (Ty.ScopedIn (sources.arity p) decl.spec.paramNames) _ :=
    Resolving.carries_scoped hstage hresolve (fun _ => rfl)
      (Resolving.paramTypes_table decl.spec.params)
  refine ⟨_, _, _, ((hscoped.paramsOf_gives hconstraints).and (Resolving.paramsOf_names _)).post
      (fun _ _ h => ⟨h.1.1, And.intro h.1.2 h.2⟩), hscoped.typeOf_gives hwritten, fun _ h => h,
    Resolving.passes_scoped, fun params type behind hparams htype hbehind _ => ?_⟩
  obtain ⟨hparams, hnames⟩ := hparams
  rw [← TypeSpec.paramNames] at hnames
  rw [← hnames] at hparams htype hbehind
  refine ⟨?_, hparams, fun t ht => ?_, fun t ht => Option.some.inj ht ▸ hbehind⟩
  · simp only [Sources.arity, hcontains, if_true, houtline, Option.bind_some, hdecl,
      Option.map_some, ← hnames, length_map, TypeDecl.resolved]
  · simp only [TypeDecl.resolved] at ht
    split at ht
    · exact Option.some.inj ht ▸ htype
    · cases ht

/-! ## Terms of declared interfaces -/

namespace Program

/-- The definition of a declared interface is put in where the terms of a type are computed. -/
inductive Flattens (p : Program) : Ty → SymbolId → Prop
  | embedded {t reference : Ty} {id : SymbolId} {embeds : List Ty} {methods : List String} :
    t.Embeds reference → reference.symbol? = some id →
    (p.typeInfo id).underlying = some (.interface embeds methods) → Flattens p t id
  | through {t reference : Ty} {id id' : SymbolId} {embeds : List Ty} {methods : List String} :
    t.Embeds reference → reference.symbol? = some id →
    (p.typeInfo id).underlying = some (.interface embeds methods) →
    Flattens p (.interface embeds methods) id' → Flattens p t id'

/-- A term is a part of the type itself, or of the definition of an interface that is put in. -/
theorem mem_within_of_flattens {count : Nat} {seen : List SymbolId}
    {terms : List Ty} (h : TermSet.within p.typeInfo count seen t = some terms)
    (hu : u ∈ terms) : u ∈ t.parts ∨ ∃ id t', p.Flattens t id ∧
      (p.typeInfo id).underlying = some t' ∧ u ∈ t'.parts := by
  induction count generalizing seen t terms u with
  | zero => cases h
  | succ count ih =>
    rw [TermSet.within] at h
    refine TermSet.mem_ofTy (S := fun u => u ∈ t.parts ∨ ∃ id t', p.Flattens t id ∧
      (p.typeInfo id).underlying = some t' ∧ u ∈ t'.parts) (fun _ => .inl)
      (fun id reference found href hid hfound v hv => ?_) h u hu
    split at hfound
    · rename_i embeds methods hunder
      split at hfound
      · cases hfound
      · rcases ih hfound hv with hpart | ⟨id', t', hflattens, hunder', hpart⟩
        · exact .inr ⟨id, _, .embedded href hid hunder, hunder, hpart⟩
        · exact .inr ⟨id', t', .through href hid hunder hflattens, hunder', hpart⟩
    · cases hfound
      rw [mem_singleton.1 hv]
      exact .inl href.mem_parts

/-- The terms of a declared interface are the same with all arguments. -/
theorem termSet_embedded {id : SymbolId} {embeds : List Ty} {methods : List String}
    (h : (p.typeInfo id).underlying = some (.interface embeds methods)) (args args' : List Ty)
    (methods' : List String) : p.termSet (.interface [.named id args] methods') =
      p.termSet (.interface [.named id args'] methods') := by
  obtain ⟨path, -, -, hpath, -⟩ := typeInfo_eq h
  simp only [termSet, TermSet.within, TermSet.ofTy, TermSet.ofTys, hpath, h, Option.isSome_some,
    if_true]

end Program

/-! ## Rendered parameters -/

namespace Plan

/-- The text of a type, with the interfaces in it expanded, comes to a type parameter. -/
def Renders (plan : Plan) (t : Ty) (name : String) : Prop :=
  ∃ u index, Relation.ReflTransGen plan.Expands t u ∧ plan.Visits u (.param name index)

/-- The text of a type with the interfaces in it expanded is put together from what is referred to
and from the parameters that it renders. -/
theorem Composes.expandedText {plan : Plan} {G : Text → Prop} (hG : plan.Composes G)
    {refer : (path name : String) → Emitting Text} {count : Nat}
    (hrefer : ∀ path name, Gives (fun _ => True) (refer path name) G)
    (hparams : ∀ name : String, plan.Renders t name → G name) :
    Gives (fun _ => True) (Emitting.expandedText plan refer count t) G := by
  induction count generalizing t with
  | zero => exact .throw
  | succ count ih =>
    refine Emitting.typeText_returns hG (fun _ _ => trivial) t
      (fun name index h => hparams name ⟨t, index, .refl, h⟩) (fun path name _ => hrefer path name)
      fun u hu => ih fun name h => ?_
    obtain ⟨v, index, hv, hparam⟩ := h
    exact hparams name ⟨v, index, .head hu hv, hparam⟩

/-- The text of a type, with the interfaces in it expanded, comes to an interface into which the
definition of a declared one is put. -/
def Inlines (plan : Plan) (t : Ty) (id : SymbolId) : Prop :=
  ∃ u embeds methods, Relation.ReflTransGen plan.Expands t u ∧
    plan.Visits u (.interface embeds methods) ∧
    plan.program.Flattens (.interface embeds methods) id

/-- The parameters in an expansion of a type are parameters of the type, or of a declared interface
whose definition was put in on the way. -/
theorem Expands.params {plan : Plan} {arity : SymbolId → Option Nat}
    (hprogram : Loading.ScopedIn arity plan.program.packages) (ht : t.ScopedIn arity names)
    (h : Relation.ReflTransGen plan.Expands t u) {name : String} {index : Nat}
    (hparam : .param name index ∈ u.parts) : name ∈ names ∨ ∃ id, plan.Inlines t id ∧
      name ∈ (plan.program.typeInfo id).params.map (·.name) := by
  induction h generalizing index with
  | refl => exact .inl ((ht _ hparam).1 name index rfl)
  | @tail v u hexpands hstep ih =>
    obtain ⟨embeds, methods, terms, hvisit, hterms, hu⟩ := hstep
    rcases Program.mem_within_of_flattens hterms hu with hpart | ⟨id, t', hflattens, hunder, hpart⟩
    · exact ih (Ty.parts_trans hvisit.mem_parts (Ty.parts_trans hpart hparam))
    · -- the definition that is put in speaks of its own parameters
      obtain ⟨path, package, s, -, hpackage, hs, hbody⟩ := Program.typeInfo_eq hunder
      obtain ⟨-, hscoped⟩ := (hprogram path package id.name s hpackage hs).2 _ hbody
      have hname := (hscoped.underlying t' hunder _ (Ty.parts_trans hpart hparam)).1 name index rfl
      exact .inr ⟨id, ⟨v, embeds, methods, hexpands, hvisit, hflattens⟩, hname⟩

end Plan

namespace Program

variable {p : Program}

/-- In a loaded program whose references have all their arguments, a type parameter in the
definition of a type is one of the definition's own, or belongs to a declared interface whose terms
were put in; and what is put in does not depend on the arguments of the reference. -/
theorem rendered_params {sources : Sources} {patterns : List String} {log : List LogLine}
    (hload : Program.load sources patterns = (.ok p, log)) (hsaturated : sources.Saturated p) :
    (∀ (plan : Plan) (path : String) (package : Package) (name : String) (s : Symbol)
      (info : TypeInfo), plan.program = p → p.packages.get? path = some package →
      package.symbols.get? name = some s → s.body = .type info →
      ∀ t ∈ plan.rendered s, ∀ param, plan.Renders t param → param ∈ info.params.map (·.name) ∨
          ∃ id, plan.Inlines t id ∧ param ∈ (p.typeInfo id).params.map (·.name)) ∧
    ∀ (id : SymbolId) (embeds : List Ty) (methods : List String),
      (p.typeInfo id).underlying = some (.interface embeds methods) →
      ∀ args args' methods', p.termSet (.interface [.named id args] methods') =
        p.termSet (.interface [.named id args'] methods') := by
  have hscoped := load_scoped hload hsaturated
  refine ⟨?_, fun id embeds methods h => termSet_embedded h⟩
  rintro plan path package name s info rfl hpackage hs hbody t ht param ⟨u, index, hexpands, hvisit⟩
  have hinfo := ((hscoped path package name s hpackage hs).2 info hbody).2
  have htypes := (Symbol.scoped_type hbody).2 hinfo
  exact Plan.Expands.params hscoped (htypes t (plan.rendered_subset s ht)) hexpands
    hvisit.mem_parts

/-- A constraint with a parameter, and an interface that embeds it with an argument. -/
def numSources : SourceTable where
  packages := ⟨[("p", ⟨[("p.go",
    "package p\n\ntype Num[E any] interface { E | []E }\n\ntype D interface { Num[int] }\n")]⟩)]⟩

/-- Whether the terms of the interface start with the parameter of the constraint it embeds. -/
def startsWithParam (p : Program) : Bool :=
  match p.packages.get? "p" with
  | some package => match package.symbols.get? "D" with
    | some ⟨_, _, _, .type ⟨some (.interface embeds methods), [], false, _⟩⟩ =>
      match p.termSet (.interface embeds methods) with
      | some (.param "E" _ :: _) => true
      | _ => false
    | _ => false
  | none => false

theorem rendered_params_num : ∃ p log,
    Program.load numSources.sources ["p"] = (.ok p, log) ∧ numSources.sources.Saturated p ∧
    ∃ (plan : Plan) (package : Package) (s : Symbol) (info : TypeInfo), plan.program = p ∧
      p.packages.get? "p" = some package ∧ package.symbols.get? "D" = some s ∧
      s.body = .type info ∧ info.params = [] ∧ ∃ t ∈ plan.rendered s, plan.Renders t "E" ∧
      ∃ id, plan.Inlines t id ∧ "E" ∈ (p.typeInfo id).params.map (·.name) := by
  obtain ⟨p, log, hload, hsaturated, hfacts⟩ := exists_load (P := fun p =>
    numSources.sources.SaturatedTo 4 p ∧ startsWithParam p = true)
    (show (load numSources.sources ["p"]).1.toOption.any _ = true by decide +kernel)
  have hsaturated := hsaturated.saturated
  rw [startsWithParam] at hfacts
  split at hfacts
  · rename_i package hpackage
    split at hfacts
    · rename_i name path span embeds methods rhs hs
      split at hfacts
      · rename_i index more hterms
        set plan := Plan.ofRequest p ⟨"p", []⟩ [] {}
        have ht : Ty.interface embeds methods ∈ plan.rendered ⟨name, path, span,
            .type ⟨some (.interface embeds methods), [], false, rhs⟩⟩ :=
          mem_singleton.2 rfl
        have hrenders : plan.Renders (.interface embeds methods) "E" :=
          ⟨.param "E" index, index, .single ⟨embeds, methods, _, .refl, hterms,
            mem_cons_self⟩, .refl⟩
        refine ⟨p, log, hload, hsaturated, plan, package, _, _, rfl, hpackage, hs, rfl, rfl, _, ht,
          hrenders, ?_⟩
        exact ((rendered_params hload hsaturated).1 plan "p" package "D" _ _ rfl hpackage hs rfl
          _ ht "E" hrenders).resolve_left not_mem_nil
      · cases hfacts
    · cases hfacts
  · cases hfacts

end Program

end DeclBridge
