import DeclBridge.Proofs.ResolvedPackage
import Mathlib.Logic.Relation

/-!
# Type parameters in scope

The types of a declaration speak of its own type parameters and of no others.  Where a reference is
followed, the parameters of what it refers to are replaced by its arguments.  All of them are
replaced only if there are enough arguments, so this rests on the condition that every reference is
written with as many arguments as the type is declared with parameters (`Outline.Saturated`).

`Ty.ScopedIn` says of a type that its parameters are among given names and that its references have
the right number of arguments; the second half is what makes the first pass through aliases.  It is
an invariant of resolution (`Program.load_scoped`).
-/

namespace DeclBridge

open List

variable {args : List Ty} {id : SymbolId} {body : SymbolBody} {count : Nat} {info : TypeInfo}
  {package : Option String} {s : Symbol} {name : String} {arity : SymbolId → Option Nat}
  {t : TypeExpr} {names : List String}

namespace Ty

/-- A parameter is one of `names`, and a reference has as many arguments as `arity` says. -/
def Fits (arity : SymbolId → Option Nat) (names : List String) (t : Ty) : Prop :=
  (∀ name index, t = .param name index → name ∈ names) ∧
    ∀ id count, t.symbol? = some id → arity id = some count → t.children.length = count

/-- All parameters in a type are among `names`, and all references have the right number of
arguments. -/
def ScopedIn (arity : SymbolId → Option Nat) (names : List String) (t : Ty) : Prop :=
  ∀ u ∈ t.parts, u.Fits arity names

variable {t : Ty}

theorem scopedIn_iff : t.ScopedIn arity names ↔
    t.Fits arity names ∧ ∀ c ∈ t.children, c.ScopedIn arity names :=
  forall_mem_parts

/-- A type that is neither a parameter nor a reference is in scope with what is inside it. -/
theorem scopedIn_of_children (hparam : ∀ name index, t ≠ .param name index)
    (hsymbol : t.symbol? = none) (h : ∀ c ∈ t.children, c.ScopedIn arity names) :
    t.ScopedIn arity names := by
  refine scopedIn_iff.2 ⟨⟨fun name index heq => absurd heq (hparam name index), ?_⟩, h⟩
  intro id count hid
  rw [hsymbol] at hid
  cases hid

theorem scopedIn_param {index : Nat} (h : name ∈ names) :
    (param name index).ScopedIn arity names := by
  refine scopedIn_iff.2 ⟨⟨fun name' index' heq => ?_, fun id count hid => nomatch hid⟩, ?_⟩
  · cases heq
    exact h
  · exact forall_mem_nil _

/-- With a type in scope for each parameter, a type is in scope after the substitution. -/
theorem ScopedIn.subst {args : Table String Ty} {names' : List String}
    (hargs : ∀ name ∈ names', ∃ u, args.get? name = some u ∧ u.ScopedIn arity names)
    (h : t.ScopedIn arity names') : (t.subst args).ScopedIn arity names := by
  obtain ⟨hfits, hchildren⟩ := scopedIn_iff.1 h
  induction t using paramInduction with
  | param name index =>
    obtain ⟨u, hu, hscoped⟩ := hargs name (hfits.1 name index rfl)
    rw [Ty.subst, hu]
    exact hscoped
  | step t hparam ih =>
    refine scopedIn_iff.2 ⟨⟨fun n i heq => absurd heq (subst_ne_param args hparam n i), ?_⟩, ?_⟩
    · rw [symbol?_subst args hparam, children_subst args hparam, length_map]
      exact hfits.2
    · rw [children_subst args hparam]
      refine forall_mem_map.2 fun c hc => ?_
      obtain ⟨hfits, hchildren'⟩ := scopedIn_iff.1 (hchildren c hc)
      exact ih c hc (hchildren c hc) hfits hchildren'

end Ty

/-- The types of a declaration speak of its own parameters. -/
structure TypeInfo.Scoped (arity : SymbolId → Option Nat) (info : TypeInfo) : Prop where
  params : ∀ p ∈ info.params, ∀ t, p.constraint = some t →
    t.ScopedIn arity (info.params.map (·.name))
  rhs : ∀ t, info.rhs = some t → t.ScopedIn arity (info.params.map (·.name))
  underlying : ∀ t, info.underlying = some t → t.ScopedIn arity (info.params.map (·.name))

theorem Symbol.scoped_type (hbody : s.body = .type info) :
    (∀ t ∈ s.types, t.ScopedIn arity (info.params.map (·.name))) ↔ info.Scoped arity :=
  (forall_types_iff hbody).trans
    ⟨fun h => ⟨h.1, h.2.1, h.2.2⟩, fun h => ⟨h.params, h.rhs, h.underlying⟩⟩

/-! ## Written references -/

def TypeSpec.paramNames (spec : TypeSpec) : List String := spec.params.flatMap (·.names)

/-- A type expression that is, or is inside, another. -/
def TypeExpr.Holds : TypeExpr → TypeExpr → Prop :=
  Relation.ReflTransGen fun t c => c ∈ t.children

namespace Outline

/-- The declared type that a name stands for, where type parameters with the names `params` are in
reach. -/
def target? (o : Outline) (scope : Scope) (params : List String) (package : Option String)
    (name : String) : Option SymbolId :=
  match package with
  | some package => (scope.imports.get? package).map (⟨some ·, name⟩)
  | none =>
    if name ∈ params then none else (o.symbols.get? name).map fun _ => ⟨some o.path, name⟩

/-- Every declared type in an expression has as many arguments as it needs. -/
def SaturatedAt (o : Outline) (arity : SymbolId → Option Nat) (scope : Scope)
    (params : List String) (t : TypeExpr) : Prop :=
  ∀ u, t.Holds u → ∀ package name count, (package, name, count) ∈ u.uses →
    ∀ id needed, o.target? scope params package name = some id → arity id = some needed →
      count = needed

/-- Every declared type that the types of a package are written with has as many arguments as it
needs. -/
def Saturated (o : Outline) (arity : SymbolId → Option Nat) : Prop :=
  ∀ name decl, o.types.get? name = some decl →
    ∀ t ∈ decl.spec.type :: decl.spec.params.map (·.constraint),
      o.SaturatedAt arity decl.scope decl.spec.paramNames t

variable {o : Outline} {scope : Scope} {params : List String}

theorem saturatedAt_iff : o.SaturatedAt arity scope params t ↔
    (∀ package name count, (package, name, count) ∈ t.uses → ∀ id needed,
      o.target? scope params package name = some id → arity id = some needed → count = needed) ∧
      ∀ c ∈ t.children, o.SaturatedAt arity scope params c := by
  constructor
  · exact fun h => ⟨h t .refl, fun c hc u hu => h u (.head hc hu)⟩
  · rintro ⟨hself, hchildren⟩ u hu
    rcases Relation.ReflTransGen.cases_head hu with rfl | ⟨c, hc, hu⟩
    · exact hself
    · exact hchildren c hc u hu

/-- The check of an expression that has a nesting of less than `depth`. -/
def isSaturated (o : Outline) (arity : SymbolId → Option Nat) (scope : Scope)
    (params : List String) : (depth : Nat) → TypeExpr → Bool
  | 0, _ => false
  | depth + 1, t =>
    (t.uses.all fun use =>
      ((o.target? scope params use.1 use.2.1).bind arity).all (use.2.2 = ·)) &&
    t.children.all (o.isSaturated arity scope params depth)

theorem saturatedAt_of_isSaturated {depth : Nat}
    (h : o.isSaturated arity scope params depth t = true) : o.SaturatedAt arity scope params t := by
  induction depth generalizing t with
  | zero => cases h
  | succ depth ih =>
    obtain ⟨huses, hchildren⟩ := Bool.and_eq_true_iff.1 h
    refine saturatedAt_iff.2 ⟨fun package name count huse id needed hid hneeded => ?_,
      fun c hc => ih (all_eq_true.1 hchildren c hc)⟩
    have hcount := all_eq_true.1 huses _ huse
    simp only [hid, Option.bind_some, hneeded, Option.all_some, decide_eq_true_eq] at hcount
    exact hcount

theorem SaturatedAt.child {c : TypeExpr} (h : o.SaturatedAt arity scope params t)
    (hc : c ∈ t.children) : o.SaturatedAt arity scope params c :=
  fun u hu => h u (.head hc hu)

theorem SaturatedAt.self (h : o.SaturatedAt arity scope params t) {needed : Nat}
    (huse : (package, name, count) ∈ t.uses)
    (htarget : o.target? scope params package name = some id) (harity : arity id = some needed) :
    count = needed :=
  h t .refl package name count huse id needed htarget harity

end Outline

/-! ## Parameters -/

/-- Type parameters by name, each of them one of `names`. -/
structure ParamTable (names : List String) (params : Table String Ty) : Prop where
  param : ∀ name t, params.get? name = some t → name ∈ names ∧ ∃ index, t = .param name index
  contains : ∀ name ∈ names, (params.get? name).isSome

theorem Resolving.paramTypes_table (decls : List TypeParamDecl) :
    ParamTable (decls.flatMap (·.names)) (paramTypes decls) := by
  -- the names before those that are still to come have been put in
  suffices h : ∀ (names before : List String) (params : Table String Ty), ParamTable before params →
      ParamTable (before ++ names) (names.foldl
        (fun params name => params.insert name (.param name params.size)) params) from
    h _ [] {} ⟨fun _ _ h => (nomatch h), forall_mem_nil _⟩
  intro names
  induction names with
  | nil =>
    intro before params h
    rwa [append_nil]
  | cons name names ih =>
    intro before params h
    rw [foldl_cons, ← singleton_append, ← append_assoc]
    refine ih _ _ ⟨fun name' t ht => ?_, fun name' hname' => ?_⟩
    · rw [Table.get?_insert] at ht
      split at ht
      · cases ht
        subst ‹name = name'›
        exact ⟨mem_concat_self, _, rfl⟩
      · exact ⟨mem_append_left _ (h.param name' t ht).1, (h.param name' t ht).2⟩
    · rw [Table.get?_insert]
      split
      · rfl
      · rename_i hne
        rcases mem_append.1 hname' with hname' | hname'
        · exact h.contains name' hname'
        · exact absurd (mem_singleton.1 hname').symm hne

namespace Resolving

variable {env : Surroundings} {resolve : String → Resolving Unit} {J : Store → Prop}

theorem instantiate_scoped {params : List TypeParam} {t : Ty}
    (hlength : args.length = params.length) (hargs : ∀ a ∈ args, a.ScopedIn arity names)
    (ht : t.ScopedIn arity (params.map (·.name))) :
    (instantiate params args t).ScopedIn arity names := by
  refine Ty.ScopedIn.subst (fun name hname => ?_) ht
  have hkey : name ∈ ((params.map (·.name)).zip args).map (·.1) := by
    rw [map_fst_zip (by simp [hlength])]
    exact hname
  obtain ⟨u, hu⟩ := Table.contains_iff.1 (Table.contains_ofList.2 hkey)
  exact ⟨u, hu, hargs u (of_mem_zip (Table.mem_of_get?_ofList hu)).2⟩

theorem reference_scoped {isAlias : Bool}
    (hcount : ∀ needed, arity id = some needed → args.length = needed)
    (hargs : ∀ a ∈ args, a.ScopedIn arity names) :
    (reference isAlias id args).ScopedIn arity names := by
  rw [reference]
  split <;> refine Ty.scopedIn_iff.2 ⟨⟨by simp, fun id' count hid => ?_⟩, hargs⟩
  all_goals
    cases hid
    exact hcount count

end Resolving

end DeclBridge
