import DeclBridge.Proofs.Replay

/-!
# Packages without what they import

A package that resolves in a program is resolved again in one that lacks some packages.  A missing
package is not fatal for those that import it, as long as they need to know nothing that only the
missing one can tell (`Outline.resolve_without`): types of the missing package become stubs, and
constants that depend on it lose their values.
-/

namespace DeclBridge

open Resolving

variable {S S' : Store} {names M : List String} {package : Package} {scope : Scope}

/-! ## Packages that are known in part -/

/-- What is left of a symbol's meaning without the packages `M`.  A constant has no value, or it has
a type of which nothing is known, or it is the same; if its value comes from one of the packages
`M`, it has none. -/
inductive SymbolBody.Degrades (M : List String) (env : Surroundings) (name : String) :
    SymbolBody → SymbolBody → Prop
  | type {info info' : TypeInfo} : info.Fades M info' → Degrades M env name (.type info) (.type info')
  | const {value value' : Option Constant} {type type' : Option Ty} :
    (value' = none ∨ env.HasKind (constant value' type').type none ∨
      value' = value ∧
        (constant value type).type.Alike M (constant value' type').type) →
    (∀ decl, env.outline.consts.get? name = some decl →
      env.outline.DependsOn M decl.scope decl.value → value' = none) →
    Degrades M env name (.const value type) (.const value' type')

/-- What is left of a symbol without the packages `M`. -/
structure Symbol.Degrades (M : List String) (env : Surroundings) (name : String) (s s' : Symbol) :
    Prop where
  bare : s.bare = s'.bare
  body : s.body.Degrades M env name s'.body

/-- What is left of a package without the packages `M`. -/
structure Package.Degrades (M : List String) (env : Surroundings) (package package' : Package) :
    Prop where
  path : package'.path = package.path
  name : package'.name = package.name
  imports : package'.imports = package.imports
  files : package'.files = package.files
  symbols : ∀ name, Option.Rel (Symbol.Degrades M env name) (package.symbols.get? name)
    (package'.symbols.get? name)

theorem Symbol.Fades.degrades {env : Surroundings} {name : String}
    {s s' : Symbol} (h : s.Fades M env S name s') : s.Degrades M env name s' := by
  refine ⟨h.bare, ?_⟩
  have hbody := h.body
  generalize s.body = body, s'.body = body' at hbody ⊢
  cases hbody with
  | type hinfo => exact .type hinfo
  | const hoperand hvalue =>
    refine .const ?_ hvalue
    rcases hoperand.value with hsame | ⟨-, hnone | hkind⟩
    · exact .inr (.inr hsame)
    · exact .inl hnone
    · exact .inr (.inl hkind)

/-! ## All symbols of a package -/

namespace Outline

variable {o : Outline} {p p' : Program} {limit : Nat}

/-- What the first resolution leaves behind. -/
theorem resolveAll_mirrored (h : p.Thins M o p') (houtline : o.Sound)
    (htolerates : M ≠ [] → Surroundings.Tolerates ⟨o, p', limit⟩)
    (hkinds : M ≠ [] → Surroundings.KindsKnown ⟨o, p', limit⟩)
    (hS : S.Mirrored M ⟨o, p', limit⟩) (hall : resolveAll ⟨o, p, limit⟩ S names = .ok (S', [])) :
    S'.Mirrored M ⟨o, p', limit⟩ ∧ S.Grows S' ∧ ∀ name ∈ names, S'.IsDone name := by
  induction names generalizing S with
  | nil =>
    cases hall
    exact ⟨hS, .refl _, List.forall_mem_nil _⟩
  | cons name names ih =>
    obtain ⟨S₁, hrun, hrest⟩ := resolveAll_cons_iff.1 hall
    obtain ⟨hS₁, hgrows, hdone⟩ := resolveSymbol_mirroring h houtline htolerates hkinds _
      S name S₁ hS hrun
    obtain ⟨hS', hgrows', hdone'⟩ := ih hS₁ hrest
    exact ⟨hS', hgrows.trans hgrows', List.forall_mem_cons.2 ⟨hgrows'.isDone hdone, hdone'⟩⟩

/-- A resolution goes through where every symbol can be resolved and nothing is in work. -/
theorem resolveAll_of_always (env : Surroundings)
    (halways : ∀ name ∈ names, ∃ S s, Always env S (lookUp · name) s)
    (hsettled : S'.Settled env) (hidle : ∀ name, S'.progress.get? name ≠ some .started) :
    ∃ S₁', resolveAll env S' names = .ok (S₁', []) ∧ S₁'.Settled env ∧ S'.Extends S₁' ∧
      ∀ name ∈ names, S₁'.IsDone name := by
  induction names generalizing S' with
  | nil => exact ⟨S', rfl, hsettled, .refl S', List.forall_mem_nil _⟩
  | cons name names ih =>
    rw [List.forall_mem_cons] at halways
    obtain ⟨S, s, hname⟩ := halways.1
    obtain ⟨S₁', hrun, hsettled₁, hcalm⟩ := hname _ S' hsettled (Store.untried_lt _ _)
      fun name' _ => hidle name'
    obtain ⟨⟨⟩, S₂', hresolve, hget⟩ := Computation.bind_eq_ok hrun
    cases hget
    obtain ⟨S₂', hrest, hsettled₂, hextends, hdone⟩ := ih halways.2 hsettled₁
      fun name' hstarted => hidle name' (hcalm.started name' hstarted)
    have hdone₁ : S₁'.IsDone name := isDone_of_resolveSymbol (hsettled.clean name) hresolve
    exact ⟨S₂', resolveAll_cons_iff.2 ⟨S₁', hresolve, hrest⟩, hsettled₂,
      hcalm.marks.trans hextends, List.forall_mem_cons.2 ⟨hextends name _ hdone₁, hdone⟩⟩

/-- In a package that resolves, every symbol can be resolved first. -/
theorem resolves_of_resolveWithin (houtline : o.Sound)
    (h : o.resolveWithin limit p = .ok package) : Surroundings.Resolves ⟨o, p, limit⟩ := by
  obtain ⟨S, -, hall, -⟩ := resolveWithin_iff.1 h
  obtain ⟨hS, -, hdone⟩ := resolveAll_mirrored (Program.thins_self o p) houtline (absurd rfl)
    (absurd rfl) (Store.start_mirrored [] ⟨o, p, limit⟩) hall
  intro name hname
  obtain ⟨s, -, halways⟩ := hS.done name (hdone name (Table.mem_keys_iff.2 hname))
  exact ⟨s, halways.finds⟩

/-- A package that needs nothing of the packages `M` resolves without them. -/
theorem resolveWithin_degrades (h : p.Thins M o p') (houtline : o.Sound)
    (htolerates : Surroundings.Tolerates ⟨o, p', limit⟩)
    (hkinds : Surroundings.KindsKnown ⟨o, p', limit⟩)
    (hpackage : o.resolveWithin limit p = .ok package) :
    ∃ package', o.resolveWithin limit p' = .ok package' ∧
      package.Degrades M ⟨o, p', limit⟩ package' := by
  obtain ⟨S, hredeclared, hall, rfl⟩ := resolveWithin_iff.1 hpackage
  obtain ⟨hS, -, hdone⟩ := resolveAll_mirrored h houtline (fun _ => htolerates) (fun _ => hkinds)
    (Store.start_mirrored M ⟨o, p', limit⟩) hall
  have halways (name : String) (hname : name ∈ o.symbols.keys) :
      ∃ s', Option.Rel (Symbol.Fades M ⟨o, p', limit⟩ S name) (S.symbols.get? name) s' ∧
        Always ⟨o, p', limit⟩ S (lookUp · name) s' := hS.done name (hdone name hname)
  obtain ⟨S', hall', hsettled, -, hdone'⟩ := resolveAll_of_always ⟨o, p', limit⟩
    (fun name hname => ⟨S, (halways name hname).imp fun _ hs => hs.2⟩)
    (Store.start_settled ⟨o, p', limit⟩) fun _ hstarted => nomatch hstarted
  refine ⟨_, resolveWithin_iff.2 ⟨S', hredeclared, hall', rfl⟩, rfl, rfl, rfl, rfl, fun name => ?_⟩
  by_cases hname : name ∈ o.symbols.keys
  · -- the second resolution has left what is found where nothing is resolved yet
    obtain ⟨s', hfades, hs'⟩ := halways name hname
    obtain rfl := hs'.finds.unique (hsettled.done name (hdone' name hname))
    dsimp only
    generalize S.symbols.get? name = s, S'.symbols.get? name = s' at hfades ⊢
    cases hfades with
    | none => exact .none
    | some hfades => exact .some hfades.degrades
  · have hnone : o.symbols.get? name = none := by
      rw [Table.mem_keys_iff, Table.contains, Option.isSome_iff_ne_none, not_not] at hname
      exact hname
    have hS₁ := hS.bare name
    have hS₂ := hsettled.bare name
    rw [hnone, Option.map_none, Option.map_eq_none_iff] at hS₁ hS₂
    rw [hS₁, hS₂]
    exact .none

/-- A package that resolves in the program `p` is resolved in `p'`, which lacks the packages `M`.
It resolves only if it tolerates what is missing.  If it does, and works with no value of a type of
which nothing is known, then it resolves: the types of the missing packages are stubs, and the
constants that depend on these packages have no value.  Packages that are imported without a name
of their own must be known by the names that they have. -/
theorem resolve_without {path : String} {files : List SourceFile} {package : Package}
    (hthins : p.Thins M (ofFiles p path files) p')
    (hnames : ∀ file ∈ files, ∀ spec ∈ file.imports, spec.localName = none →
      p'.packageName spec.path = p.packageName spec.path)
    (hpackage : (ofFiles p path files).resolve p = .ok package) :
    ((∃ package', (ofFiles p' path files).resolve p' = .ok package') →
      Surroundings.Tolerates ⟨ofFiles p' path files, p', aliasLimit⟩) ∧
    (Surroundings.Tolerates ⟨ofFiles p' path files, p', aliasLimit⟩ →
      Surroundings.KindsKnown ⟨ofFiles p' path files, p', aliasLimit⟩ →
      (∃ package', (ofFiles p' path files).resolve p' = .ok package' ∧
        package.Degrades M ⟨ofFiles p' path files, p', aliasLimit⟩ package') ∧
      ∀ id : SymbolId, id.isIn M = true → (p'.typeInfo id).isStub = true) := by
  rw [ofFiles_congr hnames]
  have hsound := (ofFiles_sound p path files).1
  refine ⟨fun ⟨package', hpackage'⟩ => ?_, fun htolerates hkinds => ⟨?_, fun id hid => ?_⟩⟩
  · exact Surroundings.tolerates_of_resolves hsound (resolves_of_resolveWithin hsound hpackage')
  · exact resolveWithin_degrades hthins hsound htolerates hkinds hpackage
  · rw [hthins.typeInfo_of_isIn hid]
    rfl

/-- A program with a package that declares the type `S` and the constant `B`. -/
def lender : Program where
  packages := ⟨[("q", {
    path := "q", name := "q"
    symbols := ⟨[
      ("S", { name := "S", package := some "q", body := .type { underlying := some (.struct []) } }),
      ("B", { name := "B", package := some "q", body := .const (some (.bool true)) none })]⟩ })]⟩

/-- A file that imports it: `type T q.S` and `const C = q.B`. -/
def borrower : SourceFile where
  package := "u"
  imports := [⟨.start, "q", none⟩]
  types := [⟨.start, "T", [], .ref .start (some "q") "S" [], false⟩]
  consts := [⟨.start, ["C"], none, [.select .start (.ident .start "q") "B"], 0⟩]
  path := none

theorem borrower_writes {t : TypeExpr}
    (h : (ofFiles {} "u" [borrower]).Writes scope t) : t = .ref .start (some "q") "S" [] := by
  induction h with
  | type _ hdecl =>
    obtain ⟨-⟩ | ⟨_, ⟨⟩⟩ := Table.mem_entries_of_get? hdecl
    rfl
  | constraint _ hdecl hparam =>
    obtain ⟨-⟩ | ⟨_, ⟨⟩⟩ := Table.mem_entries_of_get? hdecl
    cases hparam
  | constant _ hdecl htype =>
    obtain ⟨-⟩ | ⟨_, ⟨⟩⟩ := Table.mem_entries_of_get? hdecl
    cases htype
  | part _ hc ih =>
    subst ih
    cases hc

theorem borrower_evaluates {iota : Option Nat} {e : Expr}
    (h : (ofFiles {} "u" [borrower]).Evaluates scope iota e) :
    e = .select .start (.ident .start "q") "B" := by
  induction h with
  | constant _ hdecl =>
    obtain ⟨-⟩ | ⟨_, ⟨⟩⟩ := Table.mem_entries_of_get? hdecl
    rfl
  | length hwrites => exact absurd (borrower_writes hwrites) nofun
  | operand _ ih | left _ ih | right _ ih | argument _ ih => cases ih

theorem borrower_kindsKnown : Surroundings.KindsKnown ⟨ofFiles {} "u" [borrower], {}, aliasLimit⟩ := by
  intro scope iota e x huses
  cases huses with
  | operand he | left he | right he | measured he => exact absurd (borrower_evaluates he) nofun
  | length hwrites => exact absurd (borrower_writes hwrites) nofun
  | converted hconverts =>
    cases hconverts with
    | named he | qualified he => exact absurd (borrower_evaluates he) nofun
    | constant _ hdecl htype =>
      obtain ⟨-⟩ | ⟨_, ⟨⟩⟩ := Table.mem_entries_of_get? hdecl
      cases htype

theorem lender_thins : lender.Thins ["q"] (ofFiles lender "u" [borrower]) {} where
  packages path := by
    by_cases hpath : path = "q"
    · rw [if_pos (List.mem_singleton.2 hpath)]
      rfl
    · simp [lender, Table.get?, Ne.symm hpath]
  own := by decide
  symbols path hpath package hpackage name s hs := by
    obtain ⟨-⟩ | ⟨_, ⟨⟩⟩ := Table.mem_entries_of_get? hpackage
    obtain ⟨-⟩ | ⟨_, ⟨-⟩ | ⟨_, ⟨⟩⟩⟩ := Table.mem_entries_of_get? hs <;> rfl

/-- Without the package that it imports the file still resolves, and its constant has no value. -/
theorem resolve_without_borrower :
    ∃ package package', (ofFiles lender "u" [borrower]).resolve lender = .ok package ∧
      (ofFiles {} "u" [borrower]).resolve {} = .ok package' ∧
      package.Degrades ["q"] ⟨ofFiles {} "u" [borrower], {}, aliasLimit⟩ package' ∧
      (package.symbols.get? "C").map (·.body) = some (.const (some (.bool true)) none) ∧
      (package'.symbols.get? "C").map (·.body) = some (.const none none) := by
  have hnames : ∀ file ∈ [borrower], ∀ spec ∈ file.imports, spec.localName = none →
      ({} : Program).packageName spec.path = lender.packageName spec.path := by decide +kernel
  obtain ⟨hneeds, hsuffices⟩ := resolve_without lender_thins hnames rfl
  obtain ⟨⟨package', hpackage', hdegrades⟩, -⟩ := hsuffices (hneeds ⟨_, rfl⟩) borrower_kindsKnown
  refine ⟨_, package', rfl, hpackage', hdegrades, rfl, ?_⟩
  cases hpackage'
  rfl

end Outline

end DeclBridge
