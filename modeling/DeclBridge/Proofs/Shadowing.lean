import DeclBridge.Proofs.DeclaredTypes

/-!
# Types hidden by type parameters

A name in a declaration is looked up among the type parameters first, so a parameter hides the type
of the package that has its name.  What is written in a declaration therefore never refers to a
hidden type, neither in the constraints nor in the type itself (`Resolving.carries_avoids`).

The structure of a declared type need not be written in its declaration.  A type that is declared by
the name of another takes over what lies behind that name, and this was written under other
parameters.  Declarations of this kind are the only ones with references to types that their own
parameters hide (`Program.load_unhidden`).
-/

namespace DeclBridge

open Resolving

variable {name : String} {args : List Ty} {info : TypeInfo} {s : Symbol} {path : String} {t : Ty}
  {package : Package} {names : List String} {p : Program} {sources : Sources}

/-! ## Types -/

namespace Ty

/-- Nothing in the type refers to one of the types of a package with the given names. -/
def Avoids (path : String) (names : List String) (t : Ty) : Prop :=
  ∀ u ∈ t.parts, ∀ name ∈ names, u.symbol? ≠ some ⟨some path, name⟩

theorem avoids_iff : t.Avoids path names ↔ (∀ name ∈ names, t.symbol? ≠ some ⟨some path, name⟩) ∧
      ∀ c ∈ t.children, c.Avoids path names :=
  forall_mem_parts

theorem avoids_of_children (hsymbol : t.symbol? = none)
    (h : ∀ c ∈ t.children, c.Avoids path names) : t.Avoids path names := by
  refine avoids_iff.2 ⟨fun name _ heq => ?_, h⟩
  cases hsymbol.symm.trans heq

end Ty

/-- A type that is declared by the name of another, whose structure it takes over. -/
def TypeSpec.TakesOver (spec : TypeSpec) : Prop :=
  spec.isAlias = false ∧ ∃ pos package name args, spec.type = .ref pos package name args

/-- The types of a declaration refer to no type of the package that its parameters hide, unless its
structure is taken over from another one. -/
structure TypeInfo.Unhidden (path : String) (spec : TypeSpec) (info : TypeInfo) : Prop where
  names : info.params.map (·.name) = spec.paramNames
  constraint : ∀ p ∈ info.params, ∀ t, p.constraint = some t → t.Avoids path spec.paramNames
  written : ∀ t, info.written = some t → t.Avoids path spec.paramNames ∨ spec.TakesOver

/-! ## Resolution -/

namespace Resolving

variable {env : Surroundings} {resolve : String → Resolving Unit} {scope : Scope}
  {params : Table String Ty}

theorem reference_avoids {isAlias : Bool} {id : SymbolId}
    (hid : ∀ name ∈ names, id ≠ ⟨some path, name⟩) (hargs : ∀ a ∈ args, a.Avoids path names) :
    (reference isAlias id args).Avoids path names := by
  have hsymbol (name : String) (hname : name ∈ names) : some id ≠ some ⟨some path, name⟩ :=
    fun heq => hid name hname (Option.some.inj heq)
  rw [reference]
  split <;> exact Ty.avoids_iff.2 ⟨hsymbol, hargs⟩

theorem predeclared?_avoids (h : predeclared? name = some t) : t.Avoids path names := by
  refine predeclared?_mem (fun t _ hsymbol hnone => ?_) (fun name' => ?_) h
  · refine Ty.avoids_of_children hsymbol fun _ hc => ?_
    rw [hnone] at hc
    cases hc
  · exact Ty.avoids_iff.2 ⟨fun _ _ heq => (nomatch heq), List.forall_mem_nil _⟩

section

variable {G : Symbol → Prop} {J : Store → Prop}
  (hstage : env.Stage p G package) (hscope : scope.ImportsFrom env.outline.imports)
  (hparams : ParamTable names params)

include hstage hscope hparams

/-- A name stands for no type of the package that a parameter hides: the parameters come first, and
what is imported belongs to other packages. -/
theorem typeNamed_avoids {pos : Position} {label : Option String}
    (hargs : ∀ a ∈ args, a.Avoids env.outline.path names) :
    Gives J (typeNamed env scope params pos label name args)
      (Ty.Avoids env.outline.path names) := by
  refine typeNamed_gives (fun label _ => ?_) (fun t ht => ?_) (fun _ hnone s info hs _ => ?_)
    fun t ht => predeclared?_avoids ht
  · have hother {path : String} {s : Symbol} (hpath : scope.imports.get? label = some path)
        (hs : s.package = some path) (isAlias : Bool) :
        (reference isAlias s.id args).Avoids env.outline.path names := by
      refine reference_avoids (fun name' _ heq => ?_) hargs
      exact (hstage.imports path (hscope label path hpath)).1
        (Option.some.inj (hs.symm.trans (SymbolId.mk.inj heq).1))
    refine Judgement.single_imported (P := fun _ => True) (fun _ _ _ _ => trivial) trivial
      (fun path hpath _ info _ => hother hpath rfl _) fun path Q s hpath hQ hs info _ => ?_
    exact hother hpath ((hstage.others path Q hQ).2 name s hs).2.1 _
  · obtain ⟨-, index, rfl⟩ := hparams.param name t ht
    exact Ty.avoids_of_children rfl (List.forall_mem_nil _)
  · -- a type of the package itself, under a name that is no parameter's
    refine reference_avoids (fun name' hname' heq => ?_) hargs
    obtain ⟨hname, -⟩ := hstage.outline.symbol name s hs
    obtain rfl : name = name' := hname.symm.trans (SymbolId.mk.inj heq).2
    have hsome := hparams.contains name hname'
    rw [hnone] at hsome
    cases hsome

theorem carries_avoids {S₀ : Store} (hresolve : Completes env G S₀ resolve) :
    Carries env resolve (Store.DoneIn env G S₀) scope params (Ty.Avoids env.outline.path names)
      fun _ => True where
  made _ _ hsymbol hchildren := Ty.avoids_of_children hsymbol hchildren
  part _ _ _ _ := trivial
  named _ _ _ _ _ _ _ hargs := typeNamed_avoids hstage hscope hparams hargs
  length _ _ := (hresolve.confined hstage).arrayLength_gives fun _ _ _ => trivial
  behind _ _ := ((hresolve.confined hstage).underlying_gives fun _ _ _ _ _ => trivial).mono
    fun _ _ => trivial

end

theorem typeOf_symbol? {t : TypeExpr}
    (ht : ∀ pos package name args, t ≠ .ref pos package name args) :
    Gives (fun _ => True) (typeOf env resolve scope params t) fun u => u.symbol? = none := by
  cases t with
  | ref pos package name args => exact absurd rfl (ht pos package name args)
  | pointer | slice | chan | struct | union =>
    rw [typeOf]
    exact (Gives.unconditional _).bind fun _ _ => Returns.pure rfl
  | array | map | func | interface =>
    rw [typeOf]
    exact (Gives.unconditional _).bind fun _ _ =>
      (Gives.unconditional _).bind fun _ _ => Returns.pure rfl

end Resolving

/-! ## Loading -/

namespace Loading

variable {missing : String → Prop} {packages : Table String Package} {files : List SourceFile}

theorem Resolved.mem_imports (h : Resolved sources missing packages path package files)
    {q : String} : q ∈ package.imports ↔ q ∈ importsOf files := by
  obtain ⟨failures, hresolve⟩ := h.resolve
  obtain ⟨S, -, -, rfl⟩ := Outline.resolveWithin_iff.1 hresolve
  exact mem_imports_ofFiles_iff

/-- Imports lead to packages that were built before, or to missing ones. -/
theorem Built.exists_rank (h : Built sources missing packages) :
    ∃ rank : String → Nat, ∀ path package, packages.get? path = some package →
      ∀ q ∈ package.imports, rank q < rank path := by
  suffices hbound : ∃ (rank : String → Nat) (bound : Nat), (∀ q, rank q ≤ bound) ∧
      ∀ path package, packages.get? path = some package → ∀ q ∈ package.imports,
        (packages.contains q = true ∨ missing q) ∧ rank q < rank path by
    obtain ⟨rank, bound, -, hrank⟩ := hbound
    exact ⟨rank, fun path package hpackage q hq => (hrank path package hpackage q hq).2⟩
  induction h with
  | empty => exact ⟨fun _ => 0, 0, fun _ => Nat.le_refl 0, fun _ _ hpackage => nomatch hpackage⟩
  | @insert packages path package files _ hfree hnot hresolved ih =>
    obtain ⟨rank, bound, hbound, hrank⟩ := ih
    have hother (q : String) (hq : packages.contains q = true ∨ missing q) : q ≠ path := by
      rintro rfl
      rcases hq with hq | hq
      · rw [Table.contains, hfree] at hq
        cases hq
      · exact hnot hq
    have hkept (q : String) (hq : packages.contains q = true ∨ missing q) :
        (packages.insert path package).contains q = true ∨ missing q :=
      hq.imp_left fun hthere => (Table.contains_insert packages path package q).2 (.inl hthere)
    -- the new package is above all others
    refine ⟨fun q => if q = path then bound + 1 else rank q, bound + 1, fun q => ?_, ?_⟩
    · have hq := hbound q
      dsimp only
      split <;> omega
    · intro q Q hQ i hi
      rw [Table.get?_insert] at hQ
      split at hQ
      · cases hQ
        subst ‹path = q›
        have htried := hresolved.imports i (hresolved.mem_imports.1 hi)
        have hi' := hbound i
        dsimp only
        rw [if_pos rfl, if_neg (hother i htried)]
        exact ⟨hkept i htried, by omega⟩
      · rename_i hne
        obtain ⟨htried, hlt⟩ := hrank q Q hQ i hi
        dsimp only
        rw [if_neg (Ne.symm hne), if_neg (hother i htried)]
        exact ⟨hkept i htried, hlt⟩

end Loading

namespace Program

variable {patterns : List String} {log : List LogLine}

theorem load_antisymm (hload : Program.load sources patterns = (.ok p, log)) {a b : String}
    (hab : p.Reaches a b) (hba : p.Reaches b a) : a = b := by
  obtain ⟨rank, hrank⟩ := (load_built hload).exists_rank
  have hstep {a b : String} (h : p.Imports a b) : rank b < rank a := by
    rw [Imports, importsOf] at h
    cases hpackage : p.packages.get? a with
    | none =>
      rw [hpackage] at h
      exact absurd h List.not_mem_nil
    | some package =>
      rw [hpackage] at h
      exact hrank a package hpackage b h
  have hle {a b : String} (h : p.Reaches a b) : rank b ≤ rank a := by
    induction h with
    | refl => exact Nat.le_refl _
    | tail _ h ih => exact (hstep h).le.trans ih
  rcases Relation.ReflTransGen.cases_head hab with heq | ⟨c, hac, hcb⟩
  · exact heq
  · have hlt := hstep hac
    have hcb' := hle hcb
    have hba' := hle hba
    omega

/-- In a loaded program, the types of a declaration refer to no type of their package that the
parameters of the declaration hide, unless its structure is taken over from another one. -/
theorem load_unhidden (hload : Program.load sources patterns = (.ok p, log))
    (hpackage : p.packages.get? path = some package) (hs : package.symbols.get? name = some s)
    (hbody : s.body = .type info) :
    ∃ o decl, sources.outline? p path = some o ∧ o.types.get? name = some decl ∧
      info.Unhidden path decl.spec := by
  refine (fun h => ?_) ((load_types hload (H := fun id info => ∀ path, id.package = some path →
      ∃ o decl, sources.outline? p path = some o ∧ o.types.get? id.name = some decl ∧
        info.Unhidden path decl.spec)
    fun env package name decl S₀ resolve houtline hstage hdecl hresolve => ?_) hpackage hs)
  · obtain ⟨hid, hinfo⟩ := h
    rw [hid] at hinfo
    exact hinfo info hbody path rfl
  have hcarries := carries_avoids hstage (hstage.outline.typeScope name decl hdecl)
    (paramTypes_table decl.spec.params) hresolve
  -- a type that takes nothing over and is no alias is not written as a name
  have hplain : Gives (fun _ => True) (typeOf env resolve decl.scope
      (paramTypes decl.spec.params) decl.spec.type)
      fun t => ¬ decl.spec.TakesOver → decl.spec.isAlias = false → t.symbol? = none :=
    (Triple.all fun hover => Triple.all fun halias => typeOf_symbol?
      fun pos package name args heq => hover ⟨halias, pos, package, name, args, heq⟩).post
      (fun _ _ h => ⟨trivial, fun hover halias => (h hover halias).2⟩)
  refine ⟨_, _, fun _ => True, ((hcarries.paramsOf_gives fun _ _ => trivial).and
      (paramsOf_names _)).post (fun _ _ h => ⟨h.1.1, And.intro h.1.2 h.2⟩),
    ((hcarries.typeOf_gives trivial).and (hplain.pre fun _ _ => trivial)).post
      (fun _ _ h => ⟨h.1.1, And.intro h.1.2 h.2.2⟩),
    fun _ _ => trivial, fun _ _ _ _ _ _ _ => trivial, fun params type behind hparams htype _ hbehind =>
      fun path hpath => ?_⟩
  obtain rfl := Option.some.inj hpath
  refine ⟨_, decl, houtline, hdecl, hparams.2, hparams.1, fun t ht => ?_⟩
  refine or_iff_not_imp_right.2 fun hover => ?_
  cases halias : decl.spec.isAlias with
  | true =>
    simp only [TypeInfo.written, TypeDecl.resolved, halias, if_true] at ht
    cases ht
    exact htype.1
  | false =>
    simp only [TypeInfo.written, TypeDecl.resolved, halias, Bool.false_eq_true, if_false] at ht
    cases ht
    rw [Outline.aliasLimit, underlyingWithin_self p _ (htype.2 hover halias)] at hbehind
    cases hbehind
    exact htype.1

end Program

end DeclBridge
