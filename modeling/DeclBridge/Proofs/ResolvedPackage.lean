import DeclBridge.Proofs.Outline
import DeclBridge.Proofs.Program
import DeclBridge.Proofs.Resolution

/-!
# Packages that resolve

A symbol that is done is complete: what its definition is written from is there.  This is an
invariant of the store (`Store.Sound`), kept by the resolution of every symbol; while a symbol is
being resolved it is only started, and nested resolutions leave the marks of all symbols that have
one alone (`Store.Extends`).

A failure goes all the way up and is reported.  So in a package without reports no symbol is left
that failed, and all are done (`Outline.resolveAll_spec`).
-/

namespace DeclBridge

open Table

variable {name : String} {body : SymbolBody} {mark : Progress} {J : Store → Prop} {o : Outline}
  {names : List String} {limit : Nat} {program : Program} {package : Package}

def Outline.DeclaresType (o : Outline) (name : String) : Prop :=
  ∃ s info, o.symbols.get? name = some s ∧ s.body = .type info

namespace Store

/-- What is started or done stays so. -/
def Extends (S S' : Store) : Prop :=
  ∀ name mark, S.progress.get? name = some mark → S'.progress.get? name = some mark

/-- What the store of a resolution without failures satisfies: among the rest, what is stored as a
type was declared as one. -/
structure Sound (R : String → Prop) (o : Outline) (S : Store) : Prop where
  within : S.Within R
  keys : S.symbols.keys = o.symbols.keys
  symbol : ∀ name s, S.symbols.get? name = some s → s.name = name ∧ s.package = some o.path
  declared : ∀ name s info, S.symbols.get? name = some s → s.body = .type info →
    o.DeclaresType name
  clean : ∀ name, S.progress.get? name ≠ some .failed
  complete : ∀ name s, S.progress.get? name = some .done → S.symbols.get? name = some s →
    s.IsComplete

variable {R : String → Prop} {S S₀ S₁ : Store}

theorem Extends.refl (S : Store) : S.Extends S := fun _ _ h => h

theorem Extends.trans {S₁ S₂ S₃ : Store} (h : S₁.Extends S₂) (h' : S₂.Extends S₃) : S₁.Extends S₃ :=
  fun name mark hmark => h' name mark (h name mark hmark)

def withBody (S : Store) (name : String) (body : SymbolBody) : Store :=
  { S with symbols := S.symbols.modify name fun symbol => { symbol with body } }

def withMark (S : Store) (name : String) (mark : Progress) : Store :=
  { S with progress := S.progress.insert name mark }

theorem get?_withBody {name' : String} {s : Symbol}
    (h : (S.withBody name body).symbols.get? name' = some s) :
    ∃ s₀, S.symbols.get? name' = some s₀ ∧ s.id = s₀.id ∧
      (name = name' ∧ s.body = body ∨ name ≠ name' ∧ s = s₀) := by
  rw [withBody, get?_modify] at h
  split at h
  · obtain ⟨s₀, hs₀, rfl⟩ := Option.map_eq_some_iff.1 h
    exact ⟨s₀, hs₀, rfl, .inl ⟨‹_›, rfl⟩⟩
  · exact ⟨s, h, rfl, .inr ⟨‹_›, rfl⟩⟩

theorem body_withBody {s : Symbol}
    (h : (S.withBody name body).symbols.get? name = some s) : s.body = body := by
  obtain ⟨s₀, -, -, ⟨-, heq⟩ | ⟨hne, -⟩⟩ := get?_withBody h
  · exact heq
  · exact absurd rfl hne

/-- A body that stays in `R` may be stored for a symbol that is only started. -/
theorem Sound.withBody (h : S.Sound R o)
    (hbody : ∀ s : Symbol, s.body = body → s.Within R)
    (hdeclared : ∀ info, body = .type info → o.DeclaresType name)
    (hstarted : S.progress.get? name = some .started) : (S.withBody name body).Sound R o where
  within name' s hs := by
    obtain ⟨s₀, hs₀, -, ⟨-, heq⟩ | ⟨-, rfl⟩⟩ := get?_withBody hs
    · exact hbody s heq
    · exact h.within name' s hs₀
  keys := (keys_modify S.symbols name _).trans h.keys
  symbol name' s hs := by
    obtain ⟨s₀, hs₀, hid, -⟩ := get?_withBody hs
    obtain ⟨hpackage, hname⟩ := SymbolId.mk.inj hid
    rw [hpackage, hname]
    exact h.symbol name' s₀ hs₀
  declared name' s info hs hinfo := by
    obtain ⟨s₀, hs₀, -, ⟨rfl, heq⟩ | ⟨-, rfl⟩⟩ := get?_withBody hs
    · exact hdeclared info (heq.symm.trans hinfo)
    · exact h.declared name' s info hs₀ hinfo
  clean := h.clean
  complete name' s hdone hs := by
    obtain ⟨s₀, hs₀, -, ⟨rfl, -⟩ | ⟨-, rfl⟩⟩ := get?_withBody hs
    · rw [show S.progress.get? name = some .done from hdone] at hstarted
      cases hstarted
    · exact h.complete name' s hdone hs₀

theorem clean_withMark (h : ∀ name, S.progress.get? name ≠ some .failed)
    (hmark : mark ≠ .failed) (name' : String) :
    (S.withMark name mark).progress.get? name' ≠ some .failed := by
  rw [Store.withMark, get?_insert]
  split
  · exact fun heq => hmark (Option.some.inj heq)
  · exact h name'

/-- A symbol may be started, and it may be done when it is complete. -/
theorem Sound.withMark (h : S.Sound R o) (hmark : mark ≠ .failed)
    (hcomplete : mark = .done → ∀ s, S.symbols.get? name = some s → s.IsComplete) :
    (S.withMark name mark).Sound R o where
  within := h.within
  keys := h.keys
  symbol := h.symbol
  declared := h.declared
  clean := clean_withMark h.clean hmark
  complete name' s hdone hs := by
    rw [Store.withMark, get?_insert] at hdone
    split at hdone
    · cases hdone
      subst ‹name = name'›
      exact hcomplete rfl s hs
    · exact h.complete name' s hdone hs

theorem Extends.withMark (h : S₀.Extends S)
    (hfree : S₀.progress.get? name = none) : S₀.Extends (S.withMark name mark) := by
  intro name' mark' hmark'
  rw [Store.withMark, get?_insert]
  split
  · subst ‹name = name'›
    cases hfree.symm.trans hmark'
  · exact h name' mark' hmark'

theorem Extends.withBody (h : S₀.Extends S) :
    S₀.Extends (S.withBody name body) := h

/-- A store that is sound and has grown from another. -/
def SoundFrom (R : String → Prop) (o : Outline) (S₀ S : Store) : Prop :=
  S.Sound R o ∧ S₀.Extends S

end Store

namespace Resolving

variable {R : String → Prop} {env : Surroundings} {resolve : String → Resolving Unit} {S₀ : Store}
  {name : String}

/-! ## Declarations -/

theorem paramsOf_names {scope : Scope} {params : Table String Ty} (decls : List TypeParamDecl) :
    Triple J (paramsOf env resolve scope params decls)
      (fun ps _ => ps.map (·.name) = decls.flatMap (·.names)) fun _ _ => True := by
  suffices hnames : Gives (fun _ => True) (paramsOf env resolve scope params decls)
      fun ps => ps.map (·.name) = decls.flatMap (·.names) from
    hnames.weaken (fun _ _ => trivial) (fun _ _ h => h.2) fun _ _ h => h
  induction decls with
  | nil => exact .pure rfl
  | cons decl decls ih =>
    rw [paramsOf]
    refine (Gives.unconditional _).bind fun constraint _ => ih.bind fun more hmore => .pure ?_
    simp [hmore, Function.comp_def]

theorem setBody_gives (hbody : ∀ s : Symbol, s.body = body → s.Within R)
    (hdeclared : ∀ info, body = .type info → env.outline.DeclaresType name)
    (hstarted : S₀.progress.get? name = some .started) :
    Gives (Store.SoundFrom R env.outline S₀) (setBody name body) fun _ => True :=
  .update fun _ hS => ⟨⟨hS.1.withBody hbody hdeclared (hS.2 name _ hstarted),
    hS.2.withBody⟩, trivial⟩

/-- What is stored of a declared type in the end is complete, and an alias where it is declared as
one. -/
theorem resolveType_stores {decl : TypeDecl} : Triple J (resolveType env resolve name decl)
      (fun _ S => ∀ s, S.symbols.get? name = some s → s.IsComplete ∧
        ∃ info, s.body = .type info ∧ info.isAlias = decl.spec.isAlias) fun _ _ => True := by
  suffices h : Triple (fun _ => True) (resolveType env resolve name decl)
      (fun _ S => ∀ s, S.symbols.get? name = some s → ∃ info, s.body = .type info ∧
        info.isAlias = decl.spec.isAlias ∧ info.written.isSome) fun _ _ => True by
    refine h.weaken (fun _ _ => trivial) (fun _ S h s hs => ?_) fun _ _ h => h
    obtain ⟨info, hbody, halias, hwritten⟩ := h s hs
    refine ⟨fun info' hbody' => ?_, info, hbody, halias⟩
    cases hbody.symm.trans hbody'
    exact hwritten
  rw [resolveType]
  refine (Gives.unconditional _).bind_triple fun ps _ => ?_
  refine (Gives.unconditional _).bind_triple fun _ _ => ?_
  refine (Gives.unconditional _).bind_triple fun type _ => ?_
  refine (Gives.unconditional _).bind_triple fun _ _ => ?_
  refine (Gives.unconditional _).bind_triple fun behind _ => ?_
  refine .update fun S _ s hs => ⟨_, Store.body_withBody hs, ?_⟩
  cases halias : decl.spec.isAlias <;> exact ⟨rfl, rfl⟩

theorem resolveConst_stores {decl : ConstDecl} : Triple J (resolveConst env resolve name decl)
      (fun _ S => ∀ s, S.symbols.get? name = some s → ∃ value type, s.body = .const value type)
      fun _ _ => True := by
  suffices h : Triple (fun _ => True) (resolveConst env resolve name decl)
      (fun _ S => ∀ s, S.symbols.get? name = some s → ∃ value type, s.body = .const value type)
      fun _ _ => True from h.pre fun _ _ => trivial
  have hset (x : Operand) : Triple (fun _ => True)
      (setBody name (.const x.value (if x.type.isUntyped then none else some x.type)))
      (fun _ S => ∀ s, S.symbols.get? name = some s → ∃ value type, s.body = .const value type)
      fun _ _ => True :=
    .update fun S _ s hs => ⟨_, _, Store.body_withBody hs⟩
  unfold resolveConst
  refine (Gives.unconditional _).bind_triple fun x _ => ?_
  cases decl.spec.type with
  | none => exact hset x
  | some t =>
    refine (Gives.unconditional _).bind_triple fun target _ => ?_
    exact (Gives.unconditional _).bind_triple fun y _ => hset y

section

variable (h : Confined R env resolve (Store.SoundFrom R env.outline S₀))
  (hstarted : S₀.progress.get? name = some .started)

include h hstarted

theorem resolveType_spec (hdeclared : env.outline.DeclaresType name) {decl : TypeDecl}
    (hscope : decl.scope.Within R) :
    Triple (Store.SoundFrom R env.outline S₀) (resolveType env resolve name decl)
      (fun _ S => Store.SoundFrom R env.outline S₀ S ∧
        ∀ s, S.symbols.get? name = some s → s.IsComplete) (fun _ _ => True) := by
  have htype := h.leads.looks.resolveType name (h.imports hscope)
    (fun _ _ => .all _) fun info hparams htypes => by
      simp only [Judgement.single, TypeInfo.moved_stay]
      refine setBody_gives (fun s hs => (Symbol.within_type hs).2 ?_) (fun _ _ => hdeclared) hstarted
      exact ⟨hparams, fun t ht => htypes t (.inr ht), fun t ht => htypes t (.inl ht)⟩
  simp only [Judgement.single, TypeDecl.moved_stay] at htype
  exact (htype.and resolveType_stores).weaken (fun _ h => h)
    (fun _ _ h => ⟨h.1.1, fun s hs => (h.2 s hs).1⟩) fun _ _ _ => trivial

theorem resolveConst_spec {decl : ConstDecl} (hscope : decl.scope.Within R) :
    Triple (Store.SoundFrom R env.outline S₀) (resolveConst env resolve name decl)
      (fun _ S => Store.SoundFrom R env.outline S₀ S ∧
        ∀ s, S.symbols.get? name = some s → s.IsComplete) (fun _ _ => True) := by
  have hconst := h.leads.looks.resolveConst name (h.imports hscope) trivial
    (fun _ _ => .all _) (fun _ _ _ _ => .all _)
    fun value type htype => by
      simp only [Judgement.single, SymbolBody.moved, funext Ty.moved_stay, Option.map_id']
      refine setBody_gives (fun s hs => (Symbol.within_const hs).2 htype) (fun _ heq => ?_) hstarted
      cases heq
  simp only [Judgement.single, ConstDecl.moved_stay] at hconst
  refine (hconst.and resolveConst_stores).weaken (fun _ h => h)
    (fun _ S hS => ⟨hS.1.1, fun s hs info hinfo => ?_⟩) fun _ _ _ => trivial
  obtain ⟨value, type, hbody⟩ := hS.2 s hs
  cases hbody.symm.trans hinfo

end

/-- What the resolution of a package's symbols needs to know of the package. -/
structure Ready (R : String → Prop) (env : Surroundings) : Prop where
  within : env.Within R
  outline : env.outline.Sound
  imports : ∀ path ∈ env.outline.imports, R path

theorem Ready.scope (h : Ready R env) {scope : Scope}
    (hscope : scope.ImportsFrom env.outline.imports) : scope.Within R :=
  fun name path hpath => h.imports path (hscope name path hpath)

theorem resolveBody_spec (hready : Ready R env)
    (h : Confined R env resolve (Store.SoundFrom R env.outline S₀))
    (hstarted : S₀.progress.get? name = some .started) :
    Triple (Store.SoundFrom R env.outline S₀) (resolveBody env resolve name)
      (fun _ S => Store.SoundFrom R env.outline S₀ S ∧
        ∀ s, S.symbols.get? name = some s → s.IsComplete) (fun _ _ => True) := by
  unfold resolveBody
  split
  · exact .throw fun _ _ => trivial
  · rename_i s hs
    split
    · rename_i info hbody
      have htype := hready.outline.type name s info hs hbody
      split
      · rename_i decl hdecl
        exact resolveType_spec h hstarted ⟨s, info, hs, hbody⟩
          (hready.scope (hready.outline.typeScope name decl hdecl))
      · rename_i hnone
        rw [hnone] at htype
        cases htype
    · rename_i value type hbody
      split
      · rename_i decl hdecl
        exact resolveConst_spec h hstarted
          (hready.scope (hready.outline.constScope name decl hdecl))
      · refine .pure fun S hS => ⟨hS, fun s' hs' info hinfo => ?_⟩
        obtain ⟨s₀, info₀, hs₀, hbody₀⟩ := hS.1.declared name s' info hs' hinfo
        cases hs.symm.trans hs₀
        cases hbody.symm.trans hbody₀

theorem resolveSymbol_spec (hready : Ready R env) (count : Nat) (name : String) (S₀ : Store) :
    Triple (Store.SoundFrom R env.outline S₀) (resolveSymbol env count name)
      (fun _ S => Store.SoundFrom R env.outline S₀ S ∧ S.progress.get? name = some .done)
      (fun _ _ => True) := by
  induction count generalizing name S₀ with
  | zero => exact .throw fun _ _ => trivial
  | succ count ih =>
    unfold resolveSymbol
    refine .assume fun S hS => ?_
    refine .bind (Q := fun found S' => found = S ∧ S' = S) (.get fun S' hS' => ⟨hS', hS'⟩)
      fun found => .assume fun S' hS' => ?_
    obtain ⟨rfl, rfl⟩ := hS'
    cases hmark : S'.progress.get? name with
    | some mark =>
      cases mark with
      | started => exact .throw fun _ _ => trivial
      | failed => exact absurd hmark (hS.1.clean name)
      | done =>
        refine .pure ?_
        rintro _ rfl
        exact ⟨hS, hmark⟩
    | none =>
      set S₁ := S'.withMark name .started with hS₁
      have hstarted : S₁.progress.get? name = some .started := get?_insert_self _ _ _
      have hsound₁ : S₁.Sound R env.outline :=
        hS.1.withMark (by simp) fun h => nomatch h
      have hfree : S₀.progress.get? name = none := by
        cases hmark₀ : S₀.progress.get? name with
        | none => rfl
        | some mark =>
          rw [hS.2 name mark hmark₀] at hmark
          cases hmark
      refine .bind (Q := fun _ S' => S' = S₁) (.update ?_) fun _ => ?_
      · rintro _ rfl
        rfl
      have hconfined : Confined R env (resolveSymbol env count)
          (Store.SoundFrom R env.outline S₁) :=
        ⟨hready.within, fun S hS => hS.1.within, fun m =>
          (ih m S₁).post (fun _ _ h => h.1)⟩
      have hbody := (resolveBody_spec hready hconfined hstarted).start ⟨hsound₁, .refl S₁⟩
      refine .bind (.tryCatch hbody fun failure => ?_) fun _ => ?_
      · exact .bind (Q := fun _ _ => True) (.update fun _ _ => trivial)
          fun _ => .throw fun _ _ => trivial
      · refine .update fun S₂ h₂ => ?_
        obtain ⟨⟨hsound₂, hext₂⟩, hcomplete⟩ := h₂
        refine ⟨⟨hsound₂.withMark (by simp) fun _ => hcomplete, ?_⟩, get?_insert_self _ _ _⟩
        -- the mark is new to `S₀`, and the others are as they were
        have hext₁ : S₀.Extends S₁ := hS.2.withMark hfree
        exact (hext₁.trans hext₂).withMark hfree

/-! ## Runs -/

section

variable {count : Nat} {name : String} {S : Store}

/-- A symbol that was not tried is in work while its declaration is resolved, and after that it is
done or has failed. -/
theorem resolveSymbol_fresh (hmark : S.progress.get? name = none) :
    (resolveSymbol env (count + 1) name).run.run S =
      let run := (resolveBody env (resolveSymbol env count) name).run.run
        (S.withMark name .started)
      (run.1, run.2.withMark name (match run.1 with | .ok _ => .done | .error _ => .failed)) := by
  have hget : (get : Resolving Store).run.run S = (.ok S, S) := rfl
  have hset : (setProgress name .started).run.run S = (.ok (), S.withMark name .started) := rfl
  rw [resolveSymbol, Computation.run_bind_ok hget, hmark]
  refine (Computation.run_bind_ok hset).trans ?_
  dsimp only
  rcases hrun : (resolveBody env (resolveSymbol env count) name).run.run
    (S.withMark name .started) with ⟨failure | ⟨⟩, S₁⟩
  · rw [Computation.run_bind_error (Computation.run_tryCatch_error hrun)]
    rfl
  · rw [Computation.run_bind_ok (Computation.run_tryCatch_ok hrun)]
    rfl

theorem resolveSymbol_tried (h : S.progress.get? name = some mark)
    (hmark : mark ≠ .started) : (resolveSymbol env (count + 1) name).run.run S = (.ok (), S) := by
  have hget : (get : Resolving Store).run.run S = (.ok S, S) := rfl
  rw [resolveSymbol, Computation.run_bind_ok hget, h]
  cases mark with
  | started => exact absurd rfl hmark
  | failed | done => rfl

theorem resolveSymbol_started (h : S.progress.get? name = some .started) :
    (resolveSymbol env (count + 1) name).run.run S =
      (.error (.problem (.recursive name) (env.outline.placeOf name)), S) := by
  have hget : (get : Resolving Store).run.run S = (.ok S, S) := rfl
  rw [resolveSymbol, Computation.run_bind_ok hget, h]
  rfl

end

end Resolving

namespace Outline

variable {R : String → Prop} {env : Surroundings}

/-- Nothing is reported when every symbol resolves. -/
theorem resolveAll_cons_iff {S S' : Store} : resolveAll env S (name :: names) = .ok (S', []) ↔
      ∃ S₁, (Resolving.resolveSymbol env (env.outline.symbols.size + 1) name).run.run S =
        (.ok (), S₁) ∧ resolveAll env S₁ names = .ok (S', []) := by
  rw [resolveAll]
  rcases (Resolving.resolveSymbol env (env.outline.symbols.size + 1) name).run.run S with
    ⟨failure | ⟨⟩, S₁⟩
  · refine ⟨fun h => ?_, fun ⟨_, hrun, _⟩ => (nomatch hrun)⟩
    cases failure with
    | fault why => cases h
    | problem why pos =>
      cases hdiagnostic : why.diagnostic (env.outline.fileOf name) pos <;>
        cases hrest : resolveAll env S₁ names <;> simp only [hdiagnostic, hrest] at h <;> cases h
  · constructor
    · intro h
      rcases hrest : resolveAll env S₁ names with fault | ⟨S₂, more⟩ <;>
        simp only [hrest] at h <;> cases h
      exact ⟨S₁, rfl, hrest⟩
    · rintro ⟨_, ⟨⟩, hrest⟩
      simp only [hrest]
      rfl

/-- A package resolves when no name is declared twice and nothing is reported. -/
theorem resolveWithin_iff :
    o.resolveWithin limit program = .ok package ↔ ∃ S, o.redeclarations = .ok [] ∧
      resolveAll ⟨o, program, limit⟩ { symbols := o.symbols } o.symbols.keys = .ok (S, []) ∧
      package = { path := o.path, name := o.name, symbols := S.symbols, imports := o.imports,
                  files := o.files } := by
  rw [resolveWithin]
  cases o.redeclarations with
  | error fault => exact ⟨fun h => (nomatch h), fun ⟨_, h, _⟩ => (nomatch h)⟩
  | ok redeclared =>
    cases resolveAll ⟨o, program, limit⟩ { symbols := o.symbols } o.symbols.keys with
    | error fault => exact ⟨fun h => (nomatch h), fun ⟨_, _, h, _⟩ => (nomatch h)⟩
    | ok found =>
      obtain ⟨S, reported⟩ := found
      simp only [Except.mapError, bind, Except.bind]
      constructor
      · intro h
        split at h
        · rename_i hempty
          cases h
          obtain ⟨rfl, rfl⟩ : redeclared = [] ∧ reported = [] := by simpa using hempty
          exact ⟨S, rfl, rfl, rfl⟩
        · cases h
      · rintro ⟨_, ⟨⟩, ⟨⟩, rfl⟩
        rfl

theorem resolveAll_spec (hready : Resolving.Ready R env) {S S' : Store}
    (hS : S.Sound R env.outline) (h : resolveAll env S names = .ok (S', [])) :
    S'.Sound R env.outline ∧ S.Extends S' ∧ ∀ name ∈ names, S'.progress.get? name = some .done := by
  induction names generalizing S with
  | nil =>
    cases h
    exact ⟨hS, .refl _, List.forall_mem_nil _⟩
  | cons name names ih =>
    obtain ⟨S₁, hrun, hrest⟩ := resolveAll_cons_iff.1 h
    obtain ⟨⟨hS₁, hext⟩, hdone⟩ :=
      (Resolving.resolveSymbol_spec hready _ name S).ok ⟨hS, .refl S⟩ hrun
    obtain ⟨hS', hext', hdone'⟩ := ih hS₁ hrest
    exact ⟨hS', hext.trans hext', List.forall_mem_cons.2 ⟨hext' name _ hdone, hdone'⟩⟩

/-- A store that holds the symbols as they are declared is sound. -/
theorem Sound.store (h : o.Sound) : Store.Sound R o { symbols := o.symbols } where
  within name s hs t ht := by
    rw [h.body name s hs] at ht
    exact absurd ht List.not_mem_nil
  keys := rfl
  symbol := h.symbol
  declared name s info hs hbody := ⟨s, info, hs, hbody⟩
  clean _ hfailed := nomatch hfailed
  complete _ _ hdone := nomatch hdone

end Outline

/-- What holds of a package that resolved: its symbols belong to it, are complete, and refer to
packages in `R` only. -/
structure Package.Sound (path : String) (R : String → Prop) (package : Package) : Prop where
  path_eq : package.path = path
  distinct : package.symbols.Distinct
  symbol : ∀ name s, package.symbols.get? name = some s →
    s.name = name ∧ s.package = some path ∧ s.IsComplete ∧ s.Within R

/-- A package resolves only if all its symbols do. -/
theorem Outline.resolveWithin_sound {R : String → Prop}
    (hready : Resolving.Ready R ⟨o, program, limit⟩)
    (h : o.resolveWithin limit program = .ok package) :
    package.Sound o.path R ∧ package.imports = o.imports := by
  obtain ⟨S, -, hall, rfl⟩ := resolveWithin_iff.1 h
  obtain ⟨hS, -, hdone⟩ := resolveAll_spec hready hready.outline.store hall
  refine ⟨⟨rfl, ?_, fun name s hs => ?_⟩, rfl⟩
  · rw [Table.Distinct, hS.keys]
    exact hready.outline.distinct
  · have hkey : name ∈ o.symbols.keys := by
      rw [← hS.keys]
      exact mem_keys_iff.2 (contains_of_get? hs)
    obtain ⟨hname, hpackage⟩ := hS.symbol name s hs
    exact ⟨hname, hpackage, hS.complete name s (hdone name hkey) hs, hS.within name s hs⟩

end DeclBridge
