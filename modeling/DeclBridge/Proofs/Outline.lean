import DeclBridge.Proofs.Table
import DeclBridge.Resolution.Outline

/-!
# Outlines of files

What the outline of a package promises to the resolution: its symbols belong to the package and have
no types yet, a name that is declared as a type or as a constant has the lines of one, and the names
that a file gives to packages stand for imports of the package.
-/

namespace DeclBridge

open List

variable {name path : String} {imports : List String} {specs : List ImportSpec}

/-- A file whose names for packages all stand for imports in a list. -/
def Scope.ImportsFrom (imports : List String) (scope : Scope) : Prop :=
  ∀ name path, scope.imports.get? name = some path → path ∈ imports

namespace Outline

/-- What an outline promises. -/
structure Sound (o : Outline) : Prop where
  distinct : o.symbols.Distinct
  symbol : ∀ name s, o.symbols.get? name = some s → s.name = name ∧ s.package = some o.path
  body : ∀ name s, o.symbols.get? name = some s → s.types = []
  type : ∀ name s info, o.symbols.get? name = some s → s.body = .type info →
    (o.types.get? name).isSome
  const : ∀ name s value type, o.symbols.get? name = some s → s.body = .const value type →
    (o.consts.get? name).isSome
  typeScope : ∀ name decl, o.types.get? name = some decl → decl.scope.ImportsFrom o.imports
  constScope : ∀ name decl, o.consts.get? name = some decl → decl.scope.ImportsFrom o.imports

variable {o : Outline} {scope : Scope}

theorem Sound.declare (h : o.Sound) (name : String) (body : SymbolBody) (pos : Position)
    (file : Option String) (htypes : body = .type {} ∨ body = .const none none)
    (htype : ∀ info, body = .type info → (o.types.get? name).isSome)
    (hconst : ∀ value type, body = .const value type → (o.consts.get? name).isSome) :
    (o.declare name body pos file).Sound := by
  rw [Outline.declare]
  split
  · exact ⟨h.distinct, h.symbol, h.body, h.type, h.const, h.typeScope, h.constScope⟩
  · refine ⟨h.distinct.insert _ _, fun n s hs => ?_, fun n s hs => ?_, fun n s info hs hinfo => ?_,
      fun n s value type hs hvalue => ?_, h.typeScope, h.constScope⟩
    · rw [Table.get?_insert] at hs
      split at hs
      · cases hs
        exact ⟨‹_›, rfl⟩
      · exact h.symbol n s hs
    · rw [Table.get?_insert] at hs
      split at hs
      · cases hs
        rcases htypes with rfl | rfl <;> rfl
      · exact h.body n s hs
    · rw [Table.get?_insert] at hs
      split at hs
      · cases hs
        subst ‹name = n›
        exact htype info hinfo
      · exact h.type n s info hs hinfo
    · rw [Table.get?_insert] at hs
      split at hs
      · cases hs
        subst ‹name = n›
        exact hconst value type hvalue
      · exact h.const n s value type hs hvalue

/-- The lines of a type may come first, and its name after. -/
theorem Sound.withType (h : o.Sound) {decl : TypeDecl} (hscope : decl.scope.ImportsFrom o.imports) :
    ({ o with types := o.types.insert name decl } : Outline).Sound := by
  refine ⟨h.distinct, h.symbol, h.body, fun n s info hs hinfo => ?_, h.const, fun n d hd => ?_,
    h.constScope⟩
  · rw [Table.get?_insert]
    split
    · rfl
    · exact h.type n s info hs hinfo
  · rw [Table.get?_insert] at hd
    split at hd
    · cases hd
      exact hscope
    · exact h.typeScope n d hd

theorem Sound.withConst (h : o.Sound) {decl : ConstDecl}
    (hscope : decl.scope.ImportsFrom o.imports) :
    ({ o with consts := o.consts.insert name decl } : Outline).Sound := by
  refine ⟨h.distinct, h.symbol, h.body, h.type, fun n s value type hs hvalue => ?_, h.typeScope,
    fun n d hd => ?_⟩
  · rw [Table.get?_insert]
    split
    · rfl
    · exact h.const n s value type hs hvalue
  · rw [Table.get?_insert] at hd
    split at hd
    · cases hd
      exact hscope
    · exact h.constScope n d hd

theorem imports_declare {body : SymbolBody} {pos : Position}
    {file : Option String} : (o.declare name body pos file).imports = o.imports := by
  rw [Outline.declare]
  split <;> rfl

theorem Sound.addType (h : o.Sound) (hscope : scope.ImportsFrom o.imports) (spec : TypeSpec) :
    (o.addType scope spec).Sound := by
  -- the order in which the name and its lines are put in makes no difference
  have heq : o.addType scope spec =
      ({ o with types := o.types.insert spec.name ⟨spec, scope⟩ } : Outline).declare spec.name
        (.type {}) spec.pos scope.file := by
    cases hs : o.symbols.get? spec.name <;> simp only [Outline.addType, Outline.declare, hs]
  rw [heq]
  refine (h.withType hscope).declare _ _ _ _ (.inl rfl) (fun info _ => ?_) fun _ _ h => by cases h
  rw [Table.get?_insert_self]
  rfl

theorem Sound.addConst (h : o.Sound) (hscope : scope.ImportsFrom o.imports) (spec : ConstSpec)
    (name : String) (value : Expr) : (o.addConst scope spec name value).Sound := by
  rw [Outline.addConst]
  split
  · exact h
  · have heq : ({ o.declare name (.const none none) spec.pos scope.file with
          consts := (o.declare name (.const none none) spec.pos scope.file).consts.insert name
            ⟨spec, value, scope⟩ } : Outline) =
        ({ o with consts := o.consts.insert name ⟨spec, value, scope⟩ } : Outline).declare name
          (.const none none) spec.pos scope.file := by
      cases hs : o.symbols.get? name <;> simp only [Outline.declare, hs]
    dsimp only
    rw [heq]
    refine (h.withConst hscope).declare _ _ _ _ (.inr rfl) (fun _ h => by cases h)
      fun _ _ _ => ?_
    rw [Table.get?_insert_self]
    rfl

theorem Sound.addImport (h : o.Sound) (path : String) : (o.addImport path).Sound := by
  rw [Outline.addImport]
  split
  · exact h
  · refine ⟨h.distinct, h.symbol, h.body, h.type, h.const, fun n d hd name path' hpath => ?_,
      fun n d hd name path' hpath => ?_⟩
    · exact mem_append_left _ (h.typeScope n d hd name path' hpath)
    · exact mem_append_left _ (h.constScope n d hd name path' hpath)

theorem mem_imports_addImport {path' : String} :
    path' ∈ (o.addImport path).imports ↔ path' ∈ o.imports ∨ path' = path := by
  rw [Outline.addImport]
  split
  · constructor
    · exact .inl
    · rintro (h | rfl)
      · exact h
      · assumption
  · simp

theorem mem_imports_foldl : path ∈ (specs.foldl (fun o spec => o.addImport spec.path) o).imports ↔
      path ∈ o.imports ∨ ∃ spec ∈ specs, spec.path = path := by
  induction specs generalizing o with
  | nil => simp
  | cons spec specs ih =>
    rw [foldl_cons, ih, mem_imports_addImport, exists_mem_cons_iff, or_assoc,
      eq_comm (a := spec.path)]

/-- A file names only what it imports. -/
theorem mem_of_get?_importNames {program : Program}
    (h : (importNames program specs).get? name = some path) : ∃ spec ∈ specs, spec.path = path := by
  rw [importNames] at h
  have hfold : ∀ names : Table String String,
      (specs.foldl (fun names spec =>
        let name := spec.localName.getD (program.packageName spec.path)
        if name = "_" ∨ name = "." then names else names.insert name spec.path) names).get? name =
          some path →
      names.get? name = some path ∨ ∃ spec ∈ specs, spec.path = path := by
    clear h
    induction specs with
    | nil => exact fun names h => .inl h
    | cons spec specs ih =>
      intro names h
      rcases ih _ h with h | ⟨spec', hspec', heq⟩
      · dsimp only at h
        split at h
        · exact .inl h
        · rw [Table.get?_insert] at h
          split at h
          · cases h
            exact .inr ⟨spec, mem_cons_self, rfl⟩
          · exact .inl h
      · exact .inr ⟨spec', mem_cons_of_mem _ hspec', heq⟩
  rcases hfold {} h with h | h
  · cases h
  · exact h

/-- An outline of the package with a given path that has at least the given imports. -/
structure Of (path : String) (imports : List String) (o : Outline) : Prop where
  sound : o.Sound
  path : o.path = path
  imports : o.imports = imports

theorem Of.addType (h : Of path imports o) (hscope : scope.ImportsFrom imports) (spec : TypeSpec) :
    Of path imports (o.addType scope spec) where
  sound := h.sound.addType (h.imports ▸ hscope) spec
  path := by
    rw [← h.path, Outline.addType, Outline.declare]
    split <;> rfl
  imports := by
    rw [← h.imports, Outline.addType]
    exact imports_declare

theorem Of.addConst (h : Of path imports o)
    (hscope : scope.ImportsFrom imports) (spec : ConstSpec) (name : String) (value : Expr) :
    Of path imports (o.addConst scope spec name value) where
  sound := h.sound.addConst (h.imports ▸ hscope) spec name value
  path := by
    rw [← h.path, Outline.addConst, Outline.declare]
    split
    · rfl
    · split <;> rfl
  imports := by
    rw [← h.imports, Outline.addConst]
    split
    · rfl
    · exact imports_declare

theorem Sound.addFile (h : o.Sound) (program : Program) (file : SourceFile) :
    (o.addFile program file).Sound ∧ (o.addFile program file).path = o.path := by
  set o₁ := file.imports.foldl (fun o spec => o.addImport spec.path) o with ho₁
  have hstart : o₁.Sound ∧ o₁.path = o.path := by
    refine foldlRecOn (motive := fun o' : Outline => o'.Sound ∧ o'.path = o.path) _ _
      ⟨h, rfl⟩ fun o' ho' spec _ => ?_
    refine ⟨ho'.1.addImport spec.path, ?_⟩
    rw [← ho'.2, Outline.addImport]
    split <;> rfl
  have hscope : Scope.ImportsFrom o₁.imports ⟨file.path, importNames program file.imports⟩ :=
    fun name path hpath => mem_imports_foldl.2 (.inr (mem_of_get?_importNames hpath))
  have hof : Of o.path o₁.imports (o.addFile program file) := by
    rw [Outline.addFile]
    refine foldlRecOn _ _ ?_ fun o' ho' spec _ => foldlRecOn _ _ ho' ?_
    · exact foldlRecOn _ _ ⟨hstart.1, hstart.2, rfl⟩ fun o' ho' spec _ =>
        ho'.addType hscope spec
    · exact fun o'' ho'' entry _ => ho''.addConst hscope spec entry.1 entry.2
  exact ⟨hof.sound, hof.path⟩

/-- The outline of files keeps all promises. -/
theorem ofFiles_sound (program : Program) (path : String) (files : List SourceFile) :
    (ofFiles program path files).Sound ∧ (ofFiles program path files).path = path := by
  rw [ofFiles]
  refine foldlRecOn (motive := fun o : Outline => o.Sound ∧ o.path = path) _ _ ⟨?_, rfl⟩
    fun o ho file _ => ?_
  · exact ⟨Table.distinct_empty, fun _ _ hs => (nomatch hs), fun _ _ hs => (nomatch hs),
      fun _ _ _ hs => (nomatch hs), fun _ _ _ _ hs => (nomatch hs), fun _ _ hd => (nomatch hd),
      fun _ _ hd => (nomatch hd)⟩
  · obtain ⟨hsound, hpath⟩ := ho.1.addFile program file
    exact ⟨hsound, hpath.trans ho.2⟩

/-- Files that know packages by the same names in two programs declare the same. -/
theorem ofFiles_congr {p p' : Program} {files : List SourceFile}
    (h : ∀ file ∈ files, ∀ spec ∈ file.imports, spec.localName = none →
      p'.packageName spec.path = p.packageName spec.path) :
    ofFiles p' path files = ofFiles p path files := by
  have hnames (file : SourceFile) (hfile : file ∈ files) :
      importNames p' file.imports = importNames p file.imports := by
    refine foldl_ext _ _ _ fun names spec hspec => ?_
    cases hlocal : spec.localName with
    | none => simp only [Option.getD_none, h file hfile spec hspec hlocal]
    | some name => rfl
  refine foldl_ext _ _ _ fun o file hfile => ?_
  simp only [addFile, hnames file hfile]

end Outline

end DeclBridge
