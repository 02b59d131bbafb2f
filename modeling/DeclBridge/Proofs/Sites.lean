import DeclBridge.Proofs.DeclarationOrder

/-!
# Places and names in declarations

A `Site` is a place in a file where something is written, with the name that stands there if it is
one that the package itself may declare.  The sites of a declaration are all places that a problem
with it can be reported at, and all names that it can depend on.

The outline of a package is drawn from the declarations of its files (`Outline.DrawnFrom`): every
line that a name is resolved by stands in one of them, with the scope of that file.
-/

namespace DeclBridge

open List

variable {file : SourceFile} {site : Site} {e : Entry} {name : String}

def ConstSpec.sites (spec : ConstSpec) : List Site :=
  ⟨spec.pos, none⟩ :: ((spec.type.map TypeExpr.sites).getD [] ++ spec.values.flatMap Expr.sites)

def SourceFile.sites (file : SourceFile) : List Site :=
  file.types.flatMap TypeSpec.sites ++ file.consts.flatMap ConstSpec.sites

/-- The places and names of the declarations of a name in a file. -/
def SourceFile.sitesOf (file : SourceFile) (name : String) : List Site :=
  (file.types.filter (·.name = name)).flatMap TypeSpec.sites ++
    (file.consts.filter (name ∈ ·.names)).flatMap ConstSpec.sites

/-- A declaration of `a` in one of the files has the name `b` in it. -/
def DrawsOn (files : List SourceFile) (a b : String) : Prop :=
  ∃ file ∈ files, ∃ site ∈ file.sitesOf a, site.name? = some b

/-- The declaration of `a` depends on that of `b`, directly or through others. -/
def RestsOn (files : List SourceFile) : String → String → Prop :=
  Relation.ReflTransGen (DrawsOn files)

theorem SourceFile.mem_sitesOf_type {spec : TypeSpec} (h : spec ∈ file.types)
    (hsite : site ∈ spec.sites) : site ∈ file.sitesOf spec.name :=
  mem_append_left _ (mem_flatMap.2
    ⟨spec, mem_filter.2 ⟨h, decide_eq_true rfl⟩, hsite⟩)

theorem SourceFile.mem_sitesOf_const {spec : ConstSpec} (h : spec ∈ file.consts)
    (hname : name ∈ spec.names) (hsite : site ∈ spec.sites) : site ∈ file.sitesOf name :=
  mem_append_right _ (mem_flatMap.2
    ⟨spec, mem_filter.2 ⟨h, decide_eq_true hname⟩, hsite⟩)

theorem SourceFile.mem_sites (h : site ∈ file.sitesOf name) : site ∈ file.sites := by
  rcases mem_append.1 h with h | h
  · obtain ⟨spec, hspec, hsite⟩ := mem_flatMap.1 h
    exact mem_append_left _ (mem_flatMap.2 ⟨spec, (mem_filter.1 hspec).1, hsite⟩)
  · obtain ⟨spec, hspec, hsite⟩ := mem_flatMap.1 h
    exact mem_append_right _ (mem_flatMap.2 ⟨spec, (mem_filter.1 hspec).1, hsite⟩)

/-! ## Where an outline comes from -/

namespace Outline

/-- The file of an entry and its place there. -/
def Entry.place : Entry → Option String × Position
  | .type spec scope => (scope.file, spec.pos)
  | .const spec _ _ scope => (scope.file, spec.pos)

/-- All that an outline knows of its names stands in the entries. -/
structure DrawnFrom (es : List Entry) (o : Outline) : Prop where
  types : ∀ name decl, o.types.get? name = some decl →
    decl.spec.name = name ∧ Entry.type decl.spec decl.scope ∈ es
  consts : ∀ name decl, o.consts.get? name = some decl →
    Entry.const decl.spec name decl.value decl.scope ∈ es
  redeclared : ∀ r ∈ o.redeclared, ∃ e ∈ es, r.2 = e.place

variable {es : List Entry} {o : Outline}

theorem DrawnFrom.mono {es' : List Entry} (h : DrawnFrom es o) (hes : ∀ e ∈ es, e ∈ es') :
    DrawnFrom es' o where
  types name decl hdecl := (h.types name decl hdecl).imp_right (hes _)
  consts name decl hdecl := hes _ (h.consts name decl hdecl)
  redeclared r hr := by
    obtain ⟨e, he, heq⟩ := h.redeclared r hr
    exact ⟨e, hes e he, heq⟩

/-- Declaring the name of an entry records at most the place of that entry. -/
theorem DrawnFrom.declare (h : DrawnFrom es o) (he : e ∈ es) (name : String)
    (body : SymbolBody) : DrawnFrom es (o.declare name body e.place.2 e.place.1) := by
  rw [Outline.declare]
  split
  · refine ⟨h.types, h.consts, fun r hr => ?_⟩
    rcases mem_append.1 hr with hr | hr
    · exact h.redeclared r hr
    · rw [mem_singleton.1 hr]
      exact ⟨e, he, rfl⟩
  · exact ⟨h.types, h.consts, h.redeclared⟩

theorem DrawnFrom.add (h : DrawnFrom es o) (e : Entry) : DrawnFrom (es ++ [e]) (e.addTo o) := by
  have hlast : e ∈ es ++ [e] := mem_concat_self
  have hmono : DrawnFrom (es ++ [e]) o := h.mono fun _ => mem_append_left _
  cases e with
  | type spec scope =>
    have hdeclare := hmono.declare hlast spec.name (.type {})
    refine ⟨fun name decl hdecl => ?_, hdeclare.consts, hdeclare.redeclared⟩
    rw [Entry.addTo, addType, Table.get?_insert] at hdecl
    split at hdecl
    · cases hdecl
      exact ⟨‹_›, hlast⟩
    · exact hdeclare.types name decl hdecl
  | const spec name value scope =>
    rw [Entry.addTo, addConst]
    split
    · exact hmono
    · have hdeclare := hmono.declare hlast name (.const none none)
      refine ⟨hdeclare.types, fun n decl hdecl => ?_, hdeclare.redeclared⟩
      rw [Table.get?_insert] at hdecl
      split at hdecl
      · cases hdecl
        subst ‹name = n›
        exact hlast
      · exact hdeclare.consts n decl hdecl

theorem ofFiles_drawnFrom (program : Program) (path : String) (files : List SourceFile) :
    DrawnFrom (files.flatMap (entriesOf program)) (ofFiles program path files) := by
  refine ofFiles_induction (fun _ _ => ⟨fun _ _ h => ?_, fun _ _ h => ?_, fun _ h => ?_⟩)
    (fun es o q h => ?_) (fun _ _ e h => h.add e) program files
  case refine_1 =>
    rw [addImport]
    split
    · exact h
    · exact ⟨h.types, h.consts, h.redeclared⟩
  all_goals cases h

variable {program : Program} {path : String} {files : List SourceFile}

theorem mem_entriesOf (h : e ∈ entriesOf program file) :
    (∃ spec ∈ file.types, e = .type spec ⟨file.path, importNames program file.imports⟩) ∨
      ∃ spec ∈ file.consts, ∃ n value, (n, value) ∈ spec.names.zip spec.values ∧
        e = .const spec n value ⟨file.path, importNames program file.imports⟩ := by
  rcases mem_append.1 h with h | h
  · obtain ⟨spec, hspec, rfl⟩ := mem_map.1 h
    exact .inl ⟨spec, hspec, rfl⟩
  · obtain ⟨spec, hspec, h⟩ := mem_flatMap.1 h
    obtain ⟨⟨n, value⟩, hvalue, rfl⟩ := mem_map.1 h
    exact .inr ⟨spec, hspec, n, value, hvalue, rfl⟩

theorem exists_type {decl : TypeDecl}
    (h : (ofFiles program path files).types.get? name = some decl) :
    ∃ file ∈ files, decl.spec ∈ file.types ∧ decl.spec.name = name ∧
      decl.scope = ⟨file.path, importNames program file.imports⟩ := by
  obtain ⟨hname, hmem⟩ := (ofFiles_drawnFrom program path files).types name decl h
  obtain ⟨file, hfile, hentry⟩ := mem_flatMap.1 hmem
  rcases mem_entriesOf hentry with ⟨spec, hspec, heq⟩ | ⟨_, _, _, _, _, heq⟩
  · obtain ⟨rfl, hscope⟩ := Entry.type.inj heq
    exact ⟨file, hfile, hspec, hname, hscope⟩
  · cases heq

theorem exists_const {decl : ConstDecl}
    (h : (ofFiles program path files).consts.get? name = some decl) :
    ∃ file ∈ files, decl.spec ∈ file.consts ∧ name ∈ decl.spec.names ∧
      decl.value ∈ decl.spec.values ∧
      decl.scope = ⟨file.path, importNames program file.imports⟩ := by
  have hmem := (ofFiles_drawnFrom program path files).consts name decl h
  obtain ⟨file, hfile, hentry⟩ := mem_flatMap.1 hmem
  rcases mem_entriesOf hentry with ⟨_, _, heq⟩ | ⟨spec, hspec, n, value, hvalue, heq⟩
  · cases heq
  · obtain ⟨rfl, rfl, rfl, hscope⟩ := Entry.const.inj heq
    obtain ⟨hname, hmem⟩ := of_mem_zip hvalue
    exact ⟨file, hfile, hspec, hname, hmem, hscope⟩

/-- A name that is declared again is reported at a declaration, in the file where it stands. -/
theorem exists_redeclared {r : Problem × Option String × Position}
    (h : r ∈ (ofFiles program path files).redeclared) :
    ∃ file ∈ files, ∃ name, r.2.1 = file.path ∧ ⟨r.2.2, none⟩ ∈ file.sitesOf name := by
  obtain ⟨e, hmem, heq⟩ := (ofFiles_drawnFrom program path files).redeclared r h
  obtain ⟨file, hfile, hentry⟩ := mem_flatMap.1 hmem
  rw [heq]
  rcases mem_entriesOf hentry with ⟨spec, hspec, rfl⟩ | ⟨spec, hspec, n, value, hvalue, rfl⟩
  · exact ⟨file, hfile, spec.name, rfl, file.mem_sitesOf_type hspec mem_cons_self⟩
  · exact ⟨file, hfile, n, rfl,
      file.mem_sitesOf_const hspec (of_mem_zip hvalue).1 mem_cons_self⟩

end Outline

end DeclBridge
