import DeclBridge.Proofs.FileOrder
import DeclBridge.Proofs.MovedOutput
import DeclBridge.Proofs.RequestOrder

/-!
# Sources in another order

Two tables hold the same packages, where the declarations of each file stand in any order and the
files of each package under any names.  Such tables simulate each other, with packages that are the
same apart from places (`Loading.bisimulates_of_reorders`).  So whatever can be loaded from the one
can be loaded from the other, and the two programs have the same packages apart from places
(`SourceTable.Reorders.load_resembles`).  The output of both is the same.
-/

namespace DeclBridge

open Program

variable {path : String} {files files' : List SourceFile} {texts' : SourceList}

/-! ## Tables of sources -/

/-- The files of a package, with the declarations of each in any order and under any names. -/
structure FilesReorder (files files' : Table String String) : Prop where
  isEmpty : files'.entries = [] ↔ files.entries = []
  texts : Shuffled (fun file file' => TextReorders file.2 file'.2)
    (files.entries.filter (!isTestFile ·.1)) (files'.entries.filter (!isTestFile ·.1))

theorem FilesReorder.symm {files files' : Table String String} (h : FilesReorder files files') :
    FilesReorder files' files := by
  refine ⟨h.isEmpty.symm, ?_⟩
  have hflip : flip (fun file file' : String × String => TextReorders file.2 file'.2) =
      fun file file' => TextReorders file.2 file'.2 := by
    funext file file'
    exact propext ⟨TextReorders.symm, TextReorders.symm⟩
  rw [← hflip]
  exact h.texts.symm

/-- The same packages, with what their files declare in any order. -/
structure SourceTable.Reorders (t t' : SourceTable) : Prop where
  modulePath : t'.modulePath = t.modulePath
  packages : ∀ path, Option.Rel FilesReorder (t.packages.get? path) (t'.packages.get? path)

namespace SourceTable

variable {t t' : SourceTable}

theorem Reorders.symm (h : t.Reorders t') : t'.Reorders t where
  modulePath := h.modulePath.symm
  packages path := by
    have hpackages := h.packages path
    generalize t.packages.get? path = found, t'.packages.get? path = found' at hpackages
    cases hpackages with
    | none => exact .none
    | some hfiles => exact .some hfiles.symm

theorem Reorders.importPath (h : t.Reorders t') (pattern : String) :
    t'.importPath pattern = t.importPath pattern := by
  rw [SourceTable.importPath, SourceTable.importPath, h.modulePath]

/-- A package is in both tables, with the same texts in another order, or in neither. -/
theorem Reorders.read (h : t.Reorders t') (path : String) :
    (t.read path = .error (.error ⟨path, .noDirectory, []⟩) ∧
      t'.read path = .error (.error ⟨path, .noDirectory, []⟩)) ∨
    ∃ texts texts', t.read path = .ok texts ∧ t'.read path = .ok texts' ∧
      Shuffled (fun file file' => TextReorders file.2 file'.2) texts texts' := by
  have hpackages := h.packages path
  rw [SourceTable.read, SourceTable.read]
  generalize t.packages.get? path = found, t'.packages.get? path = found' at hpackages
  cases hpackages with
  | none => exact .inl ⟨rfl, rfl⟩
  | @some files files' hfiles =>
    obtain ⟨entries⟩ := files
    obtain ⟨entries'⟩ := files'
    by_cases hempty : entries = []
    · have hempty' : entries' = [] := hfiles.isEmpty.2 hempty
      rw [hempty, hempty']
      exact .inl ⟨rfl, rfl⟩
    · have hempty' : entries' ≠ [] := fun heq => hempty (hfiles.isEmpty.1 heq)
      obtain ⟨file, rest, rfl⟩ := List.exists_cons_of_ne_nil hempty
      obtain ⟨file', rest', rfl⟩ := List.exists_cons_of_ne_nil hempty'
      refine .inr ⟨_, _, rfl, rfl, ?_⟩
      have hsorted := hfiles.texts.perm_left
        (List.mergeSort_perm _ fun a b => decide (a.1 ≤ b.1)).symm
      exact hsorted.perm_right (List.mergeSort_perm _ _).symm

end SourceTable

/-- Every package of the table can be loaded. -/
def SourceTable.Loadable (t : SourceTable) : Prop :=
  ∀ path texts, t.read path = .ok texts → ∃ patterns p log,
    load t.sources patterns = (.ok p, log) ∧ p.packages.contains path = true

namespace Loading

theorem parseFiles_reordered {texts : SourceList}
    (h : Shuffled (fun file file' => TextReorders file.2 file'.2) texts texts')
    (hfiles : parseFiles path texts = .ok files) :
    ∃ files', parseFiles path texts' = .ok files' ∧ Shuffled SourceFile.Reorders files files' := by
  have hparse (file : String × String) (f : SourceFile) :
      (SourceFile.parse file.2 (some file.1)).mapError (unreadable path file.1) = .ok f ↔
        SourceFile.parse file.2 (some file.1) = .ok f := by
    cases SourceFile.parse file.2 (some file.1) with
    | error e => exact ⟨nofun, nofun⟩
    | ok f₁ =>
      exact ⟨fun heq => congrArg _ (Except.ok.inj heq), fun heq => congrArg _ (Except.ok.inj heq)⟩
  have hone (file file' : String × String) (f : SourceFile)
      (hreorders : TextReorders file.2 file'.2)
      (hf : (SourceFile.parse file.2 (some file.1)).mapError (unreadable path file.1) = .ok f) :
      ∃ f', (SourceFile.parse file'.2 (some file'.1)).mapError (unreadable path file'.1) = .ok f' ∧
        SourceFile.Reorders f f' := by
    obtain ⟨f', hf', hff'⟩ :=
      SourceFile.parse_reordered hreorders (some file'.1) ((hparse file f).1 hf)
    exact ⟨f', (hparse file' f').2 hf', hff'⟩
  obtain ⟨files', hfiles', hshuffled⟩ := h.transport (mapM_eq_ok.1 hfiles) hone
  exact ⟨files', mapM_eq_ok.2 hfiles', hshuffled⟩

theorem checkNames_iff : checkNames path files = .ok () ↔
    ∀ file ∈ files, file.package = (files.head?.map (·.package)).getD "" := by
  rw [checkNames]
  split
  · rename_i hall
    exact ⟨fun _ => by simpa using hall, fun _ => rfl⟩
  · rename_i hall
    exact ⟨fun h => (by cases h), fun h => absurd (by simpa using h) hall⟩

theorem mem_importsOf_reordered {files : List SourceFile}
    (h : Shuffled SourceFile.Reorders files files') {q : String} :
    q ∈ importsOf files' ↔ q ∈ importsOf files := by
  have hperm := h.flatMap_perm (f := fun f => f.imports.map (·.path))
    (g := fun f => f.imports.map (·.path)) fun _ _ _ hreorders => by rw [hreorders.importPaths]
  have hmem := hperm.mem_iff (a := q)
  rw [mem_importsOf, mem_importsOf]
  simpa using hmem

/-! ## Loading what can be loaded -/

variable {t t' : SourceTable} {Rel : Package → Package → Prop} {tried tried' : List String}
  {p p' : Program} {package : Package}

/-- A package that was loaded from a table is resolved from any table like it, once what it imports
has been tried. -/
theorem History.resolves (hsim : Bisimulates Rel t t')
    (hacyclic : ∀ q, ¬ Relation.TransGen t.Links q q) (h : History t tried p)
    (hpackage : p.packages.get? path = some package) (h' : History t' tried' p')
    (hfresh' : path ∉ tried') (hfiles' : t'.Files path files')
    (htried' : ∀ i ∈ importsOf files', i ∈ tried') :
    ∃ package', (Outline.ofFiles p' path files').resolve p' = .ok package' := by
  obtain ⟨before, p₁, hhistory, hfresh, hturn, -, -⟩ :=
    h.exists_turn (outcome?_eq_ok_iff.2 hpackage)
  obtain ⟨package', hresolve, -⟩ := resolve_of_loaded hsim hhistory h' hfresh hfresh'
    (fun q hq hq' => hhistory.agree hsim hacyclic h' hq hq') hturn hfiles' htried'
  exact ⟨package', hresolve⟩

/-- A package that the table does not have fails because of that. -/
theorem History.outcome?_absent (h : History t tried p) (hpath : path ∈ tried) {why : LoadError}
    (habsent : t.read path = .error (.error why)) : p.outcome? path = some (.error why) := by
  have hfiles (files : List SourceFile) : ¬ t.Files path files := by
    rintro ⟨texts, hread, -⟩
    cases habsent.symm.trans hread
  obtain ⟨r, hr⟩ := Option.isSome_iff_exists.1 ((h.mem_iff path).1 hpath)
  obtain ⟨before, p₁, -, -, hturn, -, -⟩ := h.exists_turn hr
  rw [hr]
  cases hturn with
  | missing hread =>
    cases habsent.symm.trans hread
    rfl
  | loaded hfound _ _ | unresolved hfound _ _ => exact absurd hfound (hfiles _)
  | unreadable hread _ | mixed hread _ _ =>
    cases habsent.symm.trans hread
  | cyclic hcycle =>
    obtain ⟨q, ⟨files, hfound, -⟩, -⟩ := Relation.TransGen.head'_iff.1 hcycle
    exact absurd hfound (hfiles files)

/-- Tables like one from which every package can be loaded. -/
structure Supplied (Rel : Package → Package → Prop) (t t' : SourceTable) : Prop where
  bisimulates : Bisimulates Rel t t'
  acyclic : ∀ path, ¬ Relation.TransGen t.Links path path
  loadable : t.Loadable
  present : ∀ path texts', t'.read path = .ok texts' → ∃ texts, t.read path = .ok texts

namespace Supplied

/-- What the second table has is in some history of the first. -/
theorem exists_history (h : Supplied Rel t t') (hread' : t'.read path = .ok texts') :
    ∃ tried p package, History t tried p ∧ path ∈ tried ∧ p.packages.get? path = some package := by
  obtain ⟨texts, hread⟩ := h.present path texts' hread'
  obtain ⟨patterns, p, log, hload, hcontains⟩ := h.loadable path texts hread
  obtain ⟨l, -, rfl, -, hcourse⟩ := Program.load_course hload
  obtain ⟨package, hpackage⟩ := Table.contains_iff.1 hcontains
  have hpath := hcourse.history.mem_tried_iff.2 (.inl hcontains)
  exact ⟨_, _, package, hcourse.history, hpath, hpackage⟩

theorem not_broken (h : Supplied Rel t t') {wanted : String → Prop} {f : Fault} :
    ¬ Broken t' wanted f := by
  rintro ⟨path, -, ⟨texts', hread', hfault⟩ |
    ⟨files', tried', p', hfiles', h', hfresh', -, htried', hfault⟩⟩
  · -- what was loaded from the first table could be read there, so it can be read here
    obtain ⟨tried, p, package, hhistory, -, hpackage⟩ := h.exists_history hread'
    obtain ⟨before, p₁, -, -, hturn, -, -⟩ :=
      hhistory.exists_turn (outcome?_eq_ok_iff.2 hpackage)
    cases hturn with
    | loaded hfiles _ _ =>
      obtain ⟨files', ⟨texts₁, htexts₁, hparse, -⟩, -⟩ := h.bisimulates.simulates path _ hfiles
      cases hread'.symm.trans htexts₁
      cases hparse.symm.trans hfault
  · obtain ⟨texts', hread', -⟩ := id hfiles'
    obtain ⟨tried, p, package, hhistory, -, hpackage⟩ := h.exists_history hread'
    obtain ⟨package', hresolve⟩ := hhistory.resolves h.bisimulates h.acyclic hpackage h' hfresh'
      hfiles' htried'
    cases hresolve.symm.trans hfault

theorem exists_load (h : Supplied Rel t t') (patterns : List String) :
    ∃ l, Program.load t'.sources patterns = (.ok l.program, l.log) ∧
      Course t' (Wanted t' patterns) (patterns.map t'.importPath) [] l := by
  obtain ⟨l, ⟨hrun, hcourse⟩ | ⟨f, -, hbroken⟩⟩ := run_course t' patterns
  · refine ⟨l, ?_, hcourse⟩
    rw [Program.load, hrun]
  · exact absurd hbroken h.not_broken

theorem contains_of_read (h : Supplied Rel t t') (h' : History t' tried' p') (hpath : path ∈ tried')
    (hread' : t'.read path = .ok texts') : p'.packages.contains path = true := by
  obtain ⟨tried, p, package, hhistory, hmem, hpackage⟩ := h.exists_history hread'
  have hrel := hhistory.agree h.bisimulates h.acyclic h' hmem hpath
  rw [hpackage] at hrel
  generalize hfound : p'.packages.get? path = found at hrel
  cases hrel with
  | some => exact Table.contains_of_get? hfound

end Supplied

theorem History.named (h : History t tried p) : p.Named := by
  refine ⟨?_, fun path package hpackage => ?_⟩
  · rw [Table.Distinct, h.keys_eq.1]
    exact h.nodup.filter _
  · have hsound := h.sound path package hpackage
    exact ⟨hsound.distinct, fun name s hs => (hsound.symbol name s hs).1⟩

/-! ## Loading in another order -/

theorem simulates_of_reorders (h : t.Reorders t') : Simulates Package.Resembles t t' := by
  rintro path files ⟨texts, hread, hparse, hnames⟩
  obtain ⟨hnone, -⟩ | ⟨texts₁, texts', htexts₁, htexts', hshuffled⟩ := h.read path
  · cases hread.symm.trans hnone
  cases hread.symm.trans htexts₁
  obtain ⟨files', hfiles', hreordered⟩ := parseFiles_reordered hshuffled hparse
  have hagree := checkNames_iff.1 hnames
  have hnames' : checkNames path files' = .ok () := by
    rw [checkNames_iff, hreordered.head_package hagree]
    exact hreordered.package_eq hagree
  refine ⟨files', ⟨texts', htexts', hfiles', hnames'⟩,
    fun i => mem_importsOf_reordered hreordered, ?_⟩
  intro p p' hsound hsound' hfree hfree' hpackages package hpackage
  refine Outline.resolve_reordered hreordered (ready_of_sound hsound hfree files)
    (ready_of_sound hsound' hfree' files') (fun q hq => ?_) hagree hpackage
  have hreach : p.ReachesFrom path (importsOf files) q := by
    refine hq.imp_right ?_
    rintro ⟨i, hi, hiq⟩
    exact ⟨i, mem_imports_ofFiles_iff.1 hi, hiq⟩
  have hrel := hpackages q hreach
  rw [get?_moved]
  generalize p.packages.get? q = found, p'.packages.get? q = found' at hrel
  cases hrel with
  | none => exact .none
  | some hresembles => exact .some hresembles

/-- Tables with what is declared in another order simulate each other. -/
theorem bisimulates_of_reorders (h : t.Reorders t') :
    Bisimulates Package.Resembles t t' where
  simulates := simulates_of_reorders h
  simulated := by
    have hflip : flip Package.Resembles = Package.Resembles := by
      funext P P'
      exact propext ⟨Package.Resembles.symm, Package.Resembles.symm⟩
    rw [hflip]
    exact simulates_of_reorders h.symm
  imports _ _ hresembles := hresembles.imports

end Loading

/-- If every package of a table can be loaded and none imports itself, loads from it and from a
table with what is declared in another order give programs that are the same apart from places. -/
theorem SourceTable.Reorders.load_resembles {t t' : SourceTable} (h : t.Reorders t')
    (hacyclic : ∀ path, ¬ Relation.TransGen t.Links path path) (hloadable : t.Loadable)
    (patterns : List String) : ∃ l l' : Loader, load t.sources patterns = (.ok l.program, l.log) ∧
      Program.load t'.sources patterns = (.ok l'.program, l'.log) ∧
      Loading.History t l.trace.tried l.program ∧ Loading.History t' l'.trace.tried l'.program ∧
      l.program.Resembles l'.program := by
  have hsim := Loading.bisimulates_of_reorders h
  have hself : Loading.Supplied Eq t t :=
    ⟨Loading.bisimulates_self t, hacyclic, hloadable, fun _ texts hread => ⟨texts, hread⟩⟩
  have hother : Loading.Supplied Package.Resembles t t' := by
    refine ⟨hsim, hacyclic, hloadable, fun path texts' hread' => ?_⟩
    obtain ⟨-, hnone⟩ | ⟨texts, -, hread, -⟩ := h.read path
    · cases hread'.symm.trans hnone
    · exact ⟨texts, hread⟩
  obtain ⟨l, hload, hcourse⟩ := hself.exists_load patterns
  obtain ⟨l', hload', hcourse'⟩ := hother.exists_load patterns
  have hhistory := hcourse.history
  have hhistory' := hcourse'.history
  refine ⟨l, l', hload, hload', hhistory, hhistory', ?_⟩
  have htried (path : String) : path ∈ l'.trace.tried ↔ path ∈ l.trace.tried := by
    have hacyclic' : ∀ q, ¬ Relation.TransGen t'.Links q q := hsim.links_eq ▸ hacyclic
    rw [hcourse.mem_tried_iff hacyclic, hcourse'.mem_tried_iff hacyclic', Loading.Wanted,
      Loading.Wanted, hsim.links_eq]
    simp only [h.importPath]
  have habsent (path : String) (hpath : path ∉ l.trace.tried) :
      l.program.outcome? path = none ∧ l'.program.outcome? path = none :=
    ⟨hhistory.outcome?_eq_none hpath,
      hhistory'.outcome?_eq_none fun hpath' => hpath ((htried path).1 hpath')⟩
  refine ⟨fun path => ?_, fun path => ?_⟩
  · by_cases hpath : path ∈ l.trace.tried
    · exact hhistory.agree hsim hacyclic hhistory' hpath ((htried path).2 hpath)
    · obtain ⟨hnone, hnone'⟩ := habsent path hpath
      rw [(outcome?_eq_none_iff.1 hnone).1, (outcome?_eq_none_iff.1 hnone').1]
      exact .none
  · by_cases hpath : path ∈ l.trace.tried
    · have hpath' := (htried path).2 hpath
      obtain ⟨hread, hread'⟩ | ⟨texts, texts', hread, hread', -⟩ := h.read path
      · -- the same error says that the package is in neither table
        rw [(outcome?_eq_error_iff.1 (hhistory.outcome?_absent hpath hread)).2,
          (outcome?_eq_error_iff.1 (hhistory'.outcome?_absent hpath' hread')).2]
      · have hfree := hhistory.disjoint (hself.contains_of_read hhistory hpath hread)
        have hfree' := hhistory'.disjoint (hother.contains_of_read hhistory' hpath' hread')
        rw [Table.contains, Option.isSome_eq_false_iff, Option.isNone_iff_eq_none] at hfree hfree'
        rw [hfree, hfree']
    · obtain ⟨hnone, hnone'⟩ := habsent path hpath
      rw [(outcome?_eq_none_iff.1 hnone).2, (outcome?_eq_none_iff.1 hnone').2]

/-- The order of sources does not matter.  If every package of a table can be loaded and none
imports itself, then every load from it gives a program, and so does the same load from a table
where the declarations of each file stand in another order and the files of each package have other
names. Both have loaded the same packages, and whatever is requested of them, the same texts come
out. -/
theorem Program.load_reordered {t t' : SourceTable} (h : t.Reorders t')
    (hacyclic : ∀ path, ¬ Relation.TransGen t.Links path path) (hloadable : t.Loadable)
    (patterns : List String) : ∃ p p' log log', load t.sources patterns = (.ok p, log) ∧
      load t'.sources patterns = (.ok p', log') ∧
      (∀ path, p'.packages.contains path = p.packages.contains path) ∧
      ∀ (primary : Selection) (others : List Selection) (options : Options) (ε : Type) (limit : Int)
        (transforms : List (String → Except ε String)),
        (p'.emit primary others options).map (·.graph.generate limit transforms) =
          (p.emit primary others options).map (·.graph.generate limit transforms) := by
  obtain ⟨l, l', hload, hload', hhistory, hhistory', hresembles⟩ :=
    h.load_resembles hacyclic hloadable patterns
  refine ⟨l.program, l'.program, l.log, l'.log, hload, hload', fun path => ?_, ?_⟩
  · have hpackages := hresembles.packages path
    rw [Table.contains, Table.contains]
    generalize l.program.packages.get? path = found, l'.program.packages.get? path = found'
      at hpackages
    cases hpackages <;> rfl
  · intro primary others options ε limit transforms
    have hgraph := hresembles.emit hhistory.named hhistory'.named primary others options
    have htexts (r : Except LoadFailure Run) : r.map (·.graph.generate limit transforms) =
        (r.map (·.graph)).map (·.generate limit transforms) := by cases r <;> rfl
    rw [htexts, hgraph, ← htexts]

def twoFiles (first second : String) : SourceTable where
  packages := ⟨[("p", ⟨[("a.go", first), ("b.go", second)]⟩)]⟩

namespace twoFiles

variable (first second : String)

theorem filter_entries : [("a.go", first), ("b.go", second)].filter (!isTestFile ·.1) =
    [("a.go", first), ("b.go", second)] := by
  have htests : isTestFile "a.go" = false ∧ isTestFile "b.go" = false := by decide +kernel
  simp [htests]

theorem get?_of_ne (h : path ≠ "p") : (twoFiles first second).packages.get? path = none := by
  simp [twoFiles, Table.get?, h.symm]

theorem read_eq : (twoFiles first second).read = fun path =>
    if path = "p" then .ok [("a.go", first), ("b.go", second)]
    else .error (.error ⟨path, .noDirectory, []⟩) := by
  funext path
  rw [SourceTable.read]
  by_cases hpath : path = "p"
  · have hsorted : [("a.go", first), ("b.go", second)].Pairwise
        fun a b => decide (a.1 ≤ b.1) = true := by
      refine .cons (fun b hb => ?_) (.cons (List.forall_mem_nil _) .nil)
      rw [List.mem_singleton.1 hb]
      show decide ("a.go" ≤ "b.go") = true
      decide
    subst hpath
    show Except.ok (List.mergeSort ([("a.go", first), ("b.go", second)].filter _) _) = _
    rw [filter_entries, List.mergeSort_of_pairwise hsorted, if_pos rfl]
  · rw [get?_of_ne first second hpath, if_neg hpath]

variable {first second}

theorem reorders {first' : String} (hfirst : TextReorders first first')
    (hsecond : TextReorders second second) :
    (twoFiles first second).Reorders (twoFiles second first') := by
  refine ⟨rfl, fun path => ?_⟩
  by_cases hpath : path = "p"
  · subst hpath
    refine .some ⟨by simp, ?_⟩
    rw [filter_entries, filter_entries]
    exact ⟨[("b.go", second), ("a.go", first)], .swap _ _ _, .cons hsecond (.cons hfirst .nil)⟩
  · rw [get?_of_ne first second hpath, get?_of_ne second first' hpath]
    exact .none

end twoFiles

/-- Whether two texts are read as a type and a constant, which change places. -/
def changePlaces : Except SyntaxError FileText → Except SyntaxError FileText → Bool
  | .ok ⟨"p", [.types [⟨_, "A", [], .ref _ none "B" [], false⟩],
      .consts [⟨_, ["C"], some (none, [.lit _ ⟨.int, "1"⟩])⟩]]⟩,
    .ok ⟨"p", [.consts [⟨_, ["C"], some (none, [.lit _ ⟨.int, "1"⟩])⟩],
      .types [⟨_, "A", [], .ref _ none "B" [], false⟩]]⟩ => true
  | _, _ => false

theorem textReorders_of_changePlaces {source source' : String}
    (h : changePlaces (Reader.file.complete (.ofFile source))
      (Reader.file.complete (.ofFile source')) = true) : TextReorders source source' := by
  generalize htext : Reader.file.complete (.ofFile source) = text,
    htext' : Reader.file.complete (.ofFile source') = text' at h
  unfold changePlaces at h
  split at h
  · exact ⟨_, _, htext, htext', rfl, rfl, .swap _ _ _⟩
  · cases h

def typeFirst : String := "package p\ntype A B\nconst C = 1\n"

def constFirst : String := "package p\nconst C = 1\ntype A B\n"

/-- The type that the other one is defined by. -/
def baseType : String := "package p\ntype B struct { N int }\n"

/-- The files of a package are exchanged, and so are the declarations of one of them. -/
theorem Program.load_reordered_twoFiles : ∃ p p' log log',
    load (twoFiles typeFirst baseType).sources ["p"] = (.ok p, log) ∧
    load (twoFiles baseType constFirst).sources ["p"] = (.ok p', log') ∧
    p'.packages.contains "p" = p.packages.contains "p" ∧
    (p'.emit ⟨"p", []⟩ [] {}).map (·.graph.generate 0 ([] : List (String → Except Unit String))) =
      (p.emit ⟨"p", []⟩ [] {}).map (·.graph.generate 0 []) := by
  have hfirst : TextReorders typeFirst constFirst :=
    textReorders_of_changePlaces (by decide +kernel)
  have hsecond : TextReorders baseType baseType := .refl (by decide +kernel)
  have hacyclic : ∀ path, ¬ Relation.TransGen (twoFiles typeFirst baseType).Links path path := by
    refine SourceTable.acyclic_of_rank (fun _ => 0) ?_
    simp only [SourceTable.linksOf, twoFiles.read_eq]
    decide +kernel
  obtain ⟨p, log, hload, hcontains⟩ := exists_load (P := (·.packages.contains "p" = true))
    (show (load (twoFiles typeFirst baseType).sources ["p"]).1.toOption.any _ = true by
      rw [SourceTable.sources, twoFiles.read_eq]
      decide +kernel)
  have hloadable : (twoFiles typeFirst baseType).Loadable := by
    intro path texts hread
    by_cases hpath : path = "p"
    · exact ⟨["p"], p, log, hload, hpath ▸ hcontains⟩
    · simp only [twoFiles.read_eq, if_neg hpath] at hread
      cases hread
  obtain ⟨p, p', log, log', hload, hload', hpackages, htexts⟩ :=
    load_reordered (twoFiles.reorders hfirst hsecond) hacyclic hloadable ["p"]
  exact ⟨p, p', log, log', hload, hload', hpackages "p", htexts _ _ _ _ _ _⟩

end DeclBridge
