import DeclBridge.Program.Loading
import DeclBridge.Proofs.Reachability
import DeclBridge.Proofs.ResolvedPackage

/-!
# Programs that were loaded

A package is resolved when what it imports has been tried, so all that its types refer to is reached
through imports that are in place (`Program.Sound.ready`).  Packages that are being loaded are not
loaded twice, since an import of one of them is refused.  So a package is added under a path that
the program does not have (`Program.Sound.insert`), and what could be reached before can be reached
after.

The program as it is loaded is described package by package: `Loading.Built` says that each of them
was resolved among those before it, with every import there or missing for good.  What was tried is
not tried again, so a package that is there stays as it is, and one that is missing stays missing.
Errors are caught on the way and loading goes on; the statements are therefore about failures as
well.
-/

namespace DeclBridge

open Outline List Table

variable {files : List SourceFile} {l l' : Loader} {F : LoadFailure → Loader → Prop}
  {log : List LogLine} {patterns : List String} {p : Program} {path : String} {package : Package}
  {missing : String → Prop} {sources : Sources}

namespace Program

/-- What a test finds in the program that is loaded. -/
theorem exists_load {sources : Sources} {patterns : List String} {P : Program → Prop}
    [DecidablePred P] (h : (load sources patterns).1.toOption.any (P ·) = true) :
    ∃ p log, load sources patterns = (.ok p, log) ∧ P p := by
  obtain ⟨p, hp, hP⟩ := exists_ok_of_any h
  exact ⟨p, _, Prod.ext hp rfl, hP⟩

/-- The packages of a program are sound: their symbols refer to what their imports lead to. -/
def Sound (p : Program) : Prop :=
  ∀ path package, p.packages.get? path = some package → package.Sound path (p.Reaches path)

def withPackage (p : Program) (path : String) (package : Package) : Program :=
  { p with packages := p.packages.insert path package }

theorem importsOf_withPackage (p : Program) (path : String) (package : Package) (a : String) :
    (p.withPackage path package).importsOf a =
      if path = a then package.imports else p.importsOf a := by
  rw [importsOf, withPackage, get?_insert]
  split <;> rfl

theorem Reaches.withPackage {a b : String} (hfree : p.packages.get? path = none)
    (h : p.Reaches a b) : (p.withPackage path package).Reaches a b := by
  refine Relation.ReflTransGen.mono (fun c d (hcd : d ∈ p.importsOf c) => ?_) _ _ h
  rw [Imports, importsOf_withPackage]
  split
  · subst ‹path = c›
    rw [importsOf, hfree] at hcd
    exact absurd hcd not_mem_nil
  · exact hcd

end Program

theorem Package.Sound.mono {R R' : String → Prop}
    (h : package.Sound path R) (hR : ∀ q, R q → R' q) : package.Sound path R' where
  path_eq := h.path_eq
  distinct := h.distinct
  symbol name s hs := by
    obtain ⟨hname, hpackage, hcomplete, hwithin⟩ := h.symbol name s hs
    exact ⟨hname, hpackage, hcomplete, fun t ht => (hwithin t ht).mono hR⟩

namespace Program

/-- What a new package refers to: itself, and what its imports lead to. -/
def ReachesFrom (p : Program) (path : String) (imports : List String) (q : String) : Prop :=
  q = path ∨ ∃ i ∈ imports, p.Reaches i q

theorem Sound.insert (h : p.Sound) (hfree : p.packages.get? path = none)
    (hpackage : package.Sound path (p.ReachesFrom path package.imports)) :
    (p.withPackage path package).Sound := by
  intro a added hadded
  rw [withPackage, get?_insert] at hadded
  split at hadded
  · cases hadded
    subst ‹path = a›
    refine hpackage.mono fun q hq => ?_
    rcases hq with rfl | ⟨i, hi, hiq⟩
    · exact .refl
    · refine .head ?_ (hiq.withPackage hfree)
      rw [Imports, importsOf_withPackage, if_pos rfl]
      exact hi
  · exact (h a added hadded).mono fun q hq => hq.withPackage hfree

/-- All that a package can refer to when it is resolved is reached through its imports. -/
theorem Sound.ready (h : p.Sound) (hfree : p.packages.get? path = none) {o : Outline} {limit : Nat}
    (ho : o.Sound) (hpath : o.path = path) :
    Resolving.Ready (p.ReachesFrom path o.imports) ⟨o, p, limit⟩ where
  outline := ho
  imports i hi := .inr ⟨i, hi, .refl⟩
  within :=
    { own := .inl hpath
      outline := fun name s hs => (ho.symbol name s hs).2
      program := by
        intro q package hq hpackage name s hs
        obtain ⟨-, hown, -, hwithin⟩ := (h q package hpackage).symbol name s hs
        refine ⟨hown, fun t ht => (hwithin t ht).mono fun q' hq' => ?_⟩
        rcases hq with rfl | ⟨i, hi, hiq⟩
        · -- the package itself is not loaded yet
          cases hfree.symm.trans hpackage
        · exact .inr ⟨i, hi, hiq.trans hq'⟩ }

theorem Sound.resolve (h : p.Sound) (hfree : p.packages.get? path = none)
    (hresolve : (ofFiles p path files).resolve p = .ok package) :
    (p.withPackage path package).Sound := by
  obtain ⟨hsound, hpath⟩ := ofFiles_sound p path files
  obtain ⟨hpackage, himports⟩ :=
    resolveWithin_sound (h.ready hfree hsound hpath) hresolve
  rw [hpath, ← himports] at hpackage
  exact h.insert hfree hpackage

end Program

/-- A package that is loaded or recorded as missing. -/
def Loader.Tried (l : Loader) (path : String) : Prop :=
  l.program.packages.contains path = true ∨ l.program.failures.contains path = true

/-- A package that is recorded as missing and not loaded. -/
def Program.Misses (p : Program) (path : String) : Prop :=
  p.failures.contains path = true ∧ p.packages.get? path = none

/-- What the files of a package declare, where packages have the names that `p` gives them. -/
def Sources.outline? (sources : Sources) (p : Program) (path : String) : Option Outline :=
  match sources.read path with
  | .error _ => none
  | .ok (texts, _) => (Loading.parseFiles path texts).toOption.map (ofFiles p path)

namespace Loading

variable {missing' : String → Prop} {packages : Table String Package}

theorem mem_importsOf :
    path ∈ importsOf files ↔ ∃ file ∈ files, ∃ spec ∈ file.imports, spec.path = path := by
  have hfold (mentioned paths : List String) :
      path ∈ mentioned.foldl (fun paths path => if path ∈ paths then paths else paths ++ [path])
        paths ↔ path ∈ paths ∨ path ∈ mentioned := by
    induction mentioned generalizing paths with
    | nil => simp
    | cons first rest ih =>
      rw [foldl_cons, ih]
      by_cases hfirst : first ∈ paths
      · rw [if_pos hfirst, mem_cons]
        constructor
        · exact Or.imp_right .inr
        · rintro (h | rfl | h)
          · exact .inl h
          · exact .inl hfirst
          · exact .inr h
      · rw [if_neg hfirst, mem_append, mem_singleton, mem_cons, or_assoc]
  rw [importsOf, hfold]
  simp

/-- A package that was resolved from its files among other packages, where each of its imports is
among them or missing. -/
structure Resolved (sources : Sources) (missing : String → Prop) (packages : Table String Package)
    (path : String) (package : Package) (files : List SourceFile) : Prop where
  read : ∃ texts lines, sources.read path = .ok (texts, lines) ∧ parseFiles path texts = .ok files
  names : checkNames path files = .ok ()
  imports : ∀ q ∈ importsOf files, packages.contains q = true ∨ missing q
  resolve : ∃ failures, (ofFiles ⟨packages, failures⟩ path files).resolve
    ⟨packages, failures⟩ = .ok package

/-- Packages that were resolved one after another. -/
inductive Built (sources : Sources) (missing : String → Prop) : Table String Package → Prop
  | empty : Built sources missing {}
  | insert {packages : Table String Package} {path : String} {package : Package}
      {files : List SourceFile} : Built sources missing packages → packages.get? path = none →
      ¬ missing path → Resolved sources missing packages path package files →
      Built sources missing (packages.insert path package)

theorem Resolved.mono (h : Resolved sources missing packages path package files)
    (hsub : ∀ q, missing q → missing' q) : Resolved sources missing' packages path package files :=
  ⟨h.read, h.names, fun q hq => (h.imports q hq).imp_right (hsub q), h.resolve⟩

theorem Built.mono (h : Built sources missing packages) (hsub : ∀ q, missing q → missing' q)
    (hnot : ∀ q, packages.contains q = true → ¬ missing' q) : Built sources missing' packages := by
  induction h with
  | empty => exact .empty
  | @insert packages path package files _ hfree _ hresolved ih =>
    have hcontains (q : String) : (packages.insert path package).contains q = true ↔
        packages.contains q = true ∨ q = path := contains_insert packages path package q
    exact .insert (ih fun q hq => hnot q ((hcontains q).2 (.inl hq))) hfree
      (hnot path ((hcontains path).2 (.inr rfl))) (hresolved.mono hsub)

/-- Packages that were resolved one after another make a sound program. -/
theorem Built.sound (h : Built sources missing packages) (failures : Table String LoadError) :
    (⟨packages, failures⟩ : Program).Sound := by
  induction h generalizing failures with
  | empty => exact fun _ _ hpackage => by cases hpackage
  | insert _ hfree _ hresolved ih =>
    obtain ⟨failures', hresolve⟩ := hresolved.resolve
    exact (ih failures').resolve hfree hresolve

section

/-- What a package imports is in the end as it was when the package was resolved, there or missing,
so its outline is the same. -/
theorem Resolved.ofFiles_eq (h : Resolved sources p.Misses packages path package files)
    (hsub : ∀ q found, packages.get? q = some found → p.packages.get? q = some found)
    (failures : Table String LoadError) :
    ofFiles ⟨packages, failures⟩ path files = ofFiles p path files := by
  have himports : ∀ q ∈ importsOf files, packages.get? q = p.packages.get? q := by
    intro q hq
    cases hget : packages.get? q with
    | some found => exact (hsub q found hget).symm
    | none =>
      rcases h.imports q hq with hcontains | hmisses
      · rw [Table.contains, hget] at hcontains
        cases hcontains
      · exact hmisses.2.symm
  refine ofFiles_congr fun file hfile spec hspec _ => ?_
  rw [Program.packageName, Program.packageName,
    himports spec.path (mem_importsOf.2 ⟨file, hfile, spec, hspec, rfl⟩)]

theorem Resolved.outline?_eq (h : Resolved sources missing packages path package files) :
    sources.outline? p path = some (ofFiles p path files) := by
  obtain ⟨texts, lines, hread, hparse⟩ := h.read
  rw [Sources.outline?, hread]
  simp only [hparse]
  rfl

end

/-! ## The invariant of loading -/

variable {load' : String → Loading Unit} {tried stack : List String}

/-- What follows a request for files may rely on what the sources say; only the trace has changed.
-/
theorem ask_bind {α : Type} {P P' : Loader → Prop} {Q : α → Loader → Prop}
    {f : SourceList × List LogLine → Loading α}
    (hask : ∀ l, P l → P' { l with trace.asked := l.trace.asked ++ [path] })
    (hok : ∀ found, sources.read path = .ok found → Triple P' (f found) Q F)
    (herror : ∀ e, sources.read path = .error e → ∀ l, P' l → F e l) :
    Triple P (ask sources path >>= f) Q F := by
  rw [ask, bind_assoc]
  exact .bind (Q := fun _ => P') (.update hask) fun _ => .result_bind hok herror

/-- The packages of the program were built, those on `stack` are being loaded, and those of `tried`
have been tried. -/
structure BuiltAt (sources : Sources) (tried stack : List String) (l : Loader) : Prop where
  loading : l.loading = stack
  fresh : ∀ q ∈ stack, ¬ l.Tried q
  tried : ∀ q ∈ tried, l.Tried q
  built : Built sources l.program.Misses l.program.packages

/-- `x` keeps the invariant, and when it ends without a fault the package has been tried. -/
abbrev Tries (sources : Sources) (tried stack : List String) (path : String) (x : Loading Unit) :
    Prop :=
  Triple (BuiltAt sources tried stack) x
    (fun _ l => BuiltAt sources tried stack l ∧ l.Tried path) fun failure l =>
    ∀ why, failure = .error why → BuiltAt sources tried stack l ∧ l.Tried path

theorem BuiltAt.mono {stack' : List String} (h : BuiltAt sources tried stack l)
    (hprogram : l'.program = l.program) (hloading : l'.loading = stack')
    (hfresh : ∀ q ∈ stack', ¬ l.Tried q) : BuiltAt sources tried stack' l' where
  loading := hloading
  fresh q hq := by
    rw [Loader.Tried, hprogram]
    exact hfresh q hq
  tried q hq := by
    rw [Loader.Tried, hprogram]
    exact h.tried q hq
  built := by
    rw [hprogram]
    exact h.built

theorem BuiltAt.left (h : BuiltAt sources tried (stack ++ [path]) l) : l.loading.dropLast = stack := by
  rw [h.loading, dropLast_concat]

theorem say_built (lines : List LogLine) :
    Triple (BuiltAt sources tried stack) (say lines) (fun _ => BuiltAt sources tried stack) F :=
  .update fun _ h => h.mono rfl h.loading h.fresh

theorem BuiltAt.turn (h : BuiltAt sources tried (stack ++ [path]) l) (hstack : path ∉ stack)
    (htried : ∀ q, l'.Tried q ↔ l.Tried q ∨ q = path) (hloading : l'.loading = stack)
    (hbuilt : Built sources l'.program.Misses l'.program.packages) :
    BuiltAt sources tried stack l' ∧ l'.Tried path := by
  refine ⟨⟨hloading, fun q hq htried' => ?_, fun q hq => (htried q).2 (.inl (h.tried q hq)), hbuilt⟩,
    (htried path).2 (.inr rfl)⟩
  rcases (htried q).1 htried' with hbefore | rfl
  · exact h.fresh q (mem_append_left _ hq) hbefore
  · exact hstack hq

theorem Built.fail (h : Built sources p.Misses p.packages) (path : String) (why : LoadError) :
    Built sources (Program.Misses { p with failures := p.failures.insert path why }) p.packages := by
  refine h.mono (fun q hq => ⟨(Table.contains_insert _ _ _ q).2 (.inl hq.1), hq.2⟩)
    fun q hq hmissing => ?_
  rw [Table.contains, hmissing.2] at hq
  cases hq

theorem BuiltAt.add (h : BuiltAt sources tried (stack ++ [path]) l) (hstack : path ∉ stack)
    (hresolved : Resolved sources l.program.Misses l.program.packages path package files)
    (hloading : l'.loading = stack) (hprogram : l'.program = l.program.withPackage path package) :
    BuiltAt sources tried stack l' ∧ l'.Tried path := by
  have hfresh : ¬ l.Tried path := h.fresh path mem_concat_self
  refine h.turn hstack (fun q => ?_) hloading ?_
  · rw [Loader.Tried, Loader.Tried, hprogram, Program.withPackage, Table.contains_insert]
    tauto
  · -- what was missing before is not the package, which was not tried
    have hmissing (q : String) (hq : l.program.Misses q) : l'.program.Misses q := by
      have hne : path ≠ q := fun heq => hfresh (.inr (heq ▸ hq.1))
      rw [hprogram]
      refine ⟨hq.1, ?_⟩
      rw [Program.withPackage, get?_insert, if_neg hne]
      exact hq.2
    have hnot (q : String) (hq : l.program.packages.contains q = true) : ¬ l'.program.Misses q := by
      rintro ⟨-, hnone⟩
      have hloaded : l'.program.packages.contains q = true := by
        rw [hprogram]
        exact (contains_insert _ _ _ q).2 (.inl hq)
      rw [Table.contains, hnone] at hloaded
      cases hloaded
    have hfree : l.program.packages.get? path = none := by
      rw [← Option.not_isSome_iff_eq_none]
      exact fun hsome => hfresh (.inl hsome)
    have hbuilt : Built sources l'.program.Misses (l.program.packages.insert path package) := by
      refine .insert (h.built.mono hmissing hnot) hfree ?_ (hresolved.mono hmissing)
      rintro ⟨-, hnone⟩
      rw [hprogram, Program.withPackage, get?_insert_self] at hnone
      cases hnone
    rw [hprogram] at hbuilt ⊢
    exact hbuilt

/-! ## Loading -/

/-- An import of a package is tried, unless it ends the load of the package. -/
theorem loadImport_built (dependency : String)
    (hload : dependency ∉ stack → Tries sources tried stack dependency (load' dependency)) :
    Triple (BuiltAt sources tried stack) (loadImport load' path dependency)
      (fun _ l => BuiltAt sources tried stack l ∧ l.Tried dependency) fun failure l =>
      ∀ why, failure = .error why → BuiltAt sources tried stack l := by
  rw [loadImport]
  refine .get_bind fun l hl => ?_
  dsimp only
  split
  · refine .bind (Q := fun _ _ => False) (.throw fun _ h _ _ => h ▸ hl) fun _ => ?_
    exact fun _ h => h.elim
  · rename_i hfree
    rw [hl.loading] at hfree
    refine .tryCatch ((hload hfree).start hl) fun failure => ?_
    cases failure with
    | error why =>
      exact .update fun l h => ⟨(h why rfl).1.mono rfl (h why rfl).1.loading
        (h why rfl).1.fresh, (h why rfl).2⟩
    | fault f => exact .throw fun _ _ _ heq => by cases heq

theorem forM_loadImport_built (tried dependencies : List String)
    (hload : ∀ tried d, d ∉ stack → Tries sources tried stack d (load' d)) :
    Triple (BuiltAt sources tried stack) (dependencies.forM (loadImport load' path))
      (fun _ => BuiltAt sources (dependencies ++ tried) stack) fun failure l =>
      ∀ why, failure = .error why → BuiltAt sources tried stack l := by
  induction dependencies generalizing tried with
  | nil => exact .pure fun _ h => h
  | cons d dependencies ih =>
    refine .bind (Q := fun _ => BuiltAt sources (d :: tried) stack)
      ((loadImport_built d (hload tried d)).post (fun _ l h => ?_))
      fun _ => (ih (d :: tried)).weaken (fun _ h => h) (fun _ l h => ?_) fun _ l h why hwhy => ?_
    · exact ⟨h.1.loading, h.1.fresh, forall_mem_cons.2 ⟨h.2, h.1.tried⟩, h.1.built⟩
    · refine ⟨h.loading, h.fresh, fun q hq => h.tried q ?_, h.built⟩
      simp only [cons_append, mem_cons, mem_append] at hq ⊢
      tauto
    · have hl := h why hwhy
      exact ⟨hl.loading, hl.fresh, (forall_mem_cons.1 hl.tried).2, hl.built⟩

/-- When the imports of a package have been tried, it is resolved among the packages that are there.
-/
theorem loadFresh_built (hload : ∀ tried d, d ∉ stack → Tries sources tried stack d (load' d)) :
    Triple (BuiltAt sources tried stack) (loadFresh sources load' path)
      (fun package l => BuiltAt sources tried stack l ∧
        ∃ files, Resolved sources l.program.Misses l.program.packages path package files)
      fun failure l => ∀ why, failure = .error why → BuiltAt sources tried stack l := by
  rw [loadFresh]
  refine ask_bind (fun _ h => h.mono rfl h.loading h.fresh) (fun found hread => ?_)
    fun _ _ _ h _ _ => h
  obtain ⟨texts, lines⟩ := found
  refine .bind (say_built _) fun _ => ?_
  refine .result_bind (fun files hparse => ?_) fun _ _ _ h _ _ => h
  refine .result_bind (fun _ hnames => ?_) fun _ _ _ h _ _ => h
  refine .bind (forM_loadImport_built tried (importsOf files) hload) fun _ => ?_
  refine .get_bind fun l hl => ?_
  have hl' : BuiltAt sources tried stack l :=
    ⟨hl.loading, hl.fresh, (forall_mem_append.1 hl.tried).2, hl.built⟩
  refine .result (fun package hpackage l h => ?_) fun _ _ _ h _ _ => h ▸ hl'
  subst h
  refine ⟨hl', files, ⟨texts, lines, hread, hparse⟩, hnames, fun q hq => ?_, ⟨_, hpackage⟩⟩
  have htried := hl.tried q (mem_append_left _ hq)
  by_cases hloaded : l.program.packages.contains q = true
  · exact .inl hloaded
  · refine .inr ⟨htried.resolve_left hloaded, ?_⟩
    rw [← Option.not_isSome_iff_eq_none]
    exact hloaded

/-- A package is tried when it is loaded, whether it is found or not. -/
theorem load_built (count : Nat) (hstack : path ∉ stack) :
    Tries sources tried stack path (load sources count path) := by
  induction count generalizing tried stack path with
  | zero => exact .throw fun _ _ _ heq => by cases heq
  | succ count ih =>
    rw [load]
    refine .get_bind fun l₀ hl => ?_
    split
    · rename_i hloaded
      exact .pure fun _ h => h ▸ ⟨hl, .inl hloaded⟩
    · rename_i hloaded
      split
      · rename_i why hmissing
        exact .throw fun _ h _ _ => h ▸ ⟨hl, .inr (contains_of_get? hmissing)⟩
      · rename_i hmissing
        have hfresh : ¬ l₀.Tried path := by
          rintro (h | h)
          · exact hloaded h
          · rw [Table.contains, hmissing] at h
            cases h
        refine .bind (Q := fun _ => BuiltAt sources tried (stack ++ [path])) (.update fun _ h =>
          h ▸ hl.mono rfl (congrArg (· ++ [path]) hl.loading) fun q hq => ?_) fun _ => ?_
        · rcases mem_append.1 hq with hq | hq
          · exact hl.fresh q hq
          · rw [mem_singleton.1 hq]
            exact hfresh
        refine .bind (.tryCatch (loadFresh_built fun _ _ hd => ih hd) fun failure => ?_)
          fun package => .assume fun l₁ hl₁ => ?_
        · cases failure with
          | error why =>
            refine .assume fun l₁ hl₁ => ?_
            -- the failure is recorded, and the package is no longer being loaded
            refine .update_bind (.bind (Q := fun _ l => BuiltAt sources tried stack l ∧ l.Tried path)
              (.update fun l h => ?_) fun _ => .throw fun _ h _ _ => h)
            subst h
            refine (hl₁ why rfl).turn hstack (fun q => ?_) (hl₁ why rfl).left
              ((hl₁ why rfl).built.fail path why)
            rw [Loader.Tried, Loader.Tried, Table.contains_insert]
            tauto
          | fault f =>
            exact .bind (Q := fun _ _ => True) (.update fun _ _ => trivial)
              fun _ => .throw fun _ _ _ heq => by cases heq
        · obtain ⟨hbuilt, files, hresolved⟩ := hl₁
          refine .update_bind ?_
          rw [recordPackage]
          refine .bind (Q := fun _ l => BuiltAt sources tried stack l ∧ l.Tried path)
            (.update fun l h => ?_) fun _ => .update fun l h =>
            ⟨h.1.mono rfl h.1.loading h.1.fresh, h.2⟩
          subst h
          exact hbuilt.add hstack hresolved hbuilt.left rfl

/-- What a pattern stands for is loaded or missing, and only a fault is passed on. -/
theorem loadPattern_built (pattern : String) :
    Triple (BuiltAt sources [] []) (loadPattern sources pattern) (fun _ => BuiltAt sources [] [])
      fun failure _ => ∃ f, failure = .fault f := by
  rw [loadPattern]
  split
  · exact .update fun l h => ⟨h.loading, forall_mem_nil _,
      forall_mem_nil _, h.built.fail _ _⟩
  · exact .throw fun _ _ => ⟨_, rfl⟩
  · refine .tryCatch ((load_built _ not_mem_nil).post fun _ _ h => h.1) fun failure => ?_
    cases failure with
    | error why =>
      refine .update fun l h => ?_
      obtain ⟨hl, -⟩ := h why rfl
      exact hl.mono rfl hl.loading hl.fresh
    | fault f => exact Triple.throw fun _ _ => ⟨f, rfl⟩

end Loading

/-- A program that was loaded was built package by package. -/
theorem Program.load_built (h : Program.load sources patterns = (.ok p, log)) :
    Loading.Built sources p.Misses p.packages := by
  have hstart : Loading.BuiltAt sources [] [] {} :=
    ⟨rfl, forall_mem_nil _, forall_mem_nil _, .empty⟩
  have hload := Triple.forM (l := patterns) (f := Loading.loadPattern sources)
    fun pattern _ => Loading.loadPattern_built pattern
  rw [load] at h
  rcases hresult : (patterns.forM (Loading.loadPattern sources)).run.run {} with
    ⟨failure | ⟨⟩, l⟩ <;> rw [hresult] at h
  · obtain ⟨f, rfl⟩ := hload.error hstart hresult
    cases h
  · cases h
    exact (hload.ok hstart hresult).built

/-- Every program that is loaded is sound, wherever its sources come from. -/
theorem Program.load_sound (h : Program.load sources patterns = (.ok p, log)) : p.Sound :=
  (load_built h).sound p.failures

end DeclBridge
