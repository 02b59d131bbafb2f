import DeclBridge.Proofs.LoadHistory

/-!
# The order of requests

What becomes of a package does not depend on when its turn comes.  Two loads may try packages in
different orders and among different other packages; but all that a package can refer to is reached
through its imports, and these have had their turns before it in both loads.

## Shape of the argument

`Loading.Simulates` says of two tables that a package which resolves from the files of the one
resolves from those of the other to a related package, among packages that are related as far as its
imports reach.  Two histories of tables that simulate each other agree on every package that both
have tried (`Loading.History.agree`), by induction on the turns of the first.  A table simulates
itself, with equality as the relation (`Loading.bisimulates_self`): the resolution in one program is
the resolution in the other, where both have the same packages within reach
(`Outline.resolve_congr`).
-/

namespace DeclBridge

open Outline List Program

variable {path : String} {files : List SourceFile} {package : Package} {t : SourceTable}

namespace Table

theorem Distinct.ext {κ α : Type} [DecidableEq κ] {t t' : Table κ α} (h : t.Distinct)
    (hkeys : t'.keys = t.keys) (hget : ∀ k, t'.get? k = t.get? k) : t' = t := by
  have hentries {u : Table κ α} (hu : u.Distinct) :
      u.entries.map (fun e => (e.1, some e.2)) = u.keys.map fun k => (k, u.get? k) := by
    rw [keys, map_map]
    refine map_congr_left fun e he => ?_
    rw [Function.comp, hu.get?_of_mem he]
  have hdistinct : t'.Distinct := by rwa [Distinct, hkeys]
  have hmap : t'.entries.map (fun e => (e.1, some e.2)) =
      t.entries.map fun e => (e.1, some e.2) := by
    rw [hentries hdistinct, hentries h, hkeys]
    exact map_congr_left fun k _ => by rw [hget]
  have hinjective : Function.Injective fun e : κ × α => (e.1, some e.2) := by
    rintro ⟨a, b⟩ ⟨c, d⟩ heq
    simpa using heq
  obtain ⟨entries⟩ := t
  obtain ⟨entries'⟩ := t'
  exact congrArg _ (map_injective_iff.2 hinjective hmap)

end Table

theorem rel_flip {α β : Type} {r : α → β → Prop} {a : Option α} {b : Option β}
    (h : Option.Rel r a b) : Option.Rel (flip r) b a := by
  cases h with
  | some h => exact .some h
  | none => exact .none

namespace Outline

variable {R R' : String → Prop} {o : Outline} {p p' : Program} {limit : Nat}

theorem keys_of_resolveWithin (hready : Resolving.Ready R ⟨o, p, limit⟩)
    (h : o.resolveWithin limit p = .ok package) : package.symbols.keys = o.symbols.keys := by
  obtain ⟨S, -, hall, rfl⟩ := resolveWithin_iff.1 h
  exact (resolveAll_spec hready hready.outline.store hall).1.keys

/-- A package resolves in the same way in any program with the same packages within its reach. -/
theorem resolveWithin_congr (hready : Resolving.Ready R ⟨o, p, limit⟩)
    (hready' : Resolving.Ready R' ⟨o, p', limit⟩)
    (hpackages : ∀ q, R q → p'.packages.get? q = p.packages.get? q)
    (hpackage : o.resolveWithin limit p = .ok package) :
    o.resolveWithin limit p' = .ok package := by
  have henv : Surroundings.Moves .stay R ⟨o, p, limit⟩ ⟨o, p', limit⟩ := by
    refine ⟨o.moves_stay, rfl, fun q hq => ?_⟩
    dsimp only
    rw [hpackages q hq]
    cases p.packages.get? q with
    | none => exact .none
    | some Q => exact .some Q.moves_stay
  obtain ⟨S, hredeclared, -⟩ := resolveWithin_iff.1 hpackage
  have hfound := foundIn_of_resolveWithin hready.outline hpackage
  have hfinds (name : String) (hname : o.symbols.contains name = true) :
      Surroundings.Finds ⟨o, p', limit⟩ (Resolving.lookUp · name) (package.symbols.get? name) := by
    have hmoved := Resolving.finds_moved hready henv (hfound.declared name hname)
    rwa [funext Symbol.moved_stay, show Option.map (fun s => s) _ = _ from Option.map_id'] at hmoved
  obtain ⟨package', hpackage', hfound'⟩ := resolveWithin_of_resolves hready'.outline
    (redeclarations_eq_nil.1 hredeclared) fun name hname => ⟨_, hfinds name hname⟩
  have hsymbols : package'.symbols = package.symbols := by
    have hkeys := keys_of_resolveWithin hready hpackage
    refine Table.Distinct.ext ?_ ((keys_of_resolveWithin hready' hpackage').trans hkeys.symm) ?_
    · rw [Table.Distinct, hkeys]
      exact hready.outline.distinct
    · intro name
      by_cases hname : o.symbols.contains name = true
      · exact (hfound'.declared name hname).unique (hfinds name hname)
      · have hnone : o.symbols.get? name = none := by
          rw [← Option.not_isSome_iff_eq_none]
          exact hname
        rw [hfound.others name hnone, hfound'.others name hnone]
  rw [hpackage']
  obtain ⟨S, -, -, rfl⟩ := resolveWithin_iff.1 hpackage
  obtain ⟨S', -, -, rfl⟩ := resolveWithin_iff.1 hpackage'
  have hstores : S'.symbols = S.symbols := hsymbols
  rw [hstores]

theorem resolve_congr (hready : Resolving.Ready R ⟨ofFiles p path files, p, aliasLimit⟩)
    (hready' : Resolving.Ready R' ⟨ofFiles p' path files, p', aliasLimit⟩)
    (hpackages : ∀ q, R q → p'.packages.get? q = p.packages.get? q)
    (hpackage : (ofFiles p path files).resolve p = .ok package) :
    (ofFiles p' path files).resolve p' = .ok package := by
  have houtline : ofFiles p' path files = ofFiles p path files := by
    refine ofFiles_congr fun file hfile spec hspec _ => ?_
    have hmem : spec.path ∈ (ofFiles p path files).imports :=
      mem_imports_ofFiles.2 (mem_flatMap.2 ⟨file, hfile, mem_map_of_mem hspec⟩)
    rw [packageName, packageName, hpackages _ (hready.imports _ hmem)]
  rw [houtline] at hready' ⊢
  exact resolveWithin_congr hready hready' hpackages hpackage

end Outline

namespace SourceTable

/-- What the files of a package import, if they can be read. -/
def linksOf (t : SourceTable) (path : String) : List String :=
  match do
    let files ← Loading.parseFiles path (← t.read path)
    Loading.checkNames path files
    return Loading.importsOf files with
  | .ok imports => imports
  | .error _ => []

theorem mem_linksOf {a b : String} : b ∈ t.linksOf a ↔ t.Links a b := by
  rw [linksOf, Links]
  cases hread : t.read a with
  | error f => simp [Files, hread, bind, Except.bind]
  | ok texts =>
    cases hparse : Loading.parseFiles a texts with
    | error f => simp [Files, hread, hparse, bind, Except.bind]
    | ok files =>
      cases hnames : Loading.checkNames a files with
      | error f => simp [Files, hread, hparse, hnames, bind, Except.bind]
      | ok names => simp [Files, hread, hparse, hnames, bind, Except.bind, pure, Except.pure]

/-- No package imports itself if every package of the table has a greater rank than its imports. -/
theorem acyclic_of_rank (rank : String → Nat)
    (hrank : ∀ a ∈ t.packages.keys, ∀ b ∈ t.linksOf a, rank b < rank a) (path : String) :
    ¬ Relation.TransGen t.Links path path := by
  have hlink {a b : String} (h : t.Links a b) : rank b < rank a := by
    refine hrank a ?_ b (mem_linksOf.2 h)
    obtain ⟨files, ⟨texts, hread, -⟩, -⟩ := h
    rw [read] at hread
    cases hfound : t.packages.get? a with
    | none =>
      rw [hfound] at hread
      cases hread
    | some found => exact mem_map_of_mem (Table.mem_entries_of_get? hfound)
  have hlt {a b : String} (h : Relation.TransGen t.Links a b) : rank b < rank a := by
    induction h with
    | single h => exact hlink h
    | tail _ h ih => exact (hlink h).trans ih
  exact fun hcycle => lt_irrefl _ (hlt hcycle)

end SourceTable

namespace Loading

variable {t' : SourceTable} {tried tried' : List String} {p p' : Program}
  {files' : List SourceFile} {r r' : Except LoadError Package}
  {Rel : Package → Package → Prop} {wanted : String → Prop}

theorem mem_imports_ofFiles_iff {q : String} :
    q ∈ (ofFiles p path files).imports ↔ q ∈ importsOf files := by
  rw [mem_imports_ofFiles, mem_importsOf]
  simp

/-- A sound program is ready for a package that it does not have. -/
theorem ready_of_sound (h : p.Sound) (hfree : p.packages.get? path = none)
    (files : List SourceFile) : Resolving.Ready (p.ReachesFrom path (ofFiles p path files).imports)
      ⟨ofFiles p path files, p, aliasLimit⟩ := by
  obtain ⟨hsound, hpath⟩ := ofFiles_sound p path files
  exact h.ready hfree hsound hpath

namespace History

theorem get?_eq_none (h : History t tried p) (hpath : path ∉ tried) : p.packages.get? path = none :=
  (outcome?_eq_none_iff.1 (h.outcome?_eq_none hpath)).1

theorem sound (h : History t tried p) : p.Sound := by
  induction h with
  | start => exact fun _ _ hpackage => nomatch hpackage
  | @turn tried p path r hhistory hfresh houtcome ih =>
    have hfree := hhistory.get?_eq_none hfresh
    cases houtcome with
    | loaded _ _ hresolve => exact ih.resolve hfree hresolve
    | missing | unreadable | mixed | cyclic | unresolved => exact ih

theorem imports_tried (h : History t tried p) (hpackage : p.packages.get? path = some package)
    {i : String} (hi : i ∈ package.imports) : i ∈ tried :=
  (h.imports_before hpackage hi).subset mem_cons_self

theorem missing_iff (h : History t tried p) :
    p.failures.contains path = true ↔ path ∈ tried ∧ p.packages.get? path = none := by
  rw [h.mem_tried_iff, ← Option.not_isSome_iff_eq_none]
  constructor
  · intro hmissing
    refine ⟨.inr hmissing, fun hloaded => ?_⟩
    rw [h.disjoint hloaded] at hmissing
    cases hmissing
  · rintro ⟨hloaded | hmissing, hnot⟩
    · exact absurd hloaded hnot
    · exact hmissing

end History

/-- A package with files that does not import itself is resolved in its turn. -/
theorem Outcome.resolve_eq (h : Outcome t tried p path r) (hfiles : t.Files path files)
    (hacyclic : ¬ Relation.TransGen t.Links path path) : (∀ i ∈ importsOf files, i ∈ tried) ∧
      (ofFiles p path files).resolve p = r.mapError .error := by
  obtain ⟨texts, hread, hparse, hnames⟩ := id hfiles
  cases h with
  | loaded hfiles₁ himports hresolve | unresolved hfiles₁ himports hresolve =>
    cases hfiles₁.unique hfiles
    exact ⟨himports, hresolve⟩
  | cyclic hcycle => exact absurd hcycle hacyclic
  | missing hread₁ =>
    cases hread₁.symm.trans hread
  | unreadable hread₁ hparse₁ =>
    cases hread₁.symm.trans hread
    cases hparse₁.symm.trans hparse
  | mixed hread₁ hparse₁ hnames₁ =>
    cases hread₁.symm.trans hread
    cases hparse₁.symm.trans hparse
    cases hnames₁.symm.trans hnames

/-! ## Two histories -/

/-- A package that resolves from the files of `t` resolves from those of `t'` to a related one, in
programs that are related as far as its imports reach. -/
def Simulates (Rel : Package → Package → Prop) (t t' : SourceTable) : Prop :=
  ∀ path files, t.Files path files → ∃ files', t'.Files path files' ∧
    (∀ i, i ∈ importsOf files' ↔ i ∈ importsOf files) ∧
    ∀ p p' : Program, p.Sound → p'.Sound →
      p.packages.get? path = none → p'.packages.get? path = none →
      (∀ q, p.ReachesFrom path (importsOf files) q →
        Option.Rel Rel (p.packages.get? q) (p'.packages.get? q)) →
      ∀ package, (ofFiles p path files).resolve p = .ok package →
        ∃ package', (ofFiles p' path files').resolve p' = .ok package' ∧
          Rel package package'

/-- Two tables simulate each other, with related packages that have the same imports. -/
structure Bisimulates (Rel : Package → Package → Prop) (t t' : SourceTable) : Prop where
  simulates : Simulates Rel t t'
  simulated : Simulates (flip Rel) t' t
  imports : ∀ P P', Rel P P' → ∀ i, i ∈ P'.imports ↔ i ∈ P.imports

theorem Bisimulates.symm (h : Bisimulates Rel t t') : Bisimulates (flip Rel) t' t where
  simulates := h.simulated
  simulated := h.simulates
  imports P P' hrel i := (h.imports P' P hrel i).symm

/-- Tables that simulate each other have the same import graph. -/
theorem Bisimulates.links_eq (h : Bisimulates Rel t t') : t'.Links = t.Links := by
  have hlink {Rel : Package → Package → Prop} {t t' : SourceTable} (h : Simulates Rel t t')
      {a b : String} (hlink : t.Links a b) : t'.Links a b := by
    obtain ⟨files, hfiles, hb⟩ := hlink
    obtain ⟨files', hfiles', hsame, -⟩ := h a files hfiles
    exact ⟨files', hfiles', (hsame b).2 hb⟩
  funext a b
  exact propext ⟨hlink h.simulated, hlink h.simulates⟩

/-- A package that was loaded in its turn resolves as well in another history, when its imports have
been tried there. -/
theorem resolve_of_loaded (hsim : Bisimulates Rel t t') (h : History t tried p)
    (h' : History t' tried' p') (hfresh : path ∉ tried) (hfresh' : path ∉ tried')
    (hagree : ∀ q ∈ tried, q ∈ tried' → Option.Rel Rel (p.packages.get? q) (p'.packages.get? q))
    (hloaded : Outcome t tried p path (.ok package)) (hfiles' : t'.Files path files')
    (htried' : ∀ i ∈ importsOf files', i ∈ tried') :
    ∃ package', (ofFiles p' path files').resolve p' = .ok package' ∧ Rel package package' := by
  cases hloaded with
  | @loaded files _ hfiles htried hresolve =>
    obtain ⟨files₁, hfiles₁, hsame, hres⟩ := hsim.simulates path files hfiles
    cases hfiles₁.unique hfiles'
    refine hres p p' h.sound h'.sound (h.get?_eq_none hfresh) (h'.get?_eq_none hfresh') ?_ package
      hresolve
    rintro q (rfl | ⟨i, hi, hiq⟩)
    · -- the package itself is not loaded yet
      rw [h.get?_eq_none hfresh, h'.get?_eq_none hfresh']
      exact .none
    · -- all that its imports lead to has had its turn in both histories
      obtain ⟨hq, hq'⟩ : q ∈ tried ∧ q ∈ tried' := by
        induction hiq with
        | refl => exact ⟨htried i hi, htried' i ((hsame i).2 hi)⟩
        | @tail a b _ hab ih =>
          have hrel := hagree a ih.1 ih.2
          rw [Program.Imports, Program.importsOf] at hab
          cases hA : p.packages.get? a with
          | none =>
            rw [hA] at hab
            cases hab
          | some A =>
            rw [hA] at hab hrel
            cases hA' : p'.packages.get? a with
            | none =>
              rw [hA'] at hrel
              cases hrel
            | some A' =>
              rw [hA'] at hrel
              cases hrel with
              | some hrel =>
                have hab' := (hsim.imports A A' hrel b).2 hab
                exact ⟨h.imports_tried hA hab, h'.imports_tried hA' hab'⟩
      exact hagree q hq hq'

/-- What was loaded in one history was loaded in the other. -/
theorem Outcome.loaded_of_loaded (hsim : Bisimulates Rel t t') (h : History t tried p)
    (h' : History t' tried' p') (hfresh : path ∉ tried) (hfresh' : path ∉ tried')
    (hacyclic' : ¬ Relation.TransGen t'.Links path path)
    (hagree : ∀ q ∈ tried, q ∈ tried' → Option.Rel Rel (p.packages.get? q) (p'.packages.get? q))
    (hloaded : Outcome t tried p path (.ok package)) (houtcome' : Outcome t' tried' p' path r') :
    ∃ package', r' = .ok package' ∧ Rel package package' := by
  obtain ⟨files', hfiles'⟩ : ∃ files', t'.Files path files' := by
    cases hloaded with
    | loaded hfiles _ _ =>
      obtain ⟨files', hfiles', -⟩ := hsim.simulates path _ hfiles
      exact ⟨files', hfiles'⟩
  obtain ⟨htried', hresolve'⟩ := houtcome'.resolve_eq hfiles' hacyclic'
  obtain ⟨package', hpackage', hrel⟩ :=
    resolve_of_loaded hsim h h' hfresh hfresh' hagree hloaded hfiles' htried'
  rw [hresolve'] at hpackage'
  cases r' with
  | error why => cases hpackage'
  | ok found =>
    cases hpackage'
    exact ⟨_, rfl, hrel⟩

/-- Two histories of tables that simulate each other agree on what both have tried, if no package
imports itself. -/
theorem History.agree (hsim : Bisimulates Rel t t')
    (hacyclic : ∀ q, ¬ Relation.TransGen t.Links q q) (h : History t tried p)
    (h' : History t' tried' p') (hpath : path ∈ tried) (hpath' : path ∈ tried') :
    Option.Rel Rel (p.packages.get? path) (p'.packages.get? path) := by
  have hacyclic' : ∀ q, ¬ Relation.TransGen t'.Links q q := hsim.links_eq ▸ hacyclic
  induction h generalizing tried' p' path with
  | start => exact absurd hpath not_mem_nil
  | @turn tried p last r hhistory hfresh houtcome ih =>
    have hfree := hhistory.get?_eq_none hfresh
    have hget (q : String) (hq : q ∈ tried) :
        (p.record last r).packages.get? q = p.packages.get? q := by
      have hne : last ≠ q := fun heq => hfresh (heq ▸ hq)
      cases r with
      | ok package => exact Table.get?_insert_of_ne _ _ hne
      | error why => rfl
    rcases mem_append.1 hpath with hpath | hpath
    · rw [hget path hpath]
      exact ih h' hpath hpath'
    · obtain rfl := mem_singleton.1 hpath
      obtain ⟨r', hr'⟩ := Option.isSome_iff_exists.1 ((h'.mem_iff path).1 hpath')
      obtain ⟨before, p₁, hhistory₁, hfresh₁, hturn, -, -⟩ := h'.exists_turn hr'
      have hagree (q : String) (hq : q ∈ tried) (hq' : q ∈ before) :
          Option.Rel Rel (p.packages.get? q) (p₁.packages.get? q) := ih hhistory₁ hq hq'
      cases r with
      | ok package =>
        obtain ⟨package', rfl, hrel⟩ := Outcome.loaded_of_loaded hsim hhistory hhistory₁ hfresh
          hfresh₁ (hacyclic' path) hagree houtcome hturn
        rw [record, Table.get?_insert_self, outcome?_eq_ok_iff.1 hr']
        exact .some hrel
      | error why =>
        cases r' with
        | ok package' =>
          obtain ⟨package, heq, -⟩ := Outcome.loaded_of_loaded hsim.symm hhistory₁ hhistory hfresh₁
            hfresh (hacyclic path) (fun q hq' hq => rel_flip (hagree q hq hq')) hturn houtcome
          cases heq
        | error why' =>
          rw [show (p.record path (.error why)).packages.get? path = none from hfree,
            (outcome?_eq_error_iff.1 hr').1]
          exact .none

/-! ## Loads of one table -/

theorem simulates_self (t : SourceTable) : Simulates Eq t t := by
  intro path files hfiles
  refine ⟨files, hfiles, fun _ => Iff.rfl, ?_⟩
  intro p p' hsound hsound' hfree hfree' hpackages package hpackage
  refine ⟨package, ?_, rfl⟩
  refine resolve_congr (ready_of_sound hsound hfree files)
    (ready_of_sound hsound' hfree' files) (fun q hq => ?_) hpackage
  have hreach : p.ReachesFrom path (importsOf files) q := by
    refine hq.imp_right ?_
    rintro ⟨i, hi, hiq⟩
    exact ⟨i, mem_imports_ofFiles_iff.1 hi, hiq⟩
  have hrel := hpackages q hreach
  generalize p.packages.get? q = found, p'.packages.get? q = found' at hrel
  cases hrel with
  | some heq => rw [heq]
  | none => rfl

theorem bisimulates_self (t : SourceTable) : Bisimulates Eq t t where
  simulates := simulates_self t
  simulated := by
    have hflip : flip (@Eq Package) = Eq := by
      funext P P'
      exact propext eq_comm
    rw [hflip]
    exact simulates_self t
  imports P P' heq i := by rw [heq]

/-- Where no package imports itself, all imports of what was tried have been tried. -/
theorem History.link_tried (h : History t tried p)
    (hacyclic : ∀ q, ¬ Relation.TransGen t.Links q q) {a b : String} (ha : a ∈ tried)
    (hlink : t.Links a b) : b ∈ tried := by
  obtain ⟨files, hfiles, hb⟩ := hlink
  obtain ⟨r, hr⟩ := Option.isSome_iff_exists.1 ((h.mem_iff a).1 ha)
  obtain ⟨before, p₁, -, -, hturn, hpre, -⟩ := h.exists_turn hr
  have himports := (hturn.resolve_eq hfiles (hacyclic a)).1
  exact hpre.subset (mem_append_left _ (himports b hb))

/-- Where no package imports itself, exactly what is wanted is tried. -/
theorem Course.mem_tried_iff {patterns : List String} {l : Loader}
    (h : Course t (Wanted t patterns) (patterns.map t.importPath) [] l)
    (hacyclic : ∀ q, ¬ Relation.TransGen t.Links q q) :
    path ∈ l.trace.tried ↔ Wanted t patterns path := by
  refine ⟨h.tried_wanted path, ?_⟩
  rintro ⟨pattern, hpattern, hreach⟩
  induction hreach with
  | refl => exact h.done_tried _ (mem_map_of_mem hpattern)
  | tail _ hlink ih => exact h.history.link_tried hacyclic ih hlink

end Loading

/-- Where no package imports itself, a program depends only on which packages are requested: loads
of the same packages in another order, or more than once, give the same packages, with equal
symbols, and the same packages are missing. -/
theorem Program.load_requests {t : SourceTable} {patterns patterns' : List String} {p p' : Program}
    {log log' : List LogLine} (hacyclic : ∀ path, ¬ Relation.TransGen t.Links path path)
    (hsame : ∀ path, path ∈ patterns'.map t.importPath ↔ path ∈ patterns.map t.importPath)
    (h : load t.sources patterns = (.ok p, log))
    (h' : load t.sources patterns' = (.ok p', log')) (path : String) :
    p'.packages.get? path = p.packages.get? path ∧
      p'.failures.contains path = p.failures.contains path := by
  obtain ⟨l, -, rfl, -, hcourse⟩ := load_course h
  obtain ⟨l', -, rfl, -, hcourse'⟩ := load_course h'
  have hwanted : Loading.Wanted t patterns' path ↔ Loading.Wanted t patterns path := by
    have hiff (patterns : List String) : Loading.Wanted t patterns path ↔
        ∃ target ∈ patterns.map t.importPath, Relation.ReflTransGen t.Links target path := by
      simp [Loading.Wanted]
    simp only [hiff, hsame]
  have htried : path ∈ l'.trace.tried ↔ path ∈ l.trace.tried := by
    rw [hcourse.mem_tried_iff hacyclic, hcourse'.mem_tried_iff hacyclic, hwanted]
  have hpackages : l'.program.packages.get? path = l.program.packages.get? path := by
    by_cases hpath : path ∈ l.trace.tried
    · have hrel := hcourse.history.agree (Loading.bisimulates_self t) hacyclic hcourse'.history
        hpath (htried.2 hpath)
      generalize l.program.packages.get? path = found, l'.program.packages.get? path = found'
        at hrel
      cases hrel with
      | some heq => rw [heq]
      | none => rfl
    · rw [hcourse.history.get?_eq_none hpath,
        hcourse'.history.get?_eq_none fun hpath' => hpath (htried.1 hpath')]
  refine ⟨hpackages, Bool.eq_iff_iff.2 ?_⟩
  rw [hcourse.history.missing_iff, hcourse'.history.missing_iff, htried, hpackages]

/-- Two packages in memory, of which one imports the other and a package that is not there. -/
def sharedLibrary : SourceTable where
  packages := ⟨[("app", ⟨[("app.go",
      "package app\nimport \"lib\"\nimport \"gone\"\ntype A lib.B\n")]⟩),
    ("lib", ⟨[("lib.go", "package lib\ntype B struct { N int }\n")]⟩)]⟩

/-- The library may be asked for after the package that imports it, or before and again. -/
theorem Program.load_requests_sharedLibrary : ∃ p p' log log',
    load sharedLibrary.sources ["app", "lib"] = (.ok p, log) ∧
    load sharedLibrary.sources ["lib", "app", "lib"] = (.ok p', log') ∧
    p.packages.keys = ["lib", "app"] ∧ p.failures.keys = ["gone"] ∧
    p'.packages.get? "app" = p.packages.get? "app" ∧ p'.failures.contains "gone" = true := by
  obtain ⟨p, log, hload, hpackages, hfailures, hgone⟩ := exists_load (P := fun p =>
    p.packages.keys = ["lib", "app"] ∧ p.failures.keys = ["gone"] ∧
      p.failures.contains "gone" = true)
    (show (load sharedLibrary.sources ["app", "lib"]).1.toOption.any _ = true by decide +kernel)
  obtain ⟨p', log', hload', -⟩ := exists_load (P := fun _ => True)
    (show (load sharedLibrary.sources ["lib", "app", "lib"]).1.toOption.any _ = true by
      decide +kernel)
  have hacyclic : ∀ path, ¬ Relation.TransGen sharedLibrary.Links path path :=
    SourceTable.acyclic_of_rank (fun path => if path = "app" then 1 else 0) (by decide +kernel)
  have hsame (path : String) :
      path ∈ ["lib", "app", "lib"].map sharedLibrary.importPath ↔
        path ∈ ["app", "lib"].map sharedLibrary.importPath := by
    rw [show ["lib", "app", "lib"].map sharedLibrary.importPath = ["lib", "app", "lib"] by
      decide +kernel, show ["app", "lib"].map sharedLibrary.importPath = ["app", "lib"] by
      decide +kernel]
    simp only [mem_cons, not_mem_nil, or_false]
    tauto
  have hrequests := load_requests hacyclic hsame hload hload'
  exact ⟨p, p', log, log', hload, hload', hpackages, hfailures, (hrequests "app").1,
    (hrequests "gone").2.trans hgone⟩

end DeclBridge
