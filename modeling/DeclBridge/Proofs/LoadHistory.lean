import DeclBridge.Proofs.DeclarationOrder
import DeclBridge.Proofs.Loading
import Mathlib.Algebra.Order.BigOperators.Group.List
import Mathlib.Algebra.Order.Group.Nat
import Mathlib.Data.List.Chain
import Mathlib.Data.List.Perm.Subperm

/-!
# The course of a load

Loading a table of sources is a sequence of turns, one for each package that is tried.  In its turn
a package is either resolved from its files, when all that it imports has had its turn, or recorded
as missing with a reason (`Loading.Outcome`).  A program that was loaded therefore has a `History`,
and what holds of it is proved along the history, without looking at the loader again.

## Shape of the argument

`Loading.Course` is the invariant of the loader: the program has a history, the packages that are
being loaded form a chain of imports without repetition, and none of them has been tried.  From it
follow, step by step, that files are asked for once and that an import cycle is reported only where
the sources have one.  The invariant is carried through `loadImport`, `loadFresh` and `load`.

The depth is enough: the packages that are being loaded at one time are distinct, and all but the
last have a file with an import, so there are no more of them than the sources have characters
(`SourceTable.Nests.length_le`).
-/

namespace DeclBridge

open Outline List Loading Program Table

variable {a b q : String} {l : Loader} {package : Package} {patterns stack : List String}
  {p : Program} {path : String} {files : List SourceFile} {t : SourceTable}

namespace SourceTable

variable {files' : List SourceFile}

/-! ## The depth of imports -/

/-- A package of which some file has an import. -/
def Imports (t : SourceTable) (path : String) : Prop :=
  ∃ texts files, t.read path = .ok texts ∧ parseFiles path texts = .ok files ∧
    importsOf files ≠ []

/-- Packages that may be in the course of being loaded, each for the sake of the next. -/
structure Nests (t : SourceTable) (stack : List String) : Prop where
  nodup : stack.Nodup
  imports : ∀ path ∈ stack, t.Imports path

theorem length_pos_of_parse {text : String} {file : Option String} {f : SourceFile}
    (h : SourceFile.parse text file = .ok f) : 0 < text.length := by
  rw [Nat.pos_iff_ne_zero]
  intro hlength
  rw [String.length_eq_zero_iff] at hlength
  subst hlength
  cases h

theorem mem_of_read {texts : SourceList} (h : t.read path = .ok texts) {file : String × String}
    (hfile : file ∈ texts) :
    ∃ files, (path, files) ∈ t.packages.entries ∧ file.2 ∈ files.values := by
  rw [read] at h
  split at h
  · cases h
  · cases h
  · rename_i files _ hfiles
    cases h
    refine ⟨files, mem_entries_of_get? hfiles, mem_map_of_mem ?_⟩
    exact mem_of_mem_filter (mem_mergeSort.1 hfile)

/-- The characters of a package's files. -/
def weight (files : Table String String) : Nat := (files.values.map String.length).sum

theorem size_eq (t : SourceTable) :
    t.sources.size = (t.packages.entries.map fun e => weight e.2).sum := by
  have hfold (texts : List String) (n : Nat) :
      texts.foldl (fun size text => size + text.length) n = n + (texts.map String.length).sum := by
    induction texts generalizing n with
    | nil => rfl
    | cons text texts ih =>
      rw [foldl_cons, ih, map_cons, sum_cons, Nat.add_assoc]
  show foldl _ 0 _ = _
  rw [hfold, Nat.zero_add, values]
  induction t.packages.entries with
  | nil => rfl
  | cons e entries ih =>
    rw [map_cons, flatMap_cons, map_append, sum_append, ih, map_cons,
      sum_cons, weight]

theorem weight_pos_of_imports (h : t.Imports path) :
    ∃ files, (path, files) ∈ t.packages.entries ∧ 0 < weight files := by
  obtain ⟨texts, files, hread, hparse, himports⟩ := h
  cases texts with
  | nil =>
    cases hparse
    exact absurd rfl himports
  | cons file texts =>
    -- the first file is read, so it has a character
    obtain ⟨files, hmem, hvalue⟩ := mem_of_read hread mem_cons_self
    refine ⟨files, hmem, ?_⟩
    have hpos : 0 < file.2.length := by
      rw [parseFiles, mapM_cons] at hparse
      cases hfile : SourceFile.parse file.2 (some file.1) with
      | error e =>
        dsimp only at hparse
        rw [hfile] at hparse
        cases hparse
      | ok f => exact length_pos_of_parse hfile
    exact Nat.lt_of_lt_of_le hpos (le_sum_of_mem (mem_map_of_mem hvalue))

/-- There are no more packages with imports than characters in the sources. -/
theorem Nests.length_le (h : t.Nests stack) : stack.length ≤ t.sources.size := by
  have hsubset : stack ⊆ (t.packages.entries.filter fun e => 0 < weight e.2).map (·.1) := by
    intro path hpath
    obtain ⟨files, hmem, hpos⟩ := weight_pos_of_imports (h.imports path hpath)
    exact mem_map.2 ⟨_, mem_filter.2 ⟨hmem, decide_eq_true hpos⟩, rfl⟩
  have hcount (entries : List (String × Table String String)) :
      (entries.filter fun e => 0 < weight e.2).length ≤ (entries.map fun e => weight e.2).sum := by
    induction entries with
    | nil => exact Nat.le_refl 0
    | cons e entries ih =>
      rw [map_cons, sum_cons, filter_cons]
      split
      · rename_i hpos
        have := of_decide_eq_true hpos
        rw [length_cons]
        omega
      · omega
  calc stack.length
      ≤ ((t.packages.entries.filter fun e => 0 < weight e.2).map (·.1)).length :=
        (h.nodup.subperm hsubset).length_le
    _ = (t.packages.entries.filter fun e => 0 < weight e.2).length := length_map _
    _ ≤ t.sources.size := by
        rw [size_eq]
        exact hcount t.packages.entries

/-- There is nothing to log about the files of a table, and no fault in looking them up. -/
theorem sources_read (t : SourceTable) (path : String) :
    (∃ texts, t.read path = .ok texts ∧ t.sources.read path = .ok (texts, [])) ∨
      ∃ why, t.read path = .error (.error why) ∧ t.sources.read path = .error (.error why) := by
  have hsources : t.sources.read path = (t.read path).map (·, []) := rfl
  rw [hsources, read]
  split
  · exact .inr ⟨_, rfl, rfl⟩
  · exact .inr ⟨_, rfl, rfl⟩
  · exact .inl ⟨_, rfl, rfl⟩

/-- A package with a file whose text ends in a fault. -/
def Unreadable (t : SourceTable) (path : String) (f : Fault) : Prop :=
  ∃ texts, t.read path = .ok texts ∧ parseFiles path texts = .error (.fault f)

/-! ## Imports -/

/-- The files that a package is made of, where they are read and agree on its name. -/
def Files (t : SourceTable) (path : String) (files : List SourceFile) : Prop :=
  ∃ texts, t.read path = .ok texts ∧ parseFiles path texts = .ok files ∧
    checkNames path files = .ok ()

/-- The files of a package import another. -/
def Links (t : SourceTable) (a b : String) : Prop :=
  ∃ files, t.Files a files ∧ b ∈ importsOf files

theorem Files.unique (h : t.Files path files) (h' : t.Files path files') : files = files' := by
  obtain ⟨texts, hread, hparse, -⟩ := h
  obtain ⟨texts', hread', hparse', -⟩ := h'
  cases hread.symm.trans hread'
  rw [hparse] at hparse'
  exact Except.ok.inj hparse'

theorem Links.imports (h : t.Links a b) : t.Imports a := by
  obtain ⟨files, ⟨texts, hread, hparse, -⟩, hmem⟩ := h
  exact ⟨texts, files, hread, hparse, ne_nil_of_mem hmem⟩

/-- Packages each of which imports the next, without repetition. -/
structure Descends (t : SourceTable) (stack : List String) : Prop where
  nodup : stack.Nodup
  chain : stack.IsChain t.Links

theorem Descends.singleton (t : SourceTable) (path : String) : t.Descends [path] :=
  ⟨nodup_singleton path, .singleton path⟩

/-- All packages on a stack but the last import something. -/
theorem Descends.nests (h : t.Descends (stack ++ [path])) :
    t.Nests stack where
  nodup := h.nodup.of_append_left
  imports q hq := by
    obtain ⟨before, after, rfl⟩ := append_of_mem hq
    have hchain := h.chain
    rw [append_assoc, cons_append] at hchain
    obtain ⟨next, rest, hrest⟩ := exists_cons_of_ne_nil (l := after ++ [path]) (by simp)
    rw [hrest] at hchain
    exact Links.imports (isChain_append_cons_cons.1 hchain).2.1

theorem Descends.push (h : t.Descends (stack ++ [path]))
    (hlink : t.Links path q) (hfree : q ∉ stack ++ [path]) :
    t.Descends ((stack ++ [path]) ++ [q]) where
  nodup := h.nodup.append (nodup_singleton q) (by simpa using hfree)
  chain := by
    refine isChain_append.2 ⟨h.chain, .singleton q, ?_⟩
    intro last hlast first hfirst
    rw [getLast?_append_of_ne_nil _ (by simp), getLast?_singleton] at hlast
    cases hlast
    cases hfirst
    exact hlink

theorem Descends.cyclic (h : t.Descends (stack ++ [path]))
    (hlink : t.Links path q) (hmem : q ∈ stack ++ [path]) : Relation.TransGen t.Links path path := by
  obtain ⟨before, after, hsplit⟩ := append_of_mem hmem
  have hchain : (q :: after).IsChain t.Links := by
    have := h.chain
    rw [hsplit] at this
    exact (isChain_append.1 this).2.1
  have hlast : path = (q :: after).getLast (cons_ne_nil _ _) := by
    have := congrArg getLast? hsplit
    rw [getLast?_append_of_ne_nil _ (cons_ne_nil _ _),
      getLast?_append_of_ne_nil _ (cons_ne_nil _ _), getLast?_singleton,
      getLast?_eq_getLast_of_ne_nil (cons_ne_nil _ _)] at this
    exact Option.some.inj this
  have hreach : Relation.ReflTransGen t.Links q path := by
    rw [hlast]
    exact relationReflTransGen_of_exists_isChain_cons after hchain rfl
  exact Relation.TransGen.head' hlink hreach

end SourceTable

/-! ## Histories -/

namespace Program

def outcome? (p : Program) (path : String) : Option (Except LoadError Package) :=
  match p.packages.get? path with
  | some package => some (.ok package)
  | none => (p.failures.get? path).map .error

def record (p : Program) (path : String) : Except LoadError Package → Program
  | .ok package => { p with packages := p.packages.insert path package }
  | .error why => { p with failures := p.failures.insert path why }

theorem outcome?_eq_ok_iff :
    p.outcome? path = some (.ok package) ↔ p.packages.get? path = some package := by
  rw [outcome?]
  cases p.packages.get? path with
  | some found => simp
  | none => cases p.failures.get? path <;> simp

theorem outcome?_eq_error_iff {why : LoadError} : p.outcome? path = some (.error why) ↔
      p.packages.get? path = none ∧ p.failures.get? path = some why := by
  rw [outcome?]
  cases p.packages.get? path with
  | some found => simp
  | none => cases p.failures.get? path <;> simp

theorem outcome?_eq_none_iff :
    p.outcome? path = none ↔ p.packages.get? path = none ∧ p.failures.get? path = none := by
  rw [outcome?]
  cases p.packages.get? path with
  | some found => simp
  | none => simp

/-- A package that was not tried before has the outcome that is recorded for it, and all others keep
theirs. -/
theorem outcome?_record (hfresh : p.outcome? path = none)
    (r : Except LoadError Package) (q : String) :
    (p.record path r).outcome? q = if path = q then some r else p.outcome? q := by
  obtain ⟨hpackage, -⟩ := outcome?_eq_none_iff.1 hfresh
  cases r with
  | ok package =>
    rw [record, outcome?, outcome?, get?_insert]
    by_cases hq : path = q
    · rw [if_pos hq, if_pos hq]
    · rw [if_neg hq, if_neg hq]
  | error why =>
    rw [record, outcome?, outcome?, get?_insert]
    by_cases hq : path = q
    · rw [← hq, hpackage, if_pos rfl, if_pos rfl, Option.map_some]
    · rw [if_neg hq, if_neg hq]

end Program

namespace Loading

variable {tried tried' : List String} {p p' : Program} {r : Except LoadError Package}

/-- What becomes of a package in its turn, when the packages of `tried` have had theirs and `p` is
what there is. -/
inductive Outcome (t : SourceTable) (tried : List String) (p : Program) (path : String) :
    Except LoadError Package → Prop
  | loaded {files : List SourceFile} {package : Package} : t.Files path files →
      (∀ i ∈ importsOf files, i ∈ tried) →
      (ofFiles p path files).resolve p = .ok package → Outcome t tried p path (.ok package)
  | missing {why : LoadError} : t.read path = .error (.error why) →
      Outcome t tried p path (.error why)
  | unreadable {texts : SourceList} {why : LoadError} : t.read path = .ok texts →
      parseFiles path texts = .error (.error why) → Outcome t tried p path (.error why)
  | mixed {texts : SourceList} {files : List SourceFile} {why : LoadError} :
      t.read path = .ok texts → parseFiles path texts = .ok files →
      checkNames path files = .error (.error why) → Outcome t tried p path (.error why)
  | cyclic {why : LoadError} : Relation.TransGen t.Links path path → why.diagnostics = [] →
      Outcome t tried p path (.error why)
  | unresolved {files : List SourceFile} {why : LoadError} : t.Files path files →
      (∀ i ∈ importsOf files, i ∈ tried) →
      (ofFiles p path files).resolve p = .error (.error why) →
      Outcome t tried p path (.error why)

/-- The packages that were tried, in order, and the program that came of it. -/
inductive History (t : SourceTable) : List String → Program → Prop
  | start : History t [] {}
  | turn {tried : List String} {p : Program} {path : String} {r : Except LoadError Package} :
      History t tried p → path ∉ tried → Outcome t tried p path r →
      History t (tried ++ [path]) (p.record path r)

theorem mem_imports_of_resolve (h : (ofFiles p path files).resolve p = .ok package) :
    q ∈ package.imports ↔ q ∈ importsOf files := by
  obtain ⟨S, -, -, rfl⟩ := resolveWithin_iff.1 h
  rw [show q ∈ _ ↔ _ from mem_imports_ofFiles, mem_importsOf]
  simp

namespace History

section

variable (h : History t tried p)

include h

theorem mem_iff (q : String) : q ∈ tried ↔ (p.outcome? q).isSome := by
  induction h generalizing q with
  | start => simp [outcome?]
  | @turn tried p path r _ hfresh _ ih =>
    have hnone : p.outcome? path = none := by
      rw [← Option.not_isSome_iff_eq_none, ← ih]
      exact hfresh
    rw [outcome?_record hnone, mem_append, mem_singleton]
    by_cases hq : path = q
    · simp [hq]
    · rw [if_neg hq, ih]
      simp [Ne.symm hq]

theorem outcome?_eq_none (hq : q ∉ tried) : p.outcome? q = none := by
  rw [← Option.not_isSome_iff_eq_none, ← h.mem_iff]
  exact hq

theorem nodup : tried.Nodup := by
  induction h with
  | start => exact nodup_nil
  | turn _ hfresh _ ih => exact ih.append (nodup_singleton _) (by simpa using hfresh)

/-- Every outcome was settled in a turn, and what came before that turn has stayed as it was. -/
theorem exists_turn (hr : p.outcome? path = some r) :
    ∃ before p₁, History t before p₁ ∧ path ∉ before ∧ Outcome t before p₁ path r ∧
      before ++ [path] <+: tried ∧ ∀ q ∈ before, p.outcome? q = p₁.outcome? q := by
  induction h with
  | start => simp [outcome?] at hr
  | @turn tried p last r' hhistory hfresh houtcome ih =>
    have hnone := hhistory.outcome?_eq_none hfresh
    have hkept (q : String) (hq : q ∈ tried) : (p.record last r').outcome? q = p.outcome? q := by
      have hne : last ≠ q := fun heq => hfresh (heq ▸ hq)
      rw [outcome?_record hnone, if_neg hne]
    rw [outcome?_record hnone] at hr
    by_cases hlast : last = path
    · subst hlast
      rw [if_pos rfl] at hr
      cases hr
      exact ⟨tried, p, hhistory, hfresh, houtcome, prefix_rfl, hkept⟩
    · rw [if_neg hlast] at hr
      obtain ⟨before, p₁, hbefore, hpath, hturn, hpre, hsame⟩ := ih hr
      refine ⟨before, p₁, hbefore, hpath, hturn, hpre.trans (prefix_append _ _), ?_⟩
      intro q hq
      rw [hkept q (hpre.subset (mem_append_left _ hq)), hsame q hq]

theorem disjoint (hq : p.packages.contains q = true) : p.failures.contains q = false := by
  induction h with
  | start => cases hq
  | @turn tried p path r hhistory hfresh _ ih =>
    obtain ⟨hpackage, hfailure⟩ :=
      outcome?_eq_none_iff.1 (hhistory.outcome?_eq_none hfresh)
    cases r with
    | ok package =>
      rcases (contains_insert _ _ _ q).1 hq with hq | rfl
      · exact ih hq
      · rw [Program.record, Table.contains, hfailure]
        rfl
    | error why =>
      have hne : path ≠ q := by
        rintro rfl
        rw [Program.record, Table.contains, hpackage] at hq
        cases hq
      rw [Program.record, Table.contains, Table.get?_insert_of_ne _ _ hne]
      exact ih hq

theorem mem_tried_iff :
    q ∈ tried ↔ p.packages.contains q = true ∨ p.failures.contains q = true := by
  rw [h.mem_iff, Program.outcome?, Table.contains, Table.contains]
  cases p.packages.get? q <;> simp

theorem keys_eq : p.packages.keys = tried.filter p.packages.contains ∧
      p.failures.keys = tried.filter p.failures.contains := by
  induction h with
  | start => exact ⟨rfl, rfl⟩
  | @turn tried p path r hhistory hfresh _ ih =>
    obtain ⟨hpackage, hfailure⟩ :=
      outcome?_eq_none_iff.1 (hhistory.outcome?_eq_none hfresh)
    -- a table that gets the package at its end, and one that does not get it
    have hwith {α : Type} {table : Table String α} (v : α) (hnone : table.get? path = none)
        (hkeys : table.keys = tried.filter table.contains) :
        (table.insert path v).keys = (tried ++ [path]).filter (table.insert path v).contains := by
      have hnew : path ∉ table.keys := by
        rw [Table.mem_keys_iff, Table.contains, hnone]
        simp
      have hself : (table.insert path v).contains path = true :=
        (contains_insert _ _ _ _).2 (.inr rfl)
      have hsame : tried.filter (table.insert path v).contains = tried.filter table.contains := by
        refine filter_congr fun q hq => ?_
        have hne : path ≠ q := fun heq => hfresh (heq ▸ hq)
        rw [Table.contains, Table.contains, Table.get?_insert_of_ne _ _ hne]
      rw [keys_insert, if_neg hnew, filter_append, hsame, hkeys,
        filter_singleton, hself]
      rfl
    have hwithout {α : Type} {table : Table String α} (hnone : table.get? path = none)
        (hkeys : table.keys = tried.filter table.contains) :
        table.keys = (tried ++ [path]).filter table.contains := by
      rw [filter_append, filter_singleton, ← hkeys, Table.contains, hnone]
      simp
    cases r with
    | ok package => exact ⟨hwith package hpackage ih.1, hwithout hfailure ih.2⟩
    | error why => exact ⟨hwithout hpackage ih.1, hwith why hfailure ih.2⟩

/-- What a package imports had its turn before the package. -/
theorem imports_before
    (hpackage : p.packages.get? path = some package) {i : String} (hi : i ∈ package.imports) :
    [i, path].Sublist tried := by
  obtain ⟨before, p₁, -, -, hturn, hpre, -⟩ := h.exists_turn (outcome?_eq_ok_iff.2 hpackage)
  cases hturn with
  | loaded _ himports hresolve =>
    have hmem : i ∈ before := himports i ((mem_imports_of_resolve hresolve).1 hi)
    exact ((singleton_sublist.2 hmem).append (List.Sublist.refl [path])).trans hpre.sublist

theorem idxOf_lt (himport : Relation.TransGen p.Imports a b) : tried.idxOf b < tried.idxOf a := by
  have hstep {a b : String} (himport : p.Imports a b) : tried.idxOf b < tried.idxOf a := by
    rw [Program.Imports, Program.importsOf] at himport
    cases hpackage : p.packages.get? a with
    | none =>
      rw [hpackage] at himport
      cases himport
    | some package =>
      rw [hpackage] at himport
      obtain ⟨before, after, rfl, hb, ha⟩ :=
        cons_sublist_iff.1 (h.imports_before hpackage himport)
      have hnot : a ∉ before := fun hmem =>
        (nodup_append.1 h.nodup).2.2 a hmem a (singleton_sublist.1 ha) rfl
      rw [idxOf_append_of_mem hb, idxOf_append_of_notMem hnot]
      have := idxOf_lt_length_of_mem hb
      omega
  induction himport with
  | single himport => exact hstep himport
  | tail _ himport ih => exact (hstep himport).trans ih

end

end History

/-! ## The invariant of loading -/

variable {wanted : String → Prop} {done : List String} {load' : String → Loading Unit}

/-- The loader while the packages on `stack` are being loaded.  Those of `done` have been tried, and
all that was tried is wanted. -/
structure Course (t : SourceTable) (wanted : String → Prop) (done stack : List String) (l : Loader) :
    Prop where
  loading : l.loading = stack
  history : History t l.trace.tried l.program
  done_tried : ∀ q ∈ done, q ∈ l.trace.tried
  fresh : ∀ q ∈ stack, q ∉ l.trace.tried
  tried_wanted : ∀ q ∈ l.trace.tried, wanted q
  asked : l.trace.asked.Nodup
  asked_tried : ∀ q ∈ l.trace.asked, q ∈ l.trace.tried ∨ q ∈ stack
  nestings : ∀ s ∈ l.trace.nestings, s.Nodup

/-- A package that is wanted and ends a load with a fault: a file of it ends in one, or its
resolution does in its turn. -/
def Broken (t : SourceTable) (wanted : String → Prop) (f : Fault) : Prop :=
  ∃ path, wanted path ∧ (t.Unreadable path f ∨ ∃ files tried p, t.Files path files ∧
    History t tried p ∧ path ∉ tried ∧ (∀ q ∈ tried, wanted q) ∧ (∀ i ∈ importsOf files, i ∈ tried) ∧
    (ofFiles p path files).resolve p = .error (.fault f))

/-- How a computation fails: with an error that leaves things as `I` says, or with the fault of a
package. -/
def Ending (t : SourceTable) (wanted : String → Prop) (I : LoadError → Loader → Prop) :
    LoadFailure → Loader → Prop
  | .error why, l => I why l
  | .fault f, _ => Broken t wanted f

/-- `x` tries a package. -/
abbrev Settles (t : SourceTable) (wanted : String → Prop) (done stack : List String) (path : String)
    (x : Loading Unit) : Prop :=
  Triple (Course t wanted done stack) x (fun _ => Course t wanted (path :: done) stack)
    (Ending t wanted fun _ => Course t wanted (path :: done) stack)

theorem Course.weaken {done' : List String} (h : Course t wanted done stack l)
    (hsub : ∀ q ∈ done', q ∈ done) : Course t wanted done' stack l :=
  { h with done_tried := fun q hq => h.done_tried q (hsub q hq) }

theorem say_course (lines : List LogLine) {F : LoadFailure → Loader → Prop} :
    Triple (Course t wanted done stack) (say lines) (fun _ => Course t wanted done stack) F :=
  .update fun _ h => ⟨h.loading, h.history, h.done_tried, h.fresh, h.tried_wanted, h.asked,
    h.asked_tried, h.nestings⟩

theorem Course.enter (h : Course t wanted done stack l)
    (hstack : (stack ++ [path]).Nodup) (hfresh : path ∉ l.trace.tried) :
    Course t wanted done (stack ++ [path]) { l with
      loading := l.loading ++ [path]
      trace.nestings := l.trace.nestings ++ [l.loading ++ [path]] } where
  loading := congrArg (· ++ [path]) h.loading
  history := h.history
  done_tried := h.done_tried
  fresh q hq := by
    rcases mem_append.1 hq with hq | hq
    · exact h.fresh q hq
    · rw [mem_singleton.1 hq]
      exact hfresh
  tried_wanted := h.tried_wanted
  asked := h.asked
  asked_tried q hq := (h.asked_tried q hq).imp_right (mem_append_left _)
  nestings s hs := by
    rcases mem_append.1 hs with hs | hs
    · exact h.nestings s hs
    · rw [mem_singleton.1 hs, h.loading]
      exact hstack

/-- The turn of the package that is being loaded: its outcome is recorded, and it is no longer being
loaded. -/
theorem Course.turn {l' : Loader} (h : Course t wanted done (stack ++ [path]) l)
    (hstack : (stack ++ [path]).Nodup) (hwanted : wanted path)
    (houtcome : Outcome t l.trace.tried l.program path r)
    (hloading : l'.loading = l.loading.dropLast) (hprogram : l'.program = l.program.record path r)
    (htried : l'.trace.tried = l.trace.tried ++ [path]) (hasked : l'.trace.asked = l.trace.asked)
    (hnestings : l'.trace.nestings = l.trace.nestings ++ [l.loading.dropLast]) :
    Course t wanted (path :: done) stack l' := by
  obtain ⟨hnodup, -, hdisjoint⟩ := nodup_append.1 hstack
  -- the package is the last one on the stack, so it is the one that is taken off
  have hleft : l.loading.dropLast = stack := by rw [h.loading, dropLast_concat]
  rw [hleft] at hloading hnestings
  refine ⟨hloading, ?_, ?_, ?_, ?_, hasked ▸ h.asked, ?_, ?_⟩
  · rw [htried, hprogram]
    exact .turn h.history (h.fresh path mem_concat_self) houtcome
  · rw [htried]
    intro q hq
    rcases mem_cons.1 hq with rfl | hq
    · exact mem_concat_self
    · exact mem_append_left _ (h.done_tried q hq)
  · rw [htried]
    intro q hq hmem
    rcases mem_append.1 hmem with hmem | hmem
    · exact h.fresh q (mem_append_left _ hq) hmem
    · exact hdisjoint q hq path mem_cons_self (mem_singleton.1 hmem)
  · rw [htried]
    intro q hq
    rcases mem_append.1 hq with hq | hq
    · exact h.tried_wanted q hq
    · rw [mem_singleton.1 hq]
      exact hwanted
  · rw [hasked, htried]
    intro q hq
    rcases h.asked_tried q hq with hq | hq
    · exact .inl (mem_append_left _ hq)
    · exact (mem_append.1 hq).symm.imp_left (mem_append_right _)
  · rw [hnestings]
    intro s hs
    rcases mem_append.1 hs with hs | hs
    · exact h.nestings s hs
    · rw [mem_singleton.1 hs]
      exact hnodup

/-! ## Loading -/

/-- An import is tried, or it closes a cycle. -/
theorem loadImport_course {dependency : String} (hstack : t.Descends (stack ++ [path]))
    (hlink : t.Links path dependency) (hload : dependency ∉ stack ++ [path] →
      Settles t wanted done (stack ++ [path]) dependency (load' dependency)) :
    Triple (Course t wanted done (stack ++ [path])) (loadImport load' path dependency)
      (fun _ => Course t wanted (dependency :: done) (stack ++ [path]))
      (Ending t wanted fun why l => Course t wanted done (stack ++ [path]) l ∧
        Outcome t l.trace.tried l.program path (.error why)) := by
  rw [loadImport]
  refine .get_bind fun l hl => ?_
  dsimp only
  split
  · rename_i hmem
    rw [hl.loading] at hmem
    refine .bind (Q := fun _ _ => False) (.throw ?_) fun _ => fun _ h => h.elim
    rintro _ rfl
    exact ⟨hl, .cyclic (hstack.cyclic hlink hmem) rfl⟩
  · rename_i hfree
    rw [hl.loading] at hfree
    refine .tryCatch ((hload hfree).start hl) fun failure => ?_
    cases failure with
    | error why => exact say_course _
    | fault f => exact .throw fun _ h => h

theorem forM_loadImport_course {dependencies : List String} (hstack : t.Descends (stack ++ [path]))
    (hlinks : ∀ d ∈ dependencies, t.Links path d)
    (hload : ∀ done d, t.Links path d → d ∉ stack ++ [path] →
      Settles t wanted done (stack ++ [path]) d (load' d)) :
    Triple (Course t wanted done (stack ++ [path])) (dependencies.forM (loadImport load' path))
      (fun _ => Course t wanted (dependencies ++ done) (stack ++ [path]))
      (Ending t wanted fun why l => Course t wanted done (stack ++ [path]) l ∧
        Outcome t l.trace.tried l.program path (.error why)) := by
  induction dependencies generalizing done with
  | nil => exact .pure fun _ h => h
  | cons d dependencies ih =>
    obtain ⟨hd, hrest⟩ := forall_mem_cons.1 hlinks
    refine .bind (loadImport_course hstack hd (hload done d hd)) fun _ => ?_
    refine (ih hrest).weaken (fun _ h => h) (fun _ l h => h.weaken ?_) fun failure l h => ?_
    · intro q hq
      simp only [cons_append, mem_cons, mem_append] at hq ⊢
      tauto
    · cases failure with
      | error why => exact ⟨h.1.weaken fun q hq => mem_cons_of_mem _ hq, h.2⟩
      | fault f => exact h

/-- A package that has not been asked for is read, and resolved when its imports have been tried. -/
theorem loadFresh_course (hwanted : wanted path) (hstack : t.Descends (stack ++ [path]))
    (hload : ∀ done d, t.Links path d → d ∉ stack ++ [path] →
      Settles t wanted done (stack ++ [path]) d (load' d)) :
    Triple (fun l => Course t wanted done (stack ++ [path]) l ∧ path ∉ l.trace.asked)
      (loadFresh t.sources load' path) (fun package l => Course t wanted done (stack ++ [path]) l ∧
        Outcome t l.trace.tried l.program path (.ok package))
      (Ending t wanted fun why l => Course t wanted done (stack ++ [path]) l ∧
        Outcome t l.trace.tried l.program path (.error why)) := by
  have hask (l : Loader)
      (h : Course t wanted done (stack ++ [path]) l ∧ path ∉ l.trace.asked) :
      Course t wanted done (stack ++ [path])
        { l with trace.asked := l.trace.asked ++ [path] } := by
    obtain ⟨h, hnew⟩ := h
    refine ⟨h.loading, h.history, h.done_tried, h.fresh, h.tried_wanted, ?_, fun q hq => ?_,
      h.nestings⟩
    · exact h.asked.append (nodup_singleton _) (by simpa using hnew)
    · rcases mem_append.1 hq with hq | hq
      · exact h.asked_tried q hq
      · rw [mem_singleton.1 hq]
        exact .inr mem_concat_self
  rw [loadFresh]
  obtain ⟨texts, hread, hsources⟩ | ⟨why, hread, hsources⟩ := t.sources_read path
  · refine ask_bind hask (fun found hfound => ?_) fun _ h => by
      cases hsources.symm.trans h
    cases hsources.symm.trans hfound
    refine .bind (say_course _) fun _ => ?_
    refine .result_bind (fun files hparse => ?_) fun failure hparse l hl => ?_
    · refine .result_bind (fun _ hnames => ?_) fun failure hnames l hl => ?_
      · have hfiles : t.Files path files := ⟨texts, hread, hparse, hnames⟩
        refine .bind (forM_loadImport_course hstack
          (fun d hd => ⟨files, hfiles, hd⟩) hload) fun _ => ?_
        refine .get_bind fun l hl => ?_
        have himports (i : String) (hi : i ∈ importsOf files) : i ∈ l.trace.tried :=
          hl.done_tried i (mem_append_left _ hi)
        have hcourse : Course t wanted done (stack ++ [path]) l :=
          hl.weaken fun q hq => mem_append_right _ hq
        refine .result (fun package hpackage => ?_) fun failure hfailure => ?_
        · rintro l rfl
          exact ⟨hcourse, .loaded hfiles himports hpackage⟩
        · rintro l rfl
          cases failure with
          | error why => exact ⟨hcourse, .unresolved hfiles himports hfailure⟩
          | fault f =>
            exact ⟨path, hwanted, .inr ⟨files, l.trace.tried, l.program, hfiles, hl.history,
              hl.fresh path mem_concat_self, hl.tried_wanted, himports,
              hfailure⟩⟩
      · cases failure with
        | error why => exact ⟨hl, .mixed hread hparse hnames⟩
        | fault f =>
          rw [checkNames] at hnames
          split at hnames <;> cases hnames
    · cases failure with
      | error why => exact ⟨hl, .unreadable hread hparse⟩
      | fault f => exact ⟨path, hwanted, .inl ⟨texts, hread, hparse⟩⟩
  · refine ask_bind hask (fun _ h => by cases hsources.symm.trans h)
      fun failure hfailure l hl => ?_
    cases hsources.symm.trans hfailure
    exact ⟨hl, .missing hread⟩

/-- A package is tried when it is loaded, and its turn comes only once. -/
theorem load_course (hclosed : ∀ a b, wanted a → t.Links a b → wanted b) (count : Nat)
    (hwanted : wanted path) (hstack : t.Descends (stack ++ [path]))
    (hdepth : t.sources.size < stack.length + count) :
    Settles t wanted done stack path (load t.sources count path) := by
  induction count generalizing done stack path with
  | zero => exact absurd hstack.nests.length_le (Nat.not_le.2 hdepth)
  | succ count ih =>
    rw [load]
    refine .get_bind fun l₀ hl => ?_
    have htried (hsome : (l₀.program.outcome? path).isSome) :
        Course t wanted (path :: done) stack l₀ :=
      { hl with done_tried :=
          forall_mem_cons.2 ⟨(hl.history.mem_iff path).2 hsome, hl.done_tried⟩ }
    split
    · rename_i hloaded
      obtain ⟨package, hpackage⟩ := contains_iff.1 hloaded
      refine .pure fun _ h => h ▸ htried ?_
      rw [outcome?_eq_ok_iff.2 hpackage]
      rfl
    · rename_i hloaded
      have hpackage : l₀.program.packages.get? path = none := by
        simpa [Table.contains] using hloaded
      split
      · rename_i why hmissing
        refine .throw fun _ h => h ▸ htried ?_
        rw [outcome?, hpackage, hmissing]
        rfl
      · rename_i hmissing
        have hfresh : path ∉ l₀.trace.tried := by
          rw [hl.history.mem_iff, outcome?_eq_none_iff.2 ⟨hpackage, hmissing⟩]
          simp
        have hnew : path ∉ l₀.trace.asked := by
          intro hmem
          rcases hl.asked_tried path hmem with hmem | hmem
          · exact hfresh hmem
          · exact (nodup_append.1 hstack.nodup).2.2 path hmem path mem_cons_self rfl
        have hnested (done' : List String) (d : String) (hlink : t.Links path d)
            (hd : d ∉ stack ++ [path]) :
            Settles t wanted done' (stack ++ [path]) d (load t.sources count d) := by
          refine ih (hclosed path d hwanted hlink) (hstack.push hlink hd) ?_
          rw [length_append, length_singleton]
          omega
        refine .bind (Q := fun _ l => Course t wanted done (stack ++ [path]) l ∧
          path ∉ l.trace.asked) (.update ?_) fun _ => ?_
        · rintro _ rfl
          exact ⟨hl.enter hstack.nodup hfresh, hnew⟩
        refine .bind (.tryCatch (loadFresh_course hwanted hstack hnested)
          fun failure => ?_) fun package => .assume fun l₁ hl₁ => ?_
        · cases failure with
          | error why =>
            refine .assume fun l₁ hl₁ => ?_
            refine .update_bind (.bind (Q := fun _ => Course t wanted (path :: done) stack)
              (.update ?_) fun _ => .throw fun _ h => h)
            rintro _ rfl
            exact hl₁.1.turn hstack.nodup hwanted hl₁.2 rfl rfl rfl rfl rfl
          | fault f =>
            exact .bind (Q := fun _ _ => Broken t wanted f) (.update fun _ h => h)
              fun _ => .throw fun _ h => h
        · refine .update_bind ?_
          rw [recordPackage]
          refine .bind (Q := fun _ => Course t wanted (path :: done) stack)
            (.update ?_) fun _ => say_course _
          rintro _ rfl
          exact hl₁.1.turn hstack.nodup hwanted hl₁.2 rfl rfl rfl rfl rfl

/-- What patterns stand for, and what that imports. -/
def Wanted (t : SourceTable) (patterns : List String) (path : String) : Prop :=
  ∃ pattern ∈ patterns, Relation.ReflTransGen t.Links (t.importPath pattern) path

theorem Wanted.link (h : Wanted t patterns a) (hlink : t.Links a b) : Wanted t patterns b := by
  obtain ⟨pattern, hmem, hreach⟩ := h
  exact ⟨pattern, hmem, hreach.tail hlink⟩

theorem loadPattern_course (hclosed : ∀ a b, wanted a → t.Links a b → wanted b) {pattern : String}
    (hwanted : wanted (t.importPath pattern)) :
    Triple (Course t wanted done []) (loadPattern t.sources pattern)
      (fun _ => Course t wanted (t.importPath pattern :: done) [])
      fun failure _ => ∃ f, failure = .fault f ∧ Broken t wanted f := by
  have hpath : t.sources.importPath pattern = .ok (t.importPath pattern) := rfl
  have hdepth : t.sources.size < ([] : List String).length + (t.sources.size + 1) := by
    rw [length_nil]
    omega
  rw [loadPattern, hpath]
  refine .tryCatch (load_course hclosed _ hwanted (.singleton t _) hdepth) fun failure => ?_
  cases failure with
  | error why => exact say_course _
  | fault f => exact .throw fun _ h => ⟨f, rfl, h⟩

theorem forM_loadPattern_course (hclosed : ∀ a b, wanted a → t.Links a b → wanted b)
    (hwanted : ∀ pattern ∈ patterns, wanted (t.importPath pattern)) :
    Triple (Course t wanted done []) (patterns.forM (loadPattern t.sources))
      (fun _ => Course t wanted (patterns.map t.importPath ++ done) [])
      fun failure _ => ∃ f, failure = .fault f ∧ Broken t wanted f := by
  induction patterns generalizing done with
  | nil => exact .pure fun _ h => h
  | cons pattern patterns ih =>
    obtain ⟨hpattern, hrest⟩ := forall_mem_cons.1 hwanted
    refine .bind (loadPattern_course hclosed hpattern) fun _ => ?_
    refine (ih hrest).post (fun _ l h => h.weaken fun q hq => ?_)
    simp only [map_cons, cons_append, mem_cons, mem_append] at hq ⊢
    tauto

theorem start_course : Course t wanted [] [] {} where
  loading := rfl
  history := .start
  done_tried := forall_mem_nil _
  fresh := forall_mem_nil _
  tried_wanted := forall_mem_nil _
  asked := nodup_nil
  asked_tried := forall_mem_nil _
  nestings := forall_mem_nil _

/-- A load comes to an end with a history of all that the patterns stand for, or with the fault of a
package that was wanted. -/
theorem run_course (t : SourceTable) (patterns : List String) :
    ∃ l, ((patterns.forM (loadPattern t.sources)).run.run {} = (.ok (), l) ∧
        Course t (Wanted t patterns) (patterns.map t.importPath) [] l) ∨
      ∃ f, (patterns.forM (loadPattern t.sources)).run.run {} = (.error (.fault f), l) ∧
        Broken t (Wanted t patterns) f := by
  have hspec : Triple (Course t (Wanted t patterns) [] []) (patterns.forM (loadPattern t.sources))
      (fun _ => Course t (Wanted t patterns) (patterns.map t.importPath ++ []) [])
      fun failure _ => ∃ f, failure = .fault f ∧ Broken t (Wanted t patterns) f :=
    forM_loadPattern_course (fun a b ha hlink => ha.link hlink)
      fun pattern hmem => ⟨pattern, hmem, .refl⟩
  rcases hrun : (patterns.forM (loadPattern t.sources)).run.run {} with ⟨failure | ⟨⟩, l⟩
  · obtain ⟨f, rfl, hbroken⟩ := hspec.error start_course hrun
    exact ⟨l, .inr ⟨f, rfl, hbroken⟩⟩
  · have hcourse := hspec.ok start_course hrun
    rw [append_nil] at hcourse
    exact ⟨l, .inl ⟨rfl, hcourse⟩⟩

end Loading

/-- A program that was loaded is what the loader ended with. -/
theorem Program.load_course {log : List LogLine} (h : load t.sources patterns = (.ok p, log)) :
    ∃ l : Loader, (patterns.forM (loadPattern t.sources)).run.run {} = (.ok (), l) ∧
      l.program = p ∧ l.log = log ∧
      Loading.Course t (Loading.Wanted t patterns) (patterns.map t.importPath) [] l := by
  obtain ⟨l, ⟨hrun, hcourse⟩ | ⟨f, hrun, -⟩⟩ := run_course t patterns
  · rw [load, hrun] at h
    cases h
    exact ⟨l, hrun, rfl, rfl, hcourse⟩
  · rw [load, hrun] at h
    cases h

/-- When a load gives a program, the packages that were loaded and those that are missing are apart,
files were asked for at most once for each package, nothing is being loaded any more, and no package
was ever being loaded twice at a time.  All that a package imports was loaded, or recorded as
missing, before the package; so imports among the packages that were loaded lead backwards in their
order, and never round in a cycle. -/
theorem Program.load_once {t : SourceTable} {patterns : List String} {p : Program}
    {log : List LogLine} (h : load t.sources patterns = (.ok p, log)) :
    ∃ l : Loader, (patterns.forM (loadPattern t.sources)).run.run {} = (.ok (), l) ∧
      l.program = p ∧ l.log = log ∧
      (∀ path, ¬ (p.packages.contains path = true ∧ p.failures.contains path = true)) ∧
      l.trace.asked.Nodup ∧ l.loading = [] ∧ (∀ stack ∈ l.trace.nestings, stack.Nodup) ∧
      p.packages.keys = l.trace.tried.filter p.packages.contains ∧
      p.failures.keys = l.trace.tried.filter p.failures.contains ∧
      (∀ path package, p.packages.get? path = some package → ∀ i ∈ package.imports,
        (p.packages.contains i = true ∨ p.failures.contains i = true) ∧
        [i, path].Sublist l.trace.tried ∧
        (p.packages.contains i = true → [i, path].Sublist p.packages.keys)) ∧
      ∀ path, ¬ Relation.TransGen p.Imports path path := by
  obtain ⟨l, hrun, rfl, rfl, hcourse⟩ := load_course h
  have hhistory := hcourse.history
  refine ⟨l, hrun, rfl, rfl, ?_, hcourse.asked, hcourse.loading, hcourse.nestings,
    hhistory.keys_eq.1, hhistory.keys_eq.2, ?_, ?_⟩
  · rintro path ⟨hloaded, hmissing⟩
    rw [hhistory.disjoint hloaded] at hmissing
    cases hmissing
  · intro path package hpackage i hi
    have hbefore := hhistory.imports_before hpackage hi
    have htried : i ∈ l.trace.tried := hbefore.subset mem_cons_self
    refine ⟨hhistory.mem_tried_iff.1 htried, hbefore, fun hi => ?_⟩
    have hfilter := hbefore.filter l.program.packages.contains
    rw [filter_cons_of_pos hi, filter_cons_of_pos (contains_of_get? hpackage),
      filter_nil, ← hhistory.keys_eq.1] at hfilter
    exact hfilter
  · intro path hcycle
    exact lt_irrefl _ (hhistory.idxOf_lt hcycle)

/-- Two packages in memory that import each other. -/
def importCycle : SourceTable where
  packages := ⟨[("a", ⟨[("a.go", "package a\nimport \"b\"\ntype A b.B\n")]⟩),
    ("b", ⟨[("b.go", "package b\nimport \"a\"\ntype B a.A\n")]⟩)]⟩

/-- The package that closes the cycle is missing, and was found to be before the other was loaded.
-/
theorem Program.load_once_importCycle : ∃ p log, load importCycle.sources ["a"] = (.ok p, log) ∧
    p.packages.keys = ["a"] ∧ p.failures.keys = ["b"] ∧
    ∃ l : Loader, l.program = p ∧ l.trace.asked.Nodup ∧ ["b", "a"].Sublist l.trace.tried := by
  obtain ⟨p, log, hload, hpackages, hfailures, package, hpackage, himport⟩ := exists_load (P := fun p =>
    p.packages.keys = ["a"] ∧ p.failures.keys = ["b"] ∧
      ∃ package ∈ p.packages.get? "a", "b" ∈ package.imports)
    (show (load importCycle.sources ["a"]).1.toOption.any _ = true by decide +kernel)
  obtain ⟨l, -, hl, -, -, hasked, -, -, -, -, hbefore, -⟩ := load_once hload
  exact ⟨p, log, hload, hpackages, hfailures, l, hl, hasked,
    (hbefore "a" package hpackage "b" himport).2.1⟩

end DeclBridge
