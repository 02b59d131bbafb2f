import DeclBridge.Proofs.ProblemPlaces

/-!
# How resolution and loading end

The resolution of a package ends with the package, with diagnostics or with a fault, and the limit
on chains of aliases is the cause only where a chain does not end (`Outline.resolveWithin_ends`).

Errors in the sources are recorded, and loading goes on.  What is not recorded is a fault, and it
ends the whole load; so a load gives a program, in which each pattern is loaded or recorded as
missing, unless some package breaks it: its texts spell a value that has no representation, or its
resolution ends in a fault (`SourceTable.Breaks`).  Nothing else ends a load, as its course shows
(`Loading.run_course`); in particular no declaration is ever wanting, since a package that imports
itself is refused before it is resolved.

What is idealised remains an assumption: memory, time and the depth of nested calls are unbounded,
and a source is a sequence of characters, so no surrogate stands alone in it.
-/

namespace DeclBridge

namespace Outline

open Resolving Store

variable {o : Outline} {p : Program} {n : Nat}

/-! ## The end of a resolution -/

/-- How the resolution of a package ends when no limit ends it: with the package, with diagnostics,
with the fault of a value, or for want of a declaration. -/
def Ends (o : Outline) : Except LoadFailure Package → Prop
  | .ok package => package.path = o.path
  | .error (.error why) =>
    why.path = o.path ∧ why.cause = .unresolved ∧ why.diagnostics ≠ []
  | .error (.fault f) => Failure.Ordinary (.fault f)

/-- Only the symbols of the package can exceed the limit. -/
theorem resolveWithin_cases (o : Outline) (p : Program) :
    (∃ r, o.Ends r ∧ ∀ n, o.resolveWithin n p = r) ∨
    ∀ n, match resolveAll ⟨o, p, n⟩ (start o) o.symbols.keys with
      | .ok _ => o.Ends (o.resolveWithin n p)
      | .error f => o.resolveWithin n p = .error (.fault f) := by
  cases hredeclared : o.redeclarations with
  | error f =>
    left
    have hf : Failure.OfValue (.fault f) := (redeclarations_failsOnly o).of_error f hredeclared
    refine ⟨.error (.fault f), hf.ordinary, fun n => ?_⟩
    rw [resolveWithin, hredeclared]
    rfl
  | ok redeclared =>
    right
    intro n
    have hstart : ({ symbols := o.symbols } : Store) = start o := rfl
    rw [resolveWithin, hredeclared, hstart]
    rcases resolveAll ⟨o, p, n⟩ (start o) o.symbols.keys with f | ⟨S, reported⟩
    · rfl
    · simp only [Except.mapError, bind, Except.bind]
      split
      · exact rfl
      · rename_i hempty
        refine ⟨rfl, rfl, fun hnil => hempty ?_⟩
        rw [show redeclared ++ reported = [] from hnil]
        rfl

/-- The faults that the resolution of a package ends with. -/
theorem resolveWithin_fault (ho : o.Sound) {f : Fault}
    (h : o.resolveWithin n p = .error (.fault f)) : f.OfResolution := by
  rcases resolveWithin_cases o p with ⟨r, hr, hsame⟩ | hcases
  · rw [← hsame n, h] at hr
    exact .inr hr
  · have hend := hcases n
    cases hall : resolveAll ⟨o, p, n⟩ (start o) o.symbols.keys with
    | ok found =>
      rw [hall, h] at hend
      exact .inr hend
    | error f' =>
      rw [hall, h] at hend
      cases hend
      exact (resolveAll_failsOnly o.symbols.keys (start_sized ho) n).of_error f hall

/-- A file of a package that imports itself and refers to what it does not declare: `type A p.B`. -/
def selfImport : SourceFile where
  package := "p"
  imports := [⟨.start, "p", none⟩]
  consts := []
  types := [⟨.start, "A", [], .ref .start (some "p") "B" [], false⟩]
  path := none

example : (ofFiles {} "p" [selfImport]).resolve {} = .error (.fault (.undeclared "B")) := rfl

end Outline

variable {f : Fault} {t : SourceTable} {path : String}

namespace SourceTable

/-- A package that is not resolved because of a fault, in a program that it is loaded into. -/
def Unresolvable (t : SourceTable) (path : String) (f : Fault) : Prop :=
  ∃ texts files program, t.read path = .ok texts ∧ Loading.parseFiles path texts = .ok files ∧
    program.Apart path files ∧
    (Outline.ofFiles program path files).resolve program = .error (.fault f)

/-- A package that ends a load with a fault. -/
def Breaks (t : SourceTable) (path : String) (f : Fault) : Prop :=
  t.Unreadable path f ∨ t.Unresolvable path f

theorem parseFiles_failsOnly (path : String) (texts : SourceList) :
    FailsOnly (fun e => ∀ f, e = .fault f → f.OfValue) (Loading.parseFiles path texts) := by
  refine FailsOnly.mapM fun file _ => ?_
  refine (SourceFile.parse_failsOnly _ _).mapError fun e he f hf => ?_
  cases e with
  | text | invalid => cases hf
  | fault why =>
    cases hf
    exact he

/-- What breaks a package is a value without a representation, or a chain of aliases that is too
long. -/
theorem Breaks.cases (h : t.Breaks path f) : f = .endlessType ∨ f.OfValue := by
  rcases h with ⟨texts, -, hparse⟩ | ⟨texts, files, program, -, -, hapart, hresolve⟩
  · exact .inr ((parseFiles_failsOnly path texts).of_error _ hparse f rfl)
  · rcases Outline.resolveWithin_fault (Outline.ofFiles_sound program path files).1 hresolve with
      heq | hordinary
    · exact .inl (Failure.fault.inj heq)
    · cases f with
      | undeclared name => exact absurd hresolve (Outline.resolveWithin_declared hapart _ name)
      | _ => exact .inr hordinary

end SourceTable

namespace Loading

variable {tried : List String} {p : Program} {r : Except LoadError Package}

theorem Outcome.readable (h : Outcome t tried p path r) (f : Fault) : ¬ t.Unreadable path f := by
  have hfiles {files : List SourceFile} (hfiles : t.Files path files) : ¬ t.Unreadable path f := by
    rintro ⟨texts, hread, hparse⟩
    obtain ⟨texts', hread', hparse', -⟩ := hfiles
    cases hread.symm.trans hread'
    cases hparse.symm.trans hparse'
  cases h with
  | loaded h | unresolved h => exact hfiles h
  | missing hread' =>
    rintro ⟨texts, hread, -⟩
    cases hread.symm.trans hread'
  | unreadable hread' hparse' | mixed hread' hparse' =>
    rintro ⟨texts, hread, hparse⟩
    cases hread.symm.trans hread'
    cases hparse.symm.trans hparse'
  | cyclic h =>
    -- what imports itself has files
    obtain ⟨q, ⟨files, h, -⟩, -⟩ := Relation.TransGen.head'_iff.1 h
    exact hfiles h

theorem History.readable (h : History t tried p) (hpath : path ∈ tried) (f : Fault) :
    ¬ t.Unreadable path f := by
  obtain ⟨r, hr⟩ := Option.isSome_iff_exists.1 ((h.mem_iff path).1 hpath)
  obtain ⟨before, p₁, -, -, hturn, -, -⟩ := h.exists_turn hr
  exact hturn.readable f

theorem Broken.breaks {wanted : String → Prop} (h : Broken t wanted f) :
    ∃ path, t.Breaks path f := by
  obtain ⟨path, -, h | ⟨files, tried, p, ⟨texts, hread, hparse, -⟩, hhistory, hfresh, -, himports,
    hresolve⟩⟩ := h
  · exact ⟨path, .inl h⟩
  · exact ⟨path, .inr ⟨texts, files, p, hread, hparse, hhistory.apart hfresh himports, hresolve⟩⟩

end Loading

/-- A load gives a program in which every pattern is loaded or recorded as missing, or it ends with
the fault of a package: a value without a representation, or a chain of aliases that is too long.
A pattern for a package with an unreadable file always leads to a fault. -/
theorem Program.load_ends (t : SourceTable) (patterns : List String) :
    ((∃ p log, Program.load t.sources patterns = (.ok p, log) ∧ ∀ pattern ∈ patterns,
        p.packages.contains (t.importPath pattern) = true ∨
          p.failures.contains (t.importPath pattern) = true) ∨
      ∃ f log path, Program.load t.sources patterns = (.error f, log) ∧
        (f = .endlessType ∨ f.OfValue) ∧ t.Breaks path f) ∧
    ∀ pattern ∈ patterns, (∃ f, t.Unreadable (t.importPath pattern) f) →
      ∃ f log, Program.load t.sources patterns = (.error f, log) := by
  obtain ⟨l, ⟨hrun, hcourse⟩ | ⟨f, hrun, hbroken⟩⟩ := Loading.run_course t patterns
  · have hload : Program.load t.sources patterns = (.ok l.program, l.log) := by
      rw [Program.load, hrun]
    have htried (pattern : String) (hmem : pattern ∈ patterns) :
        t.importPath pattern ∈ l.trace.tried :=
      hcourse.done_tried _ (List.mem_map_of_mem hmem)
    refine ⟨.inl ⟨l.program, l.log, hload, fun pattern hmem =>
      hcourse.history.mem_tried_iff.1 (htried pattern hmem)⟩, fun pattern hmem hunreadable => ?_⟩
    obtain ⟨f, hf⟩ := hunreadable
    exact absurd hf (hcourse.history.readable (htried pattern hmem) f)
  · have hload : Program.load t.sources patterns = (.error f, l.log) := by
      rw [Program.load, hrun]
    obtain ⟨path, hbreaks⟩ := hbroken.breaks
    exact ⟨.inr ⟨f, l.log, path, hload, hbreaks.cases, hbreaks⟩,
      fun _ _ _ => ⟨f, l.log, hload⟩⟩

/-- A package in memory with a number that is no numeral: `const X = 08`. -/
def badNumeral : SourceTable where
  packages := ⟨[("p", ⟨[("a.go", "package p\n\nconst X = 08\n")]⟩)]⟩

/-- The fault that reading files ends with. -/
def faultOf? : Except LoadFailure (List SourceFile) → Option Fault
  | .error (.fault f) => some f
  | _ => none

theorem badNumeral_unreadable : badNumeral.Unreadable "p" .malformedInteger := by
  have hfault : faultOf? (Loading.parseFiles "p" [("a.go", "package p\n\nconst X = 08\n")]) =
      some .malformedInteger := by decide +kernel
  refine ⟨[("a.go", "package p\n\nconst X = 08\n")], ?_, ?_⟩
  · have hfile : isTestFile "a.go" = false := by decide
    simp [badNumeral, SourceTable.read, Table.get?, hfile]
  unfold faultOf? at hfault
  split at hfault
  · rename_i f hparse
    cases hfault
    exact hparse
  · cases hfault

/-- The numeral ends the load of the package. -/
theorem Program.load_ends_badNumeral : badNumeral.Unreadable "p" .malformedInteger ∧
      ∃ f log, Program.load badNumeral.sources ["p"] = (.error f, log) :=
  ⟨badNumeral_unreadable, (load_ends badNumeral ["p"]).2 "p" (List.mem_singleton.2 rfl)
    ⟨.malformedInteger, badNumeral_unreadable⟩⟩

end DeclBridge
