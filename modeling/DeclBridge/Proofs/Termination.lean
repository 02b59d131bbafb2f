import DeclBridge.Proofs.Coverage
import Mathlib.Data.Set.Finite.List

/-!
# Which runs end

The definitions of a run refer to each other in all ways, and still each name is reserved once; the
term set of an interface is found without going through a declaration twice.  What has no such guard
is the text of a term that is an interface again.  `Plan.Loops` says of a type that its expansions
come back to where they were.

A run that meets no such type stays within its limits (`emitWithin_ne_endless`).  One that has to
write such a type has no result, whatever its limits are (`not_loops_of_emitWithin`).
-/

namespace DeclBridge

open Emitting List

namespace Plan

variable {plan : Plan} {t : Ty}

/-- The expansions from a type come to one that is an expansion of itself. -/
def Loops (plan : Plan) (t : Ty) : Prop :=
  ∃ u, Relation.ReflTransGen plan.Expands t u ∧ Relation.TransGen plan.Expands u u

/-- A program has finitely many types, so what does not end comes back. -/
theorem ends_iff_not_loops (ht : t ∈ plan.program.typeParts) : plan.Ends t ↔ ¬ plan.Loops t := by
  constructor
  · rintro hends ⟨u, htu, huu⟩
    have hu : plan.Ends u := by
      clear huu
      induction htu with
      | refl => exact hends
      | tail _ hstep ih => exact ih.inv hstep
    exact hu.not_cyclic huu
  · intro hloops
    -- what is reached from `t` is finite, and nothing there comes back
    let Reached : Set Ty := {u | u ∈ plan.program.typeParts ∧ Relation.ReflTransGen plan.Expands t u}
    have hfinite : Finite Reached :=
      (plan.program.typeParts.finite_toSet.subset fun u hu => hu.1).to_subtype
    let Later : Reached → Reached → Prop := fun u v => Relation.TransGen plan.Expands v.1 u.1
    have htrans : IsTrans Reached Later := ⟨fun _ _ _ h h' => h'.trans h⟩
    have hirrefl : Std.Irrefl Later := ⟨fun u h => hloops ⟨u.1, u.2.2, h⟩⟩
    have hwf : WellFounded Later := Finite.wellFounded_of_trans_of_irrefl Later
    have hends : ∀ u : Reached, plan.Ends u.1 := by
      intro u
      induction u using hwf.induction with
      | _ u ih =>
        refine ⟨u.1, fun v huv => ?_⟩
        exact ih ⟨v, huv.mem_typeParts u.2.1, u.2.2.tail huv⟩ (.single huv)
    exact hends ⟨t, ht, .refl⟩

/-- The symbols that a run is drawn to: those that are selected and, with each of them, those that
follow a type it mentions. -/
inductive Draws (plan : Plan) (selections : List Selection)
    (follows : SymbolId → Symbol → Prop) : Symbol → Prop
  | selected {selection : Selection} {package : Package} {s : Symbol}
      (hselection : selection ∈ selections)
      (hpackage : plan.program.packages.get? selection.path = some package)
      (hs : s ∈ package.writable)
      (hincluded : selection.includes plan.options.includeUnexported s = true) :
      Draws plan selections follows s
  | mentioned {s s' : Symbol} {t : Ty} {path name : String} {package : Package}
      (hs : Draws plan selections follows s) (ht : t ∈ plan.rendered s)
      (hmentions : plan.Mentions t path name)
      (hpackage : plan.program.packages.get? path = some package) (hs' : s' ∈ package.writable)
      (hfollows : follows ⟨some path, name⟩ s') : Draws plan selections follows s'

variable {selections : List Selection} {follows : SymbolId → Symbol → Prop} {s : Symbol}

theorem Draws.mem_symbols (h : plan.Draws selections follows s) : s ∈ plan.program.symbols := by
  cases h with
  | selected _ hpackage hs _ | mentioned _ _ _ hpackage hs _ =>
    exact mem_flatMap.2
      ⟨_, Table.mem_values_of_get? hpackage, mem_values_of_writable hs⟩

theorem Draws.mem_typeParts (h : plan.Draws selections follows s) (ht : t ∈ plan.rendered s) :
    t ∈ plan.program.typeParts :=
  Program.mem_typeParts h.mem_symbols (plan.rendered_subset s ht) (Ty.self_mem_parts t)

end Plan

namespace Program

variable {p : Program} {primary : Selection} {others : List Selection} {options : Options}

/-- Where no type loops that a run may come to, the run stays within its limits. -/
theorem emitWithin_ne_endless {limit count : Nat} (hlimit : p.typeParts.length ≤ limit)
    (hcount : p.symbolCount + 2 ≤ count)
    (hloops : ∀ s, (Plan.ofRequest p primary others options).Draws (primary :: others)
        (fun id s => comesWith (Plan.ofRequest p primary others options) id s = true) s →
      ∀ t ∈ (Plan.ofRequest p primary others options).rendered s,
        ¬ (Plan.ofRequest p primary others options).Loops t) :
    p.emitWithin limit count primary others options ≠ .error (.fault .endlessType) := by
  set plan := Plan.ofRequest p primary others options with hplan
  set D := plan.Draws (primary :: others) fun id s => comesWith plan id s = true with hD
  have hadmits : ∀ s, D s → plan.Admits (· ≠ .endlessType) D s := fun s hs =>
    { mem := hs.mem_symbols
      complete := .inr (by simp)
      ends := fun t ht =>
        .inl ((Plan.ends_iff_not_loops (hs.mem_typeParts ht)).2 (hloops s hs t ht))
      mentions := fun t ht path name hmentions => ⟨.inr (by simp), fun package hpackage s' hs' h =>
        .mentioned hs ht hmentions hpackage hs' h⟩ }
  rcases p.emitWithin_cases limit count primary others options with
    ⟨why, herror, -⟩ | ⟨packages, hpackages, ⟨e, -, hok⟩ | ⟨e, fault, hrun, herror⟩⟩
  · rw [herror]
    simp
  · rw [hok]
    simp
  · have hrequested : ∀ r ∈ (primary :: others).zip packages,
        Emitting.Requests plan (· ≠ .endlessType) D r.1 r.2 := by
      rintro ⟨selection, package⟩ hr
      have hpackage := (forall₂_iff_zip.1 hpackages).2 hr
      exact ⟨.inr (by simp), fun s hs hincluded =>
        .selected (of_mem_zip hr).1 hpackage hs hincluded⟩
    have hne : fault ≠ .endlessType := (defineRequested_spec
      (fun f hf heq => by rw [heq] at hf; exact hf) hadmits (.inl hlimit) (.inl hcount)
      (.inr (by simp)) hrequested plan.start_sound).error rfl hrun
    rw [herror]
    simpa using hne

/-- A run that has a result has written every type it is drawn to, so none of them loops. -/
theorem not_loops_of_emitWithin (hkeyed : p.Keyed) {limit count : Nat} {run : Run}
    (hrun : p.emitWithin limit count primary others options = .ok run) {s : Symbol}
    (hs : (Plan.ofRequest p primary others options).Draws (primary :: others)
      (fun id s => s.name = id.name) s) :
    ∀ t ∈ (Plan.ofRequest p primary others options).rendered s,
      ¬ (Plan.ofRequest p primary others options).Loops t := by
  set plan := Plan.ofRequest p primary others options with hplan
  obtain ⟨e, hmade, rfl⟩ := exists_walk_within hrun
  have hinj : NameTable.Injective plan.names.names := NameTable.build_injective _ _ _
  have hrequested : ∀ r ∈ p.requested (primary :: others), p.packages.get? r.2.path = some r.2 :=
    fun _ => hkeyed.get?_requested
  obtain ⟨⟨⟨hsound, hgrows⟩, hcovers⟩, hwritten⟩ := (defineRequested_covers hinj hkeyed
    hrequested plan.start_sound plan.start_covers).ok rfl hmade
  have hreserved : ∀ k n, e.reserved k n = false := fun k n => hgrows.reserved k n
  -- everything that the run is drawn to has its place and its name taken there
  have htaken : ∃ k, plan.Place k s ∧ (e.taken k s.name = true ∨ plan.rendered s = []) := by
    induction hs with
    | @selected selection package s hselection hpackage hs hincluded =>
      have hr := mem_requested (r := (selection, package)).2 ⟨hselection, hpackage⟩
      obtain ⟨k, hk, htaken⟩ := hwritten _ hr s (mem_filter.2 ⟨hs, hincluded⟩)
      exact ⟨k, ⟨_, package, hk, hrequested _ hr, hs⟩, htaken⟩
    | mentioned hs ht hmentions hpackage hs' hfollows ih =>
      obtain ⟨k, hplace, htaken⟩ := ih
      have htaken : e.taken k _ = true := htaken.resolve_right fun h => by
        rw [h] at ht
        exact absurd ht not_mem_nil
      obtain ⟨r, hr, hpath, hname⟩ :=
        ((hcovers k _ hplace htaken (hreserved _ _)) _ ht).2 _ _ hmentions
      obtain ⟨owner, target, -, howner, htarget, hhas, -⟩ := hsound.references r hr
      rw [hpath] at howner
      refine ⟨owner, ⟨_, _, howner, hpackage, hs'⟩, .inl ?_⟩
      rw [hfollows, ← hname, Emission.taken, htarget]
      exact hhas
  obtain ⟨k, hplace, htaken⟩ := htaken
  intro t ht
  have htaken : e.taken k s.name = true := htaken.resolve_right fun h => by
    rw [h] at ht
    exact absurd ht not_mem_nil
  have hends := (hcovers k s hplace htaken (hreserved k s.name) t ht).1
  exact (Plan.ends_iff_not_loops (hs.mem_typeParts ht)).1 hends

/-- Which runs end.  A run within its limits ends, if no type loops that it may come to.  If one
loops that it must write, then no limits are enough.  The term sets of interfaces, on their own,
always end: more steps than the program has symbols change nothing. -/
theorem emitWithin_ends (p : Program) (primary : Selection) (others : List Selection)
    (options : Options) :
    let plan := Plan.ofRequest p primary others options
    (∀ limit count, p.typeParts.length ≤ limit → p.symbolCount + 2 ≤ count →
      (∀ s, plan.Draws (primary :: others) (fun id s => comesWith plan id s = true) s →
        ∀ t ∈ plan.rendered s, ¬ plan.Loops t) →
      p.emitWithin limit count primary others options ≠ .error (.fault .endlessType)) ∧
    (p.Keyed → ∀ s, plan.Draws (primary :: others) (fun id s => s.name = id.name) s →
      (∃ t ∈ plan.rendered s, plan.Loops t) →
      ∀ limit count run, p.emitWithin limit count primary others options ≠ .ok run) ∧
    ∀ count t, p.symbolCount < count → TermSet.within p.typeInfo count [] t = p.termSet t := by
  refine ⟨fun limit count hlimit hcount hloops => ?_,
    fun hkeyed s hs hloops limit count run hrun => ?_,
    fun count t hcount => within_eq_termSet hcount t⟩
  · exact emitWithin_ne_endless hlimit hcount hloops
  · obtain ⟨t, ht, hloop⟩ := hloops
    exact not_loops_of_emitWithin hkeyed hrun hs t ht hloop

/-- Interfaces of two packages that embed each other, which have no terms. -/
def embedEachOther : Program where
  packages := ⟨[
    ("a", { path := "a", name := "a", imports := ["b"], symbols := ⟨[
      ("I", { name := "I", package := some "a", body := .type {
        underlying := some (.interface [.named ⟨some "b", "J"⟩ []] []) } })]⟩ }),
    ("b", { path := "b", name := "b", imports := ["a"], symbols := ⟨[
      ("J", { name := "J", package := some "b", body := .type {
        underlying := some (.interface [.named ⟨some "a", "I"⟩ []] []) } })]⟩ })]⟩

/-- A slice of an interface that stands for the types of `X`. -/
def sliceOfX : Ty := .slice (.interface [.named ⟨some "p", "X"⟩ []] [])

/-- An interface `X` whose only term is a slice of an interface with `X` in it. -/
def symbolX : Symbol where
  name := "X"
  package := some "p"
  body := .type { underlying := some (.interface [sliceOfX] []) }

/-- A type that is written with its own terms. -/
def selfTerm : Program where
  packages := ⟨[("p", { path := "p", name := "p", symbols := ⟨[("X", symbolX)]⟩ })]⟩

/-- Embedding in a circle ends; a term that comes back to itself does not. -/
theorem emitWithin_ends_selfTerm :
    embedEachOther.emit ⟨"a", []⟩ [] {} ≠ .error (.fault .endlessType) ∧
    selfTerm.Keyed ∧ selfTerm.emit ⟨"p", []⟩ [] {} = .error (.fault .endlessType) ∧
    ∀ limit count run, selfTerm.emitWithin limit count ⟨"p", []⟩ [] {} ≠ .ok run := by
  have hkeyed : selfTerm.Keyed := by
    refine ⟨fun path package h => ?_, fun path package h s hs s' hs' _ => ?_⟩
    · cases mem_singleton.1 (Table.mem_entries_of_get? h)
      rfl
    · cases mem_singleton.1 (Table.mem_entries_of_get? h)
      rw [mem_singleton.1 hs, mem_singleton.1 hs']
  refine ⟨?_, hkeyed, ?_, ?_⟩
  · refine (emitWithin_ends embedEachOther ⟨"a", []⟩ [] {}).1 _ _ le_rfl le_rfl fun s hs t ht => ?_
    set plan := Plan.ofRequest embedEachOther ⟨"a", []⟩ [] {}
    -- an interface without terms is written at once
    have hterms : ∀ embeds methods, plan.program.termSet (.interface embeds methods) = none →
        ∀ u, ¬ plan.Expands (.interface embeds methods) u := by
      rintro embeds methods hnone u ⟨_, _, terms, hvisit, hsome, -⟩
      rcases Relation.ReflTransGen.cases_head hvisit with heq | ⟨c, hw, -⟩
      · cases heq
        cases hnone.symm.trans hsome
      · cases hw
    have hnone : ∀ t ∈ plan.rendered s, ∀ u, ¬ plan.Expands t u := by
      obtain ⟨package, hpackage, hs⟩ := mem_flatMap.1 hs.mem_symbols
      rcases mem_cons.1 hpackage with rfl | hpackage
      · cases mem_singleton.1 hs
        exact fun t ht => mem_singleton.1 ht ▸ hterms _ _ (by decide +kernel)
      · cases mem_singleton.1 hpackage
        cases mem_singleton.1 hs
        exact fun t ht => mem_singleton.1 ht ▸ hterms _ _ (by decide +kernel)
    rintro ⟨u, htu, huu⟩
    rcases Relation.ReflTransGen.cases_head htu with rfl | ⟨v, htv, -⟩
    · obtain ⟨v, htv, -⟩ := Relation.TransGen.head'_iff.1 huu
      exact hnone _ ht v htv
    · exact hnone t ht v htv
  · have hfault : (match selfTerm.emit ⟨"p", []⟩ [] {} with
        | .error (.fault why) => some why
        | _ => none) = some .endlessType := by decide +kernel
    split at hfault
    · rw [‹selfTerm.emit _ _ _ = _›, Option.some.inj hfault]
    · cases hfault
  · have hexpands : ∀ t, t = .interface [sliceOfX] [] ∨ t = sliceOfX →
        (Plan.ofRequest selfTerm ⟨"p", []⟩ [] {}).Expands t sliceOfX := by
      rintro t (rfl | rfl)
      · exact ⟨_, _, _, .refl, rfl, mem_singleton.2 rfl⟩
      · exact ⟨_, _, _, .single .slice, rfl, mem_singleton.2 rfl⟩
    have hwritable : symbolX ∈ Package.writable
        { path := "p", name := "p", symbols := ⟨[("X", symbolX)]⟩ } :=
      mem_filter.2 ⟨mem_mergeSort.2 (mem_singleton.2 rfl), rfl⟩
    exact (emitWithin_ends selfTerm ⟨"p", []⟩ [] {}).2.1 hkeyed symbolX
      (.selected (mem_singleton.2 rfl) rfl hwritable rfl)
      ⟨.interface [sliceOfX] [], mem_singleton.2 rfl, sliceOfX,
        .single (hexpands _ (.inl rfl)), .single (hexpands _ (.inr rfl))⟩

end Program

end DeclBridge
