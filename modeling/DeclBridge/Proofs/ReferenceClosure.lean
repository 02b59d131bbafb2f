import DeclBridge.Proofs.Declarations

/-!
# References of a finished run

Definitions are made while others are still in the making, and a constant may be given up after its
name was reserved.  When a run has ended nothing of that is left to see: every definition is there,
and every reference that was made on the way leads to one, through an import where it crosses from
one module to another.
-/

namespace DeclBridge

/-- What a finished run has settled. -/
structure Run.Closed (run : Run) : Prop where
  /-- No definition is still in the making. -/
  complete : ∀ m ∈ run.graph.modules.values, ∀ text ∈ m.definitions.values, text ≠ .empty
  /-- Every reference leads to a definition in the module of its package.  From there it is written
  with the bare name; from elsewhere through an import. -/
  references : ∀ r ∈ run.references, ∃ owner source : Module,
    run.graph.modules.get? owner.name = some owner ∧ owner.packagePath = r.path ∧
    (∃ text, owner.definitions.get? r.name = some text ∧ text ≠ .empty) ∧
    run.graph.modules.get? r.module = some source ∧
    if owner.name = r.module then r.text = r.name
    else r.text = owner.name ++ "." ++ r.name ∧ owner.name ∈ source.imports
  /-- No module imports itself, and what is imported is there. -/
  imports : ∀ m ∈ run.graph.modules.values, m.name ∉ m.imports ∧
    ∀ i ∈ m.imports, run.graph.modules.contains i = true

namespace Emission

variable {plan : Plan} {e : Emission}

theorem Sound.module?_name (h : e.Sound plan) {m : Module} (hm : m ∈ e.graph.modules.values) :
    e.module? m.name = some m := by
  obtain ⟨⟨k, m'⟩, hentry, rfl⟩ := List.mem_map.1 hm
  have hget : e.module? k = some m' := h.distinct.get?_of_mem hentry
  rw [(h.modules k m' hget).name]
  exact hget

theorem exists_text {k n : String} {m : Module} (hm : e.module? k = some m)
    (hreserved : e.reserved k n = false) (hn : m.has n = true) :
    ∃ text, m.definitions.get? n = some text ∧ text ≠ .empty := by
  obtain ⟨text, htext⟩ := Table.contains_iff.1 hn
  refine ⟨text, htext, fun hempty => ?_⟩
  rw [reserved, hm, Option.any_some, Module.isReserved, htext, Option.any_some, hempty] at hreserved
  cases hreserved

/-- A sound state without reservations is what a finished run has to show. -/
theorem Sound.closed (h : e.Sound plan) (hinj : NameTable.Injective plan.names.names)
    (hreserved : ∀ k n, e.reserved k n = false) : (Run.ofEmission plan e).Closed where
  complete m hm text htext := by
    have hget := h.module?_name hm
    obtain ⟨⟨n, text'⟩, hentry, rfl⟩ := List.mem_map.1 htext
    have hn : m.definitions.get? n = some text' :=
      (h.modules m.name m hget).distinct.get?_of_mem hentry
    obtain ⟨found, hfound, hne⟩ := exists_text hget (hreserved m.name n) (Table.contains_of_get? hn)
    cases hn.symm.trans hfound
    exact hne
  references r hr := by
    obtain ⟨k, owner, source, hk, howner, hhas, hsource, htext⟩ := h.references r hr
    have hfits := h.modules k owner howner
    have hpath : owner.packagePath = r.path := hinj hfits.path hk
    cases hfits.name
    exact ⟨owner, source, howner, hpath, exists_text howner (hreserved _ _) hhas, hsource, htext⟩
  imports m hm := by
    have hfits := h.modules m.name m (h.module?_name hm)
    exact ⟨fun hself => (hfits.imports m.name hself).1 rfl, fun i hi => (hfits.imports i hi).2⟩

end Emission

namespace Program

variable {p : Program} {primary : Selection} {others : List Selection} {options : Options}

/-- The symbols of a program may all be defined, if nothing is asked of failures. -/
theorem admits_of_mem (plan : Plan) {s : Symbol} (hs : s ∈ plan.program.symbols) :
    plan.Admits (fun _ => True) (· ∈ plan.program.symbols) s where
  mem := hs
  complete := .inr trivial
  ends _ _ := .inr trivial
  mentions _ _ _ _ _ := ⟨.inr trivial, fun _ hpackage _ hs _ =>
    List.mem_flatMap.2
      ⟨_, Table.mem_values_of_get? hpackage, Emitting.mem_values_of_writable hs⟩⟩

/-- A run that ends with modules has settled all its references, whatever the program is. -/
theorem emit_closed {run : Run} (h : p.emit primary others options = .ok run) : run.Closed := by
  rw [emit] at h
  rcases p.emitWithin_cases p.typeParts.length (p.symbolCount + 2) primary others options with
    ⟨why, herror, -⟩ | ⟨packages, hpackages, ⟨e, hrun, hok⟩ | ⟨e, fault, -, herror⟩⟩
  · cases h.symm.trans herror
  · cases h.symm.trans hok
    set plan := Plan.ofRequest p primary others options with hplan
    have hrequested : ∀ r ∈ (primary :: others).zip packages,
        Emitting.Requests plan (fun _ => True) (· ∈ plan.program.symbols) r.1 r.2 := by
      rintro ⟨selection, package⟩ hr
      have hpackage := (List.forall₂_iff_zip.1 hpackages).2 hr
      exact ⟨.inr trivial, fun s hs _ => List.mem_flatMap.2
        ⟨package, Table.mem_values_of_get? hpackage, Emitting.mem_values_of_writable hs⟩⟩
    obtain ⟨hsound, hgrows⟩ := (Emitting.defineRequested_spec (fun _ _ => trivial)
      (fun s hs => admits_of_mem plan hs) (.inr trivial) (.inr trivial) (.inr trivial)
      hrequested plan.start_sound).ok rfl hrun
    exact hsound.closed (NameTable.build_injective _ _ _) fun k n => hgrows.reserved k n
  · cases h.symm.trans herror

/-- Two packages whose types refer to each other. -/
def twoWay : Program where
  packages := ⟨[
    ("a", { path := "a", name := "a", imports := ["b"], symbols := ⟨[
      ("T", { name := "T", package := some "a", body := .type {
        underlying := some (.struct [{ name := "U", type := .named ⟨some "b", "U"⟩ [] }]) } })]⟩ }),
    ("b", { path := "b", name := "b", imports := ["a"], symbols := ⟨[
      ("U", { name := "U", package := some "b", body := .type {
        underlying := some (.slice (.named ⟨some "a", "T"⟩ [])) } })]⟩ })]⟩

/-- Each of the two types is referred to while it is being defined or for the first time, and both
references are settled in the end. -/
theorem emit_closed_twoWay : ∃ run, twoWay.emit ⟨"a", []⟩ [] {} = .ok run ∧
    run.references.map (fun r => (r.module, r.path, r.name)) =
      [("b", "a", "T"), ("index", "b", "U")] ∧ run.Closed := by
  obtain ⟨run, hrun, hreferences⟩ := exists_ok_of_any (P := fun (run : Run) =>
    run.references.map (fun r => (r.module, r.path, r.name)) =
      [("b", "a", "T"), ("index", "b", "U")])
    (show (twoWay.emit ⟨"a", []⟩ [] {}).toOption.any _ = true by decide +kernel)
  exact ⟨run, hrun, hreferences, emit_closed hrun⟩

end Program

end DeclBridge
