import DeclBridge.Proofs.Declarations
import DeclBridge.Proofs.Loading

/-!
# The output of loaded programs

A program that was loaded fits together: its packages are sound (`Program.load_sound`).  From a
type of a sound program all expansions stay with what the package of the type reaches
(`Plan.Expands.within`), and all of that has module names, since the requested packages are among
the roots.  So the definitions of all packages that can be reached are admitted, and a run has none
of the faults that a program put together by hand may have (`Program.emit_of_load`).
-/

namespace DeclBridge

variable {path : String} {s : Symbol}

/-- Faults of a program whose packages do not fit together: a reference to a package without a
module, a declaration without its type, a name that is defined twice. -/
def Fault.OfAssembly : Fault → Prop
  | .unnamedModule _ | .missingType | .alreadyDefined _ _ => True
  | _ => False

theorem Fault.OfText.not_ofAssembly {f : Fault} (h : f.OfText) : ¬ f.OfAssembly := by
  cases f <;> first | exact h.elim | exact id

namespace Plan

variable {plan : Plan} {t u : Ty}

/-- The terms of interfaces refer to what can be reached. -/
theorem Expands.within (hsound : plan.program.Sound) (h : plan.Expands t u)
    (ht : t.Within (plan.program.Reaches path)) : u.Within (plan.program.Reaches path) := by
  obtain ⟨embeds, methods, terms, hvisit, hterms, hu⟩ := h
  refine TermSet.mem_within (S := fun u => u.Within (plan.program.Reaches path)) ?_
    (fun v hv => ht.part (Ty.parts_trans hvisit.mem_parts hv)) hterms u hu
  intro reference id declared href hid hdeclared v hv
  obtain ⟨q, package, s, hq, hpackage, hs, hbody⟩ := Program.typeInfo_eq hdeclared
  obtain ⟨-, -, -, hwithin⟩ := (hsound q package hpackage).symbol id.name s hs
  have hreach : plan.program.Reaches path q := by
    refine href reference (Ty.self_mem_parts reference) q id.name ?_
    rw [hid, ← hq]
  have hinfo := (Symbol.within_type hbody).1 hwithin
  exact ((hinfo.underlying declared hdeclared).part hv).mono fun q' hq' => hreach.trans hq'

theorem Mentions.reaches (hsound : plan.program.Sound) {q name : String}
    (h : plan.Mentions t q name) (ht : t.Within (plan.program.Reaches path)) :
    plan.program.Reaches path q := by
  obtain ⟨u, hexpand, args, hvisit⟩ := h
  have hu : u.Within (plan.program.Reaches path) := by
    clear hvisit
    induction hexpand with
    | refl => exact ht
    | tail _ hstep ih => exact hstep.within hsound ih
  rcases hvisit with hvisit | hvisit <;> exact hu _ hvisit.mem_parts q name rfl

/-- The symbols of the packages that can be reached from what is requested. -/
def InReach (plan : Plan) (roots : List String) (s : Symbol) : Prop :=
  ∃ root ∈ roots, ∃ path package, plan.program.Reaches root path ∧
    plan.program.packages.get? path = some package ∧ s ∈ package.symbols.values

end Plan

namespace Program

variable {p : Program} {primary : Selection} {others : List Selection} {options : Options}

theorem Sound.symbol (h : p.Sound) {package : Package}
    (hpackage : p.packages.get? path = some package) (hs : s ∈ package.symbols.values) :
    s.IsComplete ∧ s.Within (p.Reaches path) := by
  obtain ⟨⟨name, s'⟩, hentry, rfl⟩ := List.mem_map.1 hs
  have hsound := h path package hpackage
  exact (hsound.symbol name s' (hsound.distinct.get?_of_mem hentry)).2.2

theorem Sound.admits (h : p.Sound)
    (hs : (Plan.ofRequest p primary others options).InReach ((primary :: others).map (·.path)) s) :
    (Plan.ofRequest p primary others options).Admits (fun f => ¬ f.OfAssembly)
      ((Plan.ofRequest p primary others options).InReach ((primary :: others).map (·.path))) s := by
  obtain ⟨root, hroot, path, package, hreach, hpackage, hs⟩ := hs
  obtain ⟨hcomplete, hwithin⟩ := h.symbol hpackage hs
  refine ⟨List.mem_flatMap.2 ⟨package, Table.mem_values_of_get? hpackage, hs⟩, .inl hcomplete,
    fun _ _ => .inr id, fun t ht q name hmentions => ?_⟩
  have hq : p.Reaches root q :=
    hreach.trans (hmentions.reaches h (hwithin t (Plan.rendered_subset _ s ht)))
  exact ⟨.inl (NameTable.build_names p hroot hq), fun package' hpackage' s' hs' _ =>
    ⟨root, hroot, q, package', hq, hpackage', Emitting.mem_values_of_writable hs'⟩⟩

/-- Output from a program that was loaded, for packages that it has, meets no package without a
module, no symbol without its type and no name that is defined twice. -/
theorem emit_of_load {sources : Sources} {patterns : List String} {log : List LogLine}
    (hload : Program.load sources patterns = (.ok p, log))
    (hpaths : ∀ s ∈ primary :: others, p.packages.contains s.path = true) :
    (∃ run, p.emit primary others options = .ok run) ∨
      ∃ fault, p.emit primary others options = .error (.fault fault) ∧ ¬ fault.OfAssembly := by
  have hsound := load_sound hload
  rw [emit]
  rcases p.emitWithin_cases p.typeParts.length (p.symbolCount + 2) primary others options with
    ⟨-, -, s, hs, hmissing⟩ | ⟨packages, hpackages, ⟨e, -, hok⟩ | ⟨e, fault, hrun, herror⟩⟩
  · rw [hpaths s hs] at hmissing
    cases hmissing
  · exact .inl ⟨_, hok⟩
  · set plan := Plan.ofRequest p primary others options with hplan
    refine .inr ⟨fault, herror, ?_⟩
    have hrequested : ∀ r ∈ (primary :: others).zip packages,
        Emitting.Requests plan (fun f => ¬ f.OfAssembly)
          (plan.InReach ((primary :: others).map (·.path))) r.1 r.2 := by
      rintro ⟨selection, package⟩ hr
      have hpackage := (List.forall₂_iff_zip.1 hpackages).2 hr
      have hroot : selection.path ∈ (primary :: others).map (·.path) :=
        List.mem_map_of_mem (List.of_mem_zip hr).1
      refine ⟨.inl ?_, fun s hs _ => ?_⟩
      · rw [(hsound _ _ hpackage).path_eq]
        exact NameTable.build_names p hroot .refl
      · exact ⟨_, hroot, _, package, .refl, hpackage, Emitting.mem_values_of_writable hs⟩
    exact (Emitting.defineRequested_spec (fun f hf => hf.not_ofAssembly)
      (fun s hs => hsound.admits hs) (.inr id) (.inr id) (.inl (NameTable.build_names_primary _ _ _))
      hrequested
      plan.start_sound).error rfl hrun

/-- A package in memory whose type refers to a package that is not there. -/
def danglingSources : SourceTable where
  packages := ⟨[("a", ⟨[("a.go",
    "package a\nimport \"c\"\ntype T struct { V map[string][]c.V }\n")]⟩)]⟩

/-- The missing package is recorded, and the package that imports it can be written. -/
theorem emit_of_load_danglingSources : ∃ p log,
    Program.load danglingSources.sources ["a"] = (.ok p, log) ∧
    p.packages.keys = ["a"] ∧ p.failures.keys = ["c"] ∧ ((∃ run, p.emit ⟨"a", []⟩ [] {} = .ok run) ∨
      ∃ fault, p.emit ⟨"a", []⟩ [] {} = .error (.fault fault) ∧ ¬ fault.OfAssembly) := by
  obtain ⟨p, log, hload, hpackages, hfailures⟩ := exists_load (P := fun p =>
    p.packages.keys = ["a"] ∧ p.failures.keys = ["c"])
    (show (load danglingSources.sources ["a"]).1.toOption.any _ = true by decide +kernel)
  refine ⟨p, log, hload, hpackages, hfailures, emit_of_load hload fun s hs => ?_⟩
  rw [List.mem_singleton.1 hs, ← Table.mem_keys_iff, hpackages]
  exact List.mem_singleton.2 rfl

end Program

end DeclBridge
