import DeclBridge.Proofs.Coverage
import DeclBridge.Proofs.LoadedOutput
import DeclBridge.Proofs.ModuleNames
import DeclBridge.Proofs.Shadowing
import DeclBridge.Proofs.TypeParameters

/-!
# Names that are captured

A definition refers to a type of its own module with the bare name, and to a type of another one
through the name of the import.  Both can go wrong.  A bare name is captured where the definition
has a type parameter of that name, and a qualified one where the module defines something under the
name of the import.

Everything in the output goes back to a declaration (`Emission.Traced`): a reference to a type that
the definition is written from, an import to a reference, a name that is taken to a symbol or to a
reference.  With what is known of declarations this tells when a name can be captured
(`Program.emit_captured`).  A bare name is captured only where a definition brings in what another
declaration of the package is written with.  An import is captured only by a declaration that has
the name, with or without a number, of a package that is imported, or the name of the primary
module.
-/

namespace DeclBridge

open Emitting List

variable {name path : String} {s : Symbol} {info : TypeInfo} {package : Package} {plan : Plan}
  {e : Emission} {p : Program}

/-! ## References in expansions -/

namespace Plan

variable {t u : Ty}

/-- A definition that is put in belongs to a package that can be reached. -/
theorem reaches_of_flattens (hsound : plan.program.Sound) {id : SymbolId} {q : String}
    (h : plan.program.Flattens t id) (ht : t.Within (plan.program.Reaches path))
    (hq : id.package = some q) : plan.program.Reaches path q := by
  have hreference {t reference : Ty} {id : SymbolId} {q : String}
      (ht : t.Within (plan.program.Reaches path)) (hembeds : t.Embeds reference)
      (hid : reference.symbol? = some id) (hq : id.package = some q) :
      plan.program.Reaches path q := by
    refine ht reference hembeds.mem_parts q id.name ?_
    rw [hid, ← hq]
  induction h with
  | embedded hembeds hid _ => exact hreference ht hembeds hid hq
  | @through t reference id id' embeds methods hembeds hid hunder _ ih =>
    obtain ⟨q', package, s, hq', hpackage, hs, hbody⟩ := Program.typeInfo_eq hunder
    obtain ⟨-, -, -, hwithin⟩ := (hsound q' package hpackage).symbol id.name s hs
    have hdeclared := ((Symbol.within_type hbody).1 hwithin).underlying _ hunder
    exact ih (hdeclared.mono fun _ => (hreference ht hembeds hid hq').trans) hq

/-- A type that avoids some types of the package comes to one of them only through the definition of
an interface of the package that is put in. -/
theorem Mentions.inlines (hsound : plan.program.Sound)
    (hantisymm : ∀ a b, plan.program.Reaches a b → plan.program.Reaches b a → a = b)
    {names : List String} (hwithin : t.Within (plan.program.Reaches path))
    (havoids : t.Avoids path names) (hname : name ∈ names)
    (h : plan.Mentions t path name) : ∃ id, id.package = some path ∧ plan.Inlines t id := by
  obtain ⟨u, hexpands, args, hvisit⟩ := h
  obtain ⟨v, hv, hsymbol⟩ : ∃ v ∈ u.parts, v.symbol? = some ⟨some path, name⟩ := by
    rcases hvisit with hvisit | hvisit <;> exact ⟨_, hvisit.mem_parts, rfl⟩
  clear hvisit
  induction hexpands generalizing v with
  | refl => exact absurd hsymbol (havoids v hv name hname)
  | @tail w u hexpands hstep ih =>
    obtain ⟨embeds, methods, terms, hvisit, hterms, hu⟩ := hstep
    rcases Program.mem_within_of_flattens hterms hu with hpart | ⟨id, t', hflattens, hunder, hpart⟩
    · exact ih v (Ty.parts_trans hvisit.mem_parts (Ty.parts_trans hpart hv)) hsymbol
    · refine ⟨id, ?_, w, embeds, methods, hexpands, hvisit, hflattens⟩
      obtain ⟨q, package, s, hq, hpackage, hs, hbody⟩ := Program.typeInfo_eq hunder
      -- the definition refers to `path`, and `path` leads to the definition
      have hw : w.Within (plan.program.Reaches path) := by
        clear ih hvisit
        induction hexpands with
        | refl => exact hwithin
        | tail _ hstep ih => exact hstep.within hsound ih
      have hto : plan.program.Reaches path q :=
        reaches_of_flattens hsound hflattens (hw.part hvisit.mem_parts) hq
      obtain ⟨-, -, -, hdeclared⟩ := (hsound q package hpackage).symbol id.name s hs
      have hback : plan.program.Reaches q path :=
        ((Symbol.within_type hbody).1 hdeclared).underlying t' hunder v
          (Ty.parts_trans hpart hv) path name hsymbol
      rw [hq, hantisymm path q hto hback]

/-- The types that a definition is written from refer to no type of the package that its parameters
hide, unless its structure is taken over. -/
theorem avoids_of_rendered {spec : TypeSpec}
    (h : info.Unhidden path spec) (hbody : s.body = .type info) (hover : ¬ spec.TakesOver)
    (ht : t ∈ plan.rendered s) : t.Avoids path spec.paramNames := by
  rw [rendered, hbody] at ht
  rcases mem_append.1 ht with ht | ht
  · obtain ⟨param, hparam, hconstraint⟩ := mem_filterMap.1 ht
    exact h.constraint param hparam t hconstraint
  · split at ht
    · exact absurd ht not_mem_nil
    · exact (h.written t (Option.mem_toList.1 ht)).resolve_right hover

end Plan

/-! ## Where things come from -/

/-- All that was made goes back to declarations. -/
structure Emission.Traced (plan : Plan) (e : Emission) : Prop where
  references : ∀ r ∈ e.references,
    ∃ s, plan.Place r.module s ∧ s.name = r.definition ∧ plan.Cites s r.path r.name
  imports : ∀ k m, e.module? k = some m → ∀ i ∈ m.imports, plan.Links k i
  definitions : ∀ k m, e.module? k = some m → ∀ n, m.has n = true → plan.Grounds k n

namespace Emission.Traced

variable {e' : Emission} {k : String}

theorem quiet (h : e.Traced plan) (hquiet : e.Quiet e') : e'.Traced plan where
  references r hr := h.references r (hquiet.references ▸ hr)
  imports k m' hm' i hi := by
    obtain ⟨m, hm, hi⟩ := hquiet.imports k m' hm' i hi
    exact h.imports k m hm i hi
  definitions k m' hm' n hn := by
    have htaken : e'.taken k n = true := by
      rw [taken, hm']
      exact hn
    rw [hquiet.toSameTexts.taken] at htaken
    obtain ⟨m, hm, hn⟩ := (Option.any_eq_true _ _).1 htaken
    exact h.definitions k m hm n hn

/-- A module may be changed as long as what is new in it goes back to declarations. -/
theorem update (h : e.Traced plan) {f : Module → Module}
    (himports : ∀ m, e.module? k = some m → ∀ i ∈ (f m).imports, i ∈ m.imports ∨ plan.Links k i)
    (hdefinitions : ∀ m, e.module? k = some m → ∀ n, (f m).has n = true →
      m.has n = true ∨ plan.Grounds k n) : (e.update k f).Traced plan := by
  have hmodule {k' : String} {m' : Module} (hm' : (e.update k f).module? k' = some m') :
      e.module? k' = some m' ∨ k = k' ∧ ∃ m, e.module? k = some m ∧ f m = m' := by
    rw [module?_update] at hm'
    split at hm'
    · subst ‹k = k'›
      exact .inr ⟨rfl, Option.map_eq_some_iff.1 hm'⟩
    · exact .inl hm'
  refine ⟨h.references, fun k' m' hm' i hi => ?_, fun k' m' hm' n hn => ?_⟩
  · rcases hmodule hm' with hm | ⟨rfl, m, hm, rfl⟩
    · exact h.imports k' m' hm i hi
    · exact (himports m hm i hi).elim (h.imports k m hm i) id
  · rcases hmodule hm' with hm | ⟨rfl, m, hm, rfl⟩
    · exact h.definitions k' m' hm n hn
    · exact (hdefinitions m hm n hn).elim (h.definitions k m hm n) id

theorem withText (h : e.Traced plan) {n : String} {text : Text} (hgrounds : plan.Grounds k n) :
    (e.update k (·.withText n text)).Traced plan := by
  refine h.update (fun _ _ _ hi => .inl hi) fun m _ n' hn' => ?_
  rw [Module.has_withText, Bool.or_eq_true, decide_eq_true_eq] at hn'
  rcases hn' with rfl | hn'
  · exact .inr hgrounds
  · exact .inl hn'

theorem note (h : e.Traced plan) {r : Reference} (hraises : plan.Raises e r) :
    (e.note r).Traced plan := by
  refine ⟨fun r' hr' => ?_, h.imports, h.definitions⟩
  rcases mem_append.1 hr' with hr' | hr'
  · exact h.references r' hr'
  · exact mem_singleton.1 hr' ▸ hraises.cited

end Emission.Traced

namespace Plan

theorem start_traced (plan : Plan) : plan.start.Traced plan :=
  ⟨forall_mem_nil _, fun _ _ hm => (Option.some_ne_none _ hm.symm).elim,
    fun _ _ hm => (Option.some_ne_none _ hm.symm).elim⟩

/-- What a run makes goes back to declarations. -/
theorem maintains_traced : plan.Maintains fun _ e => e.Traced plan where
  same hquiet h := h.quiet hquiet
  imported hlinks h := by
    refine h.update (fun m _ i hi => ?_) fun m _ n hn => ?_
    · rcases Module.mem_imports_addImport.1 hi with hi | ⟨rfl, -⟩
      · exact .inl hi
      · exact .inr hlinks
    · rw [Module.has, Module.definitions_addImport] at hn
      exact .inl hn
  opened _ _ _ h := h
  reserve _ _ hplace _ _ _ h := h.withText (.inl ⟨_, hplace, rfl⟩)
  write hplace _ _ _ _ h := h.withText (.inl ⟨_, hplace, rfl⟩)
  unknown _ _ hk hraises _ _ _ h := by
    obtain ⟨s, hplace, -, hcites⟩ := hraises.cited
    exact h.withText (.inr ⟨_, s, _, hplace, hcites, hk⟩)
  closed _ hraises _ _ h := h.note hraises
  noted _ hraises _ h := h.note hraises

end Plan

/-! ## Captured names -/

/-- The declaration of a type takes over the structure of another one. -/
def Sources.TakesOver (sources : Sources) (p : Program) (path name : String) : Prop :=
  ∃ o decl, sources.outline? p path = some o ∧ o.types.get? name = some decl ∧ decl.spec.TakesOver

/-- The definition of a symbol brings in what other declarations of its package are written with: it
takes over a structure, or the definition of an interface is put in. -/
def Plan.BringsIn (plan : Plan) (sources : Sources) (path : String) (s : Symbol) : Prop :=
  sources.TakesOver plan.program path s.name ∨
    ∃ t ∈ plan.rendered s, ∃ id, id.package = some path ∧ plan.Inlines t id

namespace Program

variable {sources : Sources} {patterns : List String} {log : List LogLine}
  {primary : Selection} {others : List Selection} {options : Options}

theorem Sound.get?_of_mem (h : p.Sound)
    (hpackage : p.packages.get? path = some package) (hs : s ∈ package.symbols.values) :
    package.symbols.get? s.name = some s := by
  obtain ⟨⟨name, s'⟩, hentry, rfl⟩ := mem_map.1 hs
  have hget := (h path package hpackage).distinct.get?_of_mem hentry
  rw [((h path package hpackage).symbol name s' hget).1]
  exact hget

theorem Sound.keyed (h : p.Sound) : p.Keyed where
  path path package hpackage := (h path package hpackage).path_eq
  name path package hpackage s hs s' hs' hname := by
    have hget := h.get?_of_mem hpackage hs
    rw [hname, h.get?_of_mem hpackage hs'] at hget
    exact (Option.some.inj hget).symm

/-- The requested packages of a sound program are found under their own paths. -/
theorem Sound.get?_requested (hsound : p.Sound) {selections : List Selection}
    {r : Selection × Package} (hr : r ∈ p.requested selections) :
    p.packages.get? r.2.path = some r.2 :=
  hsound.keyed.get?_requested hr

/-- What every step maintains holds after a run, if it also holds when the run comes to a symbol. -/
theorem walk_maintains (hsound : p.Sound) (hplan : plan = Plan.ofRequest p primary others options)
    {Inv : List Reference → Emission → Prop} (h : plan.Maintains Inv) {limit count : Nat}
    (hturn : ∀ k s e, plan.Comes limit count (p.requested (primary :: others)) plan.start k s e →
      (e.module? k).isSome → Inv [] e → Inv [] (e.update k (·.withText s.name .empty)))
    (hstart : Inv [] plan.start) (hmade : (defineRequested plan limit count
      (p.requested (primary :: others))).run.run plan.start = (.ok (), e)) :
    (e.Sound plan ∧ plan.start.Grows e) ∧ Inv [] e := by
  subst hplan
  exact ((defineRequested_maintains (NameTable.build_injective _ _ _) h
    (fun _ hr => hsound.get?_requested hr) (fun k s e hcomes hmodule _ => hturn k s e hcomes hmodule)
    (Plan.start_sound _) hstart).ok rfl hmade).1

/-- A run of a loaded program ends in a state that is sound and goes back to declarations. -/
theorem Sound.exists_traced (hsound : p.Sound) {run : Run}
    (hrun : p.emit primary others options = .ok run) :
    ∃ e, run = Run.ofEmission (Plan.ofRequest p primary others options) e ∧
      e.Sound (Plan.ofRequest p primary others options) ∧
      e.Traced (Plan.ofRequest p primary others options) := by
  obtain ⟨e, hmade, rfl⟩ := exists_walk hrun
  obtain ⟨⟨he, -⟩, htraced⟩ := walk_maintains hsound rfl Plan.maintains_traced
    (fun k s e' hcomes _ h => by
      obtain ⟨request, hrequest, hk, hs, -⟩ := exists_request_of_comes hcomes
      exact h.withText (.inl ⟨s, ⟨_, _, hk, hsound.get?_requested hrequest, hs⟩, rfl⟩))
    (Plan.start_traced _) hmade
  exact ⟨e, rfl, he, htraced⟩

section

/-- A definition that comes to a type of its package with the name of one of its parameters brings
in what other declarations are written with. -/
theorem bringsIn_of_cites (hload : Program.load sources patterns = (.ok p, log))
    (hprogram : plan.program = p) (hpackage : p.packages.get? path = some package)
    (hs : package.symbols.get? s.name = some s) (hbody : s.body = .type info)
    (hparam : name ∈ info.params.map (·.name)) (hcites : plan.Cites s path name) :
    plan.BringsIn sources path s := by
  subst hprogram
  have hsound := load_sound hload
  refine or_iff_not_imp_left.2 fun hover => ?_
  obtain ⟨t, ht, hmentions⟩ := hcites
  obtain ⟨o, decl, ho, hdecl, hunhidden⟩ := load_unhidden hload hpackage hs hbody
  have havoids := Plan.avoids_of_rendered hunhidden hbody
    (fun htakes => hover ⟨o, decl, ho, hdecl, htakes⟩) ht
  have hwithin := (hsound.symbol hpackage (Table.mem_values_of_get? hs)).2 t
    (plan.rendered_subset s ht)
  exact ⟨t, ht, hmentions.inlines hsound (fun a b => load_antisymm hload) hwithin havoids
    (hunhidden.names ▸ hparam)⟩

/-- An import leads to another package that the package of the module reaches. -/
theorem Sound.exists_import (hsound : p.Sound) (hprogram : plan.program = p)
    (hinj : NameTable.Injective plan.names.names) (he : e.Sound plan) (htraced : e.Traced plan)
    {m : Module} (hm : e.module? m.name = some m) {i : String} (hi : i ∈ m.imports) :
    ∃ q, q ≠ m.packagePath ∧ p.Reaches m.packagePath q ∧ plan.names.names.get? q = some i := by
  subst hprogram
  have hfits := he.modules m.name m hm
  obtain ⟨s, q, name, ⟨path, package, hpath, hpackage, hs⟩, ⟨t, ht, hmentions⟩, hq⟩ :=
    htraced.imports m.name m hm i hi
  obtain rfl : path = m.packagePath := hinj hpath hfits.path
  have hwithin := (hsound.symbol hpackage (mem_values_of_writable hs)).2 t
    (plan.rendered_subset s ht)
  refine ⟨q, ?_, hmentions.reaches hsound hwithin, hq⟩
  rintro rfl
  rw [hpath] at hq
  exact (hfits.imports i hi).1 (Option.some.inj hq).symm

end

/-- Where names can be captured in a run of a loaded program.  A bare name is a type parameter of
the definition that it stands in only if the definition takes over the structure of another type, or
if an interface of the same package is put in.  A module defines the name of an import only if a
symbol of its package, or a type that is referred to as one of its package, has the name that the
other module got: that of a package which is imported, with or without a number, or that of the
primary module. -/
theorem emit_captured (hload : Program.load sources patterns = (.ok p, log)) {run : Run}
    (hrun : p.emit primary others options = .ok run) :
    (∀ r ∈ run.references, run.names.names.get? r.path = some r.module →
      ∃ package s, p.packages.get? r.path = some package ∧
        package.symbols.get? r.definition = some s ∧
        ∀ info, s.body = .type info → r.name ∈ info.params.map (·.name) →
          (Plan.ofRequest p primary others options).BringsIn sources r.path s) ∧
    ∀ m ∈ run.graph.modules.values, ∀ i ∈ m.imports, m.definitions.contains i = true →
      ((∃ package s, p.packages.get? m.packagePath = some package ∧
          package.symbols.get? i = some s) ∨
        ∃ k s, (Plan.ofRequest p primary others options).Place k s ∧
          (Plan.ofRequest p primary others options).Cites s m.packagePath i) ∧
      ∃ q, q ≠ m.packagePath ∧ p.Reaches m.packagePath q ∧ run.names.names.get? q = some i ∧
        (q = primary.path ∧ i = NameTable.index ∨
          ∃ number, i = NameTable.candidate (p.packageName q) number) := by
  have hsound := load_sound hload
  obtain ⟨e, rfl, he, htraced⟩ := hsound.exists_traced hrun
  set plan := Plan.ofRequest p primary others options
  have hnames : NameTable.Names p primary.path ((primary :: others).map (·.path))
      plan.names.names := NameTable.names_build p primary.path _
  refine ⟨fun r hr hbare => ?_, fun m hm i hi hdefined => ⟨?_, ?_⟩⟩
  · obtain ⟨s, ⟨path, package, hpath, hpackage, hs⟩, hname, hcites⟩ := htraced.references r hr
    -- no other package has the module, so the definition is one of the same package
    obtain rfl : path = r.path := hnames.injective hpath hbare
    have hget := hsound.get?_of_mem hpackage (mem_values_of_writable hs)
    refine ⟨package, s, hpackage, hname ▸ hget, fun info hbody hparam => ?_⟩
    exact bringsIn_of_cites hload rfl hpackage hget hbody hparam hcites
  · have hmodule := he.module?_name hm
    have hfits := he.modules m.name m hmodule
    rcases htraced.definitions m.name m hmodule i hdefined with
      ⟨s, ⟨path, package, hpath, hpackage, hs⟩, rfl⟩ | ⟨k, s, path, hplace, hcites, hpath⟩
    · obtain rfl : path = m.packagePath := hnames.injective hpath hfits.path
      exact .inl ⟨package, s, hpackage,
        hsound.get?_of_mem hpackage (mem_values_of_writable hs)⟩
    · obtain rfl : path = m.packagePath := hnames.injective hpath hfits.path
      exact .inr ⟨k, s, hplace, hcites⟩
  · obtain ⟨q, hne, hreaches, hq⟩ :=
      hsound.exists_import rfl hnames.injective he htraced (he.module?_name hm) hi
    refine ⟨q, hne, hreaches, hq, ?_⟩
    by_cases hprimary : q = primary.path
    · have hindex := (hnames.index_iff q).2 hprimary
      rw [hq] at hindex
      exact .inl ⟨hprimary, Option.some.inj hindex⟩
    · obtain ⟨number, hnumber, -⟩ := hnames.least q (Table.contains_of_get? hq) hprimary
      rw [hq] at hnumber
      exact .inr ⟨number, Option.some.inj hnumber⟩

/-- A type that takes over a structure with a reference to `T` under a parameter `T`, in a package
that has a type with the name of the package it imports. -/
def hiddenType : SourceTable where
  packages := ⟨[
    ("p", ⟨[("p.go", "package p\n\nimport u \"lib/T\"\n\ntype T int\n\n" ++
      "type G[U any] struct { F T; V u.V }\n\ntype X[T any] G[T]\n")]⟩),
    ("lib/T", ⟨[("t.go", "package T\n\ntype V int\n")]⟩)]⟩

/-- The name `T` in the definition of `X` is captured by the parameter, and the import `T` by the
definition of `T`. -/
theorem emit_captured_hiddenType : ∃ p log run,
    Program.load hiddenType.sources ["p"] = (.ok p, log) ∧ p.emit ⟨"p", []⟩ [] {} = .ok run ∧
    (∃ r ∈ run.references, run.names.names.get? r.path = some r.module ∧ r.definition = "X" ∧
      r.name = "T" ∧ ∃ package s info, p.packages.get? r.path = some package ∧
        package.symbols.get? r.definition = some s ∧ s.body = .type info ∧
        r.name ∈ info.params.map (·.name) ∧
        (Plan.ofRequest p ⟨"p", []⟩ [] {}).BringsIn hiddenType.sources r.path s) ∧
    ∃ m ∈ run.graph.modules.values, "T" ∈ m.imports ∧ m.definitions.contains "T" = true ∧
      ∃ q, q ≠ m.packagePath ∧ p.Reaches m.packagePath q ∧ run.names.names.get? q = some "T" := by
  obtain ⟨p, log, hload, hX, hfacts⟩ := exists_load (P := fun p =>
    (((p.packages.get? "p").bind (·.symbols.get? "X")).bind (·.typeInfo?)).map
      (·.params.map (·.name)) = some ["T"] ∧ (p.emit ⟨"p", []⟩ [] {}).toOption.any fun run =>
        (∃ r ∈ run.references, r.path = "p" ∧ run.names.names.get? r.path = some r.module ∧
          r.definition = "X" ∧ r.name = "T") ∧
        ∃ m ∈ run.graph.modules.values, "T" ∈ m.imports ∧ m.definitions.contains "T" = true)
    (show (load hiddenType.sources ["p"]).1.toOption.any _ = true by cbv)
  obtain ⟨run, hemit, ⟨r, hr, hpath, hnames, hdefinition, hname⟩, m, hm, himport, hdefined⟩ :=
    exists_ok_of_any hfacts
  obtain ⟨hbare, hclash⟩ := emit_captured hload hemit
  refine ⟨p, log, run, hload, hemit, ⟨r, hr, hnames, hdefinition, hname, ?_⟩, ?_⟩
  · obtain ⟨package, s, hpackage, hs, hinfo⟩ := hbare r hr hnames
    rw [← hpath, ← hdefinition, hpackage, Option.bind_some, hs, Option.bind_some] at hX
    obtain ⟨info, hbody, hparams⟩ := Option.map_eq_some_iff.1 hX
    have hbody := Symbol.body_of_typeInfo? hbody
    have hparam : r.name ∈ info.params.map (·.name) := by
      rw [hparams, hname]
      exact mem_singleton.2 rfl
    exact ⟨package, s, info, hpackage, hs, hbody, hparam, hinfo info hbody hparam⟩
  · obtain ⟨-, q, hne, hreaches, hq, -⟩ := hclash m hm "T" himport hdefined
    exact ⟨m, hm, himport, hdefined, q, hne, hreaches, hq⟩

end Program

end DeclBridge
