import DeclBridge.Proofs.Capture
import DeclBridge.Proofs.TypedConstants

/-!
# Where definitions come from

Nothing is defined in the output without a reason.  A definition is there because it was requested,
because a definition that is there itself refers to it, or because it is a constant of a type that
such a definition refers to.  `Plan.Derives` are these three rules, and everything that a run defines
follows by them (`Program.emit_derived`).

A run notes a reference only when the type is defined, and so the reason for a definition may still
be missing while it is made.  The invariant counts the references that have begun along with those
that are noted (`Plan.Accounted`).
-/

namespace DeclBridge

open Emitting Emission List

variable {s : Symbol} {plan : Plan} {e : Emission} {sources : Sources} {patterns : List String}
  {p : Program} {log : List LogLine}

/-! ## References to types -/

namespace Program

/-- What a name of a package that was loaded stands for is a declared type. -/
def TypeAt (p : Program) (path name : String) : Prop :=
  ∀ package, p.packages.get? path = some package →
    ∃ s info, package.symbols.get? name = some s ∧ s.body = .type info

/-- The types of all symbols refer to declared types. -/
def RefersToTypes (p : Program) : Prop :=
  ∀ path package name s, p.packages.get? path = some package →
    package.symbols.get? name = some s → ∀ t ∈ s.types, t.Refers p.Declares

theorem load_refersToTypes (hload : Program.load sources patterns = (.ok p, log)) :
    p.RefersToTypes :=
  fun _ _ _ _ hpackage hs => (load_regular hload hpackage hs).types

theorem Declares.typeAt {isAlias : Bool} {path name : String}
    (h : p.Declares isAlias ⟨some path, name⟩) : p.TypeAt path name := by
  intro package hpackage
  obtain ⟨s, info, hs, hbody, -⟩ := h path package rfl hpackage
  exact ⟨s, info, hs, hbody⟩

end Program

namespace Plan

variable {t u : Ty} {path name k : String}

theorem Expands.refers (hrefers : plan.program.RefersToTypes) (h : plan.Expands t u)
    (ht : t.Refers plan.program.Declares) : u.Refers plan.program.Declares := by
  obtain ⟨embeds, methods, terms, hvisit, hterms, hu⟩ := h
  refine TermSet.mem_within (S := fun u => u.Refers plan.program.Declares) ?_
    (fun v hv => ht.part (Ty.parts_trans hvisit.mem_parts hv)) hterms u hu
  intro reference id declared _ _ hdeclared v hv
  obtain ⟨q, package, s, -, hpackage, hs, hbody⟩ := Program.typeInfo_eq hdeclared
  refine (hrefers q package id.name s hpackage hs declared ?_).part hv
  rw [Symbol.types, hbody]
  exact mem_append_right _ (Option.mem_toList.2 hdeclared)

theorem Cites.typeAt (hsound : plan.program.Sound) (hrefers : plan.program.RefersToTypes)
    (hplace : plan.Place k s) (h : plan.Cites s path name) : plan.program.TypeAt path name := by
  obtain ⟨t, ht, u, hexpand, args, hvisit⟩ := h
  obtain ⟨q, package, -, hpackage, hs⟩ := hplace
  have hs := hsound.get?_of_mem hpackage (mem_values_of_writable hs)
  have hu : u.Refers plan.program.Declares := by
    clear hvisit
    induction hexpand with
    | refl => exact hrefers q package s.name s hpackage hs t (plan.rendered_subset s ht)
    | tail _ hstep ih => exact hstep.refers hrefers ih
  rcases hvisit with hvisit | hvisit
  · exact (Ty.refers_named.1 (hu.part hvisit.mem_parts)).1.typeAt
  · exact (Ty.refers_aliased.1 (hu.part hvisit.mem_parts)).1.typeAt

end Plan

theorem Selection.includes_iff {selection : Selection} {includeUnexported : Bool} :
    selection.includes includeUnexported s = true ↔
      if selection.names = [] then s.exported = true ∨ includeUnexported = true
      else s.name ∈ selection.names := by
  by_cases h : selection.names = [] <;> simp [includes, h]

/-! ## Rules -/

namespace Plan

variable {path name k : String}

/-- The definitions that a request calls for, where `references` are the references that definitions
make. -/
inductive Derives (plan : Plan) (requested : List Selection) (references : List Reference) :
    (path name : String) → Prop
  /-- A symbol that can be written is selected by its name, or by its visibility if there are no
  names. -/
  | selected {selection : Selection} {package : Package} {s : Symbol}
      (hselection : selection ∈ requested)
      (hpackage : plan.program.packages.get? selection.path = some package)
      (hs : package.symbols.get? s.name = some s) (hwritable : s.isWritable = true)
      (hincluded : if selection.names = [] then
          s.exported = true ∨ plan.options.includeUnexported = true
        else s.name ∈ selection.names) :
      Derives plan requested references selection.path s.name
  /-- A definition refers to a type. -/
  | referred {path : String} {r : Reference}
      (hfrom : Derives plan requested references path r.definition)
      (hmodule : plan.names.names.get? path = some r.module) (hr : r ∈ references)
      (htype : plan.program.TypeAt r.path r.name) :
      Derives plan requested references r.path r.name
  /-- A constant comes with the type that a definition refers to. -/
  | companion {path : String} {r : Reference} {package : Package} {s : Symbol} {value : Constant}
      {args : List Ty}
      (hfrom : Derives plan requested references path r.definition)
      (hmodule : plan.names.names.get? path = some r.module) (hr : r ∈ references)
      (hpackage : plan.program.packages.get? r.path = some package)
      (hs : package.symbols.get? s.name = some s)
      (hbody : s.body = .const (some value) (some (.named ⟨some r.path, r.name⟩ args)))
      (hvisible : s.exported = true ∨ plan.options.includeUnexported = true) :
      Derives plan requested references r.path s.name

variable {requested : List Selection} {references references' : List Reference}

theorem Derives.mono (h : plan.Derives requested references path name)
    (hsub : references ⊆ references') : plan.Derives requested references' path name := by
  induction h with
  | selected hselection hpackage hs hwritable hincluded =>
    exact .selected hselection hpackage hs hwritable hincluded
  | referred _ hmodule hr htype ih => exact .referred ih hmodule (hsub hr) htype
  | companion _ hmodule hr hpackage hs hbody hvisible ih =>
    exact .companion ih hmodule (hsub hr) hpackage hs hbody hvisible

/-- Every name that is taken follows by the rules, from the references that are noted or have
begun. -/
def Accounted (plan : Plan) (requested : List Selection) (pending : List Reference)
    (e : Emission) : Prop :=
  ∀ path k n, plan.names.names.get? path = some k → e.taken k n = true →
    plan.Derives requested (pending ++ e.references) path n

variable {pending : List Reference} {r : Reference}

theorem Accounted.withText {text : Text} (h : plan.Accounted requested pending e)
    (hinj : NameTable.Injective plan.names.names) (hk : plan.names.names.get? path = some k)
    (hnew : plan.Derives requested (pending ++ e.references) path name) :
    plan.Accounted requested pending (e.update k (·.withText name text)) := by
  intro path' k' n hpath' htaken
  by_cases heq : k = k' ∧ name = n
  · obtain ⟨rfl, rfl⟩ := heq
    cases hinj hpath' hk
    exact hnew
  · rw [taken_withText_of_ne heq] at htaken
    exact h path' k' n hpath' htaken

/-- The definition that a reference stands in follows by the rules. -/
theorem Accounted.derives_definition (h : plan.Accounted requested pending e)
    (hraises : plan.Raises e r) : ∃ path, plan.names.names.get? path = some r.module ∧
      plan.Derives requested (pending ++ e.references) path r.definition := by
  obtain ⟨-, ⟨path, -, hpath, -⟩, -⟩ := hraises.cited
  exact ⟨path, hpath, h path r.module r.definition hpath hraises.taken⟩

theorem Accounted.derives_type (hsound : plan.program.Sound)
    (hrefers : plan.program.RefersToTypes) (h : plan.Accounted requested (r :: pending) e)
    (hraises : plan.Raises e r) :
    plan.Derives requested (r :: pending ++ e.references) r.path r.name := by
  obtain ⟨path, hpath, hfrom⟩ := h.derives_definition hraises
  obtain ⟨s, hplace, -, hcites⟩ := hraises.cited
  exact .referred hfrom hpath (mem_append_left _ mem_cons_self)
    (hcites.typeAt hsound hrefers hplace)

/-- What comes with a type follows from the reference to the type. -/
theorem Accounted.derives_of_comesWith (hsound : plan.program.Sound)
    (hinj : NameTable.Injective plan.names.names) (hrefers : plan.program.RefersToTypes)
    (h : plan.Accounted requested (r :: pending) e) (hraises : plan.Raises e r)
    (hk : plan.names.names.get? r.path = some k) (hplace : plan.Place k s)
    (hcomes : comesWith plan ⟨some r.path, r.name⟩ s = true) :
    plan.Derives requested (r :: pending ++ e.references) r.path s.name := by
  obtain ⟨package, hpackage, hs⟩ := mem_writable_of_place hinj hk hplace
  have hget := hsound.get?_of_mem hpackage (mem_values_of_writable hs)
  have hwritable := (mem_filter.1 hs).2
  rw [comesWith, Bool.or_eq_true, decide_eq_true_eq] at hcomes
  rcases hcomes with hname | hcompanion
  · rw [hname]
    exact h.derives_type hsound hrefers hraises
  · rw [isCompanion] at hcompanion
    split at hcompanion
    · rename_i value type args hbody
      rw [Bool.and_eq_true, decide_eq_true_eq, Bool.or_eq_true] at hcompanion
      obtain ⟨rfl, hvisible⟩ := hcompanion
      rw [Symbol.isWritable, hbody] at hwritable
      obtain ⟨value, rfl⟩ := Option.isSome_iff_exists.1 hwritable
      obtain ⟨path, hpath, hfrom⟩ := h.derives_definition hraises
      exact .companion hfrom hpath (mem_append_left _ mem_cons_self) hpackage hget hbody
        hvisible
    · cases hcompanion

theorem Accounted.sameTexts {e' : Emission} (h : plan.Accounted requested pending e)
    (hsame : e.SameTexts e') : plan.Accounted requested pending e' := by
  intro path k n hpath htaken
  rw [hsame.taken] at htaken
  rw [hsame.references]
  exact h path k n hpath htaken

/-- Every step of a run keeps account of what it defines. -/
theorem maintains_accounted (hsound : plan.program.Sound)
    (hinj : NameTable.Injective plan.names.names) (hrefers : plan.program.RefersToTypes) :
    plan.Maintains (plan.Accounted requested) where
  same hquiet h := h.sameTexts hquiet.toSameTexts
  imported _ h := h.sameTexts (sameTexts_addImport _ _ _)
  opened _ _ _ h path k n hpath htaken :=
    (h path k n hpath htaken).mono (subset_cons_self _ _)
  reserve hk hraises hplace hcomes _ _ h :=
    h.withText hinj hk (h.derives_of_comesWith hsound hinj hrefers hraises hk hplace hcomes)
  write {P e k s text} hplace hk hreserved _ _ h := by
    obtain ⟨path, -, hpath, -⟩ := hplace
    refine h.withText hinj hpath (h path k s.name hpath ?_)
    by_contra hfree
    rw [not_reserved_of_not_taken (Bool.eq_false_of_not_eq_true hfree)] at hreserved
    cases hreserved
  unknown _ _ hk hraises _ _ _ h := h.withText hinj hk (h.derives_type hsound hrefers hraises)
  closed {P e r k} _ _ _ _ h path k n hpath htaken := by
    refine (h path k n hpath htaken).mono fun r' hr' => ?_
    rcases mem_append.1 hr' with hr' | hr'
    · rcases mem_cons.1 hr' with rfl | hr'
      · exact mem_append_right _ mem_concat_self
      · exact mem_append_left _ hr'
    · exact mem_append_right _ (mem_append_left _ hr')
  noted {P e r k} _ _ _ h path k n hpath htaken :=
    (h path k n hpath htaken).mono
      ((sublist_append_left e.references [r]).append_left P).subset

theorem forall_raises_note (hraises : plan.Raises e r) (h : ∀ r' ∈ e.references, plan.Raises e r') :
    ∀ r' ∈ (e.note r).references, plan.Raises (e.note r) r' := by
  intro r' hr'
  have hr' : plan.Raises e r' := by
    rcases mem_append.1 hr' with hr' | hr'
    · exact h r' hr'
    · exact mem_singleton.1 hr' ▸ hraises
  exact ⟨hr'.cited, hr'.taken⟩

/-- The definitions that references stand in stay. -/
theorem maintains_raises : plan.Maintains fun _ e => ∀ r ∈ e.references, plan.Raises e r where
  same {_ e e'} hquiet h r hr := by
    rw [hquiet.references] at hr
    exact ⟨(h r hr).cited, by rw [hquiet.toSameTexts.taken, (h r hr).taken]⟩
  imported _ h r hr :=
    ⟨(h r hr).cited, by rw [(sameTexts_addImport _ _ _).taken, (h r hr).taken]⟩
  opened _ _ _ h := h
  reserve _ _ _ _ _ _ h r hr :=
    (h r hr).extends (extends_update fun _ _ => Module.extends_withText)
  write _ _ _ _ _ h r hr :=
    (h r hr).extends (extends_update fun _ _ => Module.extends_withText)
  unknown _ _ _ _ _ _ _ h r hr :=
    (h r hr).extends (extends_update fun _ _ => Module.extends_withText)
  closed _ hraises _ _ h := forall_raises_note hraises h
  noted _ hraises _ h := forall_raises_note hraises h

end Plan

/-! ## Runs -/

/-- Where a reference stands: in a definition of the output.  One of the types that the symbol of the
definition is written from comes to the type that is referred to.  A type with an override is written
from the constraints of its parameters only. -/
def Run.Places (plan : Plan) (run : Run) (r : Reference) : Prop :=
  ∃ m package s, run.graph.modules.get? r.module = some m ∧ m.has r.definition = true ∧
    plan.program.packages.get? m.packagePath = some package ∧
    package.symbols.get? r.definition = some s ∧
    ∃ t ∈ plan.rendered s, plan.Mentions t r.path r.name ∧
      ∀ info, s.body = .type info → (plan.override? (plan.overrideName s.id)).isSome = true →
        ∃ param ∈ info.params, param.constraint = some t

/-- What a definition with an override is written from. -/
theorem Plan.constraint_of_rendered {t : Ty} {info : TypeInfo}
    (ht : t ∈ plan.rendered s) (hbody : s.body = .type info)
    (hover : (plan.override? (plan.overrideName s.id)).isSome = true) :
    ∃ param ∈ info.params, param.constraint = some t := by
  rw [rendered, hbody] at ht
  simp only [hover, if_true, append_nil] at ht
  exact mem_filterMap.1 ht

namespace Program

variable {primary : Selection} {others : List Selection} {options : Options}

/-- The references of a run come from definitions. -/
theorem walk_raises (hsound : p.Sound)
    (hplan : plan = Plan.ofRequest p primary others options) {limit count : Nat}
    (hmade : (defineRequested plan limit count
      (p.requested (primary :: others))).run.run plan.start = (.ok (), e)) :
    ∀ r ∈ e.references, plan.Raises e r := by
  refine (walk_maintains hsound hplan Plan.maintains_raises (fun k s e' _ _ h r hr => ?_)
    (forall_mem_nil _) hmade).2
  exact (h r hr).extends (extends_update fun _ _ => Module.extends_withText)

/-- Whatever a run of a loaded program defines follows from what was requested by the references of
definitions, which stand in definitions of the output themselves. -/
theorem emit_derived (hload : Program.load sources patterns = (.ok p, log)) {run : Run}
    (hrun : p.emit primary others options = .ok run) :
    (∀ m ∈ run.graph.modules.values, ∀ n, m.has n = true →
      (Plan.ofRequest p primary others options).Derives (primary :: others) run.references
        m.packagePath n) ∧
    ∀ r ∈ run.references, run.Places (Plan.ofRequest p primary others options) r := by
  have hsound := load_sound hload
  obtain ⟨e, hmade, rfl⟩ := exists_walk hrun
  set plan := Plan.ofRequest p primary others options
  have hinj : NameTable.Injective plan.names.names := NameTable.build_injective _ _ _
  -- what the walk comes to is selected
  have hturn : ∀ k s e', plan.Comes p.typeParts.length (p.symbolCount + 2)
      (p.requested (primary :: others)) plan.start k s e' →
      plan.Accounted (primary :: others) [] e' →
      plan.Accounted (primary :: others) [] (e'.update k (·.withText s.name .empty)) := by
    intro k s e' hcomes h
    obtain ⟨request, hrequest, hk, hs, hselected⟩ := exists_request_of_comes hcomes
    obtain ⟨hselection, hfound⟩ := mem_requested.1 hrequest
    rw [(hsound _ _ hfound).path_eq] at hk
    refine h.withText hinj hk (.selected hselection hfound
      (hsound.get?_of_mem hfound (mem_values_of_writable hs)) (mem_filter.1 hs).2 ?_)
    exact Selection.includes_iff.1 hselected
  have hstart : plan.Accounted (primary :: others) [] plan.start := by
    intro path k n _ htaken
    cases htaken
  obtain ⟨⟨hsound', -⟩, haccounted⟩ := walk_maintains hsound rfl
    (Plan.maintains_accounted hsound hinj (load_refersToTypes hload))
    (fun k s e' hcomes _ => hturn k s e' hcomes) hstart hmade
  have hraises := walk_raises hsound rfl hmade
  refine ⟨fun m hm n hn => ?_, fun r hr => ?_⟩
  · have hget := hsound'.module?_name hm
    refine haccounted m.packagePath m.name n (hsound'.modules m.name m hget).path ?_
    rw [taken, hget]
    exact hn
  · obtain ⟨⟨s, hplace, hname, t, ht, hmentions⟩, htaken⟩ := hraises r hr
    obtain ⟨m, hm, hhas⟩ := (Option.any_eq_true _ _).1 htaken
    obtain ⟨package, hpackage, hs⟩ :=
      mem_writable_of_place hinj (hsound'.modules r.module m hm).path hplace
    refine ⟨m, package, s, hm, hhas, hpackage, ?_, t, ht, hmentions, fun info hbody hover => ?_⟩
    · rw [← hname]
      exact hsound.get?_of_mem hpackage (mem_values_of_writable hs)
    · exact Plan.constraint_of_rendered ht hbody hover

/-- A type with a constant, and a type that refers to it. -/
def penSources : SourceTable where
  packages := ⟨[("p", ⟨[("p.go", "package p\ntype Color string\nconst Red Color = \"red\"\n" ++
    "type Pen struct { Ink Color }\n")]⟩)]⟩

def penProgram : Program where
  packages := ⟨[("p", { path := "p", name := "p", files := ["p.go"], symbols := ⟨[
    ("Color", ⟨"Color", some "p", ⟨some "p.go", some 2, some 6⟩,
      .type { underlying := some (.basic .string) }⟩),
    ("Pen", ⟨"Pen", some "p", ⟨some "p.go", some 4, some 6⟩, .type { underlying := some (.struct
      [⟨"Ink", .named ⟨some "p", "Color"⟩ [], "", false, true,
        ⟨some "p.go", some 4, some 19⟩⟩]) }⟩),
    ("Red", ⟨"Red", some "p", ⟨some "p.go", some 3, some 7⟩,
      .const (some (.str "red")) (some (.named ⟨some "p", "Color"⟩ []))⟩)]⟩ })]⟩

theorem load_penSources : ∃ log, Program.load penSources.sources ["p"] = (.ok penProgram, log) :=
  ⟨_, Prod.ext (by cbv) rfl⟩

/-- The type that `Pen` refers to is there, with its constant. -/
theorem emit_derived_pen : ∃ log run,
    Program.load penSources.sources ["p"] = (.ok penProgram, log) ∧
    penProgram.emit ⟨"p", ["Pen"]⟩ [] {} = .ok run ∧
    run.graph.modules.values.map (fun m => (m.packagePath, m.definitions.keys)) =
      [("p", ["Pen", "Color", "Red"])] ∧ (∀ m ∈ run.graph.modules.values, ∀ n, m.has n = true →
      (Plan.ofRequest penProgram ⟨"p", ["Pen"]⟩ [] {}).Derives [⟨"p", ["Pen"]⟩] run.references
        m.packagePath n) ∧
    ∀ r ∈ run.references, run.Places (Plan.ofRequest penProgram ⟨"p", ["Pen"]⟩ [] {}) r := by
  obtain ⟨log, hload⟩ := load_penSources
  have hshape : (penProgram.emit ⟨"p", ["Pen"]⟩ [] {}).toOption.map (fun run =>
      run.graph.modules.values.map fun m => (m.packagePath, m.definitions.keys)) =
      some [("p", ["Pen", "Color", "Red"])] := by cbv
  obtain ⟨run, hok, hshape⟩ := Option.map_eq_some_iff.1 hshape
  exact ⟨log, run, hload, eq_ok_of_toOption hok, hshape, emit_derived hload (eq_ok_of_toOption hok)⟩

end Program

end DeclBridge
