import DeclBridge.Output.Definition
import DeclBridge.Proofs.Computation
import DeclBridge.Proofs.ValueFaults
import Mathlib.Logic.Relation

/-!
# What the text of a type depends on

The text of a type is made from references to declared types and from the terms of interfaces; the
rest is fixed by the plan.  `Plan.Visits` says which of its parts `typeText` comes to, and from it
follow the references that are made (`Plan.Refers`) and the types that interfaces are expanded to
(`Plan.Expands`).  `typeText_returns` is what proofs about the output use: whatever the parameters,
references and expansions of a type have and keep, its text has and keeps.

Besides those of its references and expansions, `typeText` has the faults of field tags only.
-/

namespace DeclBridge

open List

/-- Faults of literals, tags and messages, as opposed to those of a program whose parts do not fit
together. -/
def Fault.OfText : Fault → Prop
  | .unnamedModule _ | .missingType | .alreadyDefined _ _ | .endlessType => False
  | _ => True

/-! ## Faults of texts -/

theorem Fault.OfValue.ofText {f : Fault} (h : f.OfValue) : f.OfText := by
  cases f <;> first | exact h.elim | trivial

theorem Tag.outputName_fault {declared tag : String} {f : Fault}
    (h : outputName declared tag = .error f) : f.OfText := by
  cases hlookup : lookup tag "json" with
  | ok value =>
    simp only [outputName, json, hlookup] at h
    cases value with
    | none => cases h
    | some value =>
      simp only [bind, Except.bind, pure, Except.pure, Option.map_some] at h
      split at h <;> cases h
  | error why =>
    simp only [outputName, json, hlookup] at h
    cases h
    simp only [lookup] at hlookup
    split at hlookup
    · cases hlookup
    · split at hlookup
      · cases hlookup
      · cases hlookup
      · cases hlookup
        exact Fault.OfValue.ofText ((unquote_failsOnly _).of_error (.fault f) ‹_›).1

/-! ## The shape of a struct -/

namespace StructShape

variable {β : Type} {info : SymbolId → TypeInfo} {includeUnexported : Bool}

variable {b type : β} {shape : StructShape β} {f : Field Ty} {fields : List (Field Ty × β)}
    {why : Fault}

/-- Whether a field appears in the output. -/
def Shows (info : SymbolId → TypeInfo) (includeUnexported : Bool) (f : Field Ty) : Prop :=
  ∃ name, appearance info includeUnexported f = .ok (some name)

theorem appearance_fault (h : appearance info includeUnexported f = .error why) : why.OfText := by
  simp only [appearance] at h
  split at h
  · exact Tag.outputName_fault h
  · cases h

/-- The types in a shape: those of the properties, then those that are merged in. -/
def types (shape : StructShape β) : List β := shape.properties.map (·.type) ++ shape.embeds

theorem mem_types_add {appearing : Option Tag.OutputName} :
    b ∈ (shape.add appearing type).types ↔ b ∈ shape.types ∨ appearing ≠ none ∧ b = type := by
  cases appearing with
  | none => simp [add]
  | some name =>
    simp only [add]
    split
    · simp [types, or_assoc]
    · simp only [types, map_append, mem_append, map_cons, map_nil,
        mem_singleton, ne_eq, reduceCtorEq, not_false_eq_true, true_and]
      tauto

theorem mem_types_addField {shape' : StructShape β}
    (h : addField info includeUnexported shape (f, type) = .ok shape') :
    b ∈ shape'.types ↔ b ∈ shape.types ∨ Shows info includeUnexported f ∧ b = type := by
  cases happ : appearance info includeUnexported f with
  | error why =>
    simp only [addField, happ] at h
    cases h
  | ok appearing =>
    simp only [addField, happ] at h
    cases h
    rw [mem_types_add]
    simp only [Shows, happ, Except.ok.injEq, Option.ne_none_iff_exists']

/-- The types of a shape are those of the fields that appear. -/
theorem mem_types_ofFields (h : ofFields info includeUnexported fields = .ok shape) :
    b ∈ shape.types ↔ ∃ f, (f, b) ∈ fields ∧ Shows info includeUnexported f := by
  -- the fold starts at any shape, whose types come on top of those of the fields
  have hfold : ∀ shape₀ : StructShape β,
      fields.foldlM (addField info includeUnexported) shape₀ = .ok shape →
      (b ∈ shape.types ↔
        b ∈ shape₀.types ∨ ∃ f, (f, b) ∈ fields ∧ Shows info includeUnexported f) := by
    clear h
    induction fields with
    | nil =>
      intro shape₀ h
      cases h
      simp
    | cons field rest ih =>
      intro shape₀ h
      obtain ⟨f, type⟩ := field
      rw [foldlM_cons] at h
      cases hadd : addField info includeUnexported shape₀ (f, type) with
      | error why =>
        rw [hadd] at h
        cases h
      | ok shape₁ =>
        rw [hadd] at h
        rw [ih shape₁ h, mem_types_addField hadd, or_assoc]
        refine or_congr_right ⟨?_, ?_⟩
        · rintro (⟨hshow, rfl⟩ | ⟨g, hg, hshow⟩)
          · exact ⟨f, mem_cons_self, hshow⟩
          · exact ⟨g, mem_cons_of_mem _ hg, hshow⟩
        · rintro ⟨g, hg, hshow⟩
          rcases mem_cons.1 hg with heq | hg
          · obtain ⟨rfl, rfl⟩ := Prod.mk.inj heq
            exact .inl ⟨hshow, rfl⟩
          · exact .inr ⟨g, hg, hshow⟩
  rw [hfold {} h]
  simp [types]

/-- The faults of a shape are those of tags. -/
theorem ofFields_fault (h : ofFields info includeUnexported fields = .error why) : why.OfText := by
  rw [ofFields] at h
  generalize ({} : StructShape β) = shape₀ at h
  induction fields generalizing shape₀ with
  | nil => cases h
  | cons field rest ih =>
    rw [foldlM_cons] at h
    cases happ : appearance info includeUnexported field.1 with
    | error failure =>
      simp only [addField, happ] at h
      cases h
      exact appearance_fault happ
    | ok appearing =>
      simp only [addField, happ] at h
      exact ih _ h

end StructShape

/-! ## References and expansions -/

namespace Plan

/-- A type directly inside another whose text becomes part of the other's. -/
inductive Writes (plan : Plan) : Ty → Ty → Prop
  | pointer {elem : Ty} : Writes plan (.pointer elem) elem
  | array {elem : Ty} {length : Int} : Writes plan (.array elem length) elem
  | slice {elem : Ty} : Writes plan (.slice elem) elem
  | map {key elem : Ty} : Writes plan (.map key elem) elem
  | field {fields : List (Field Ty)} {f : Field Ty} (hf : f ∈ fields)
      (hshow : StructShape.Shows plan.program.typeInfo plan.options.includeUnexported f) :
      Writes plan (.struct fields) f.type
  | arg {path name : String} {args : List Ty} {t : Ty} (ht : t ∈ args) :
      Writes plan (.named ⟨some path, name⟩ args) t
  | aliasArg {path name : String} {args : List Ty} {t : Ty} (ht : t ∈ args) :
      Writes plan (.aliased ⟨some path, name⟩ args) t
  | term {terms : List (Term Ty)} {t : Term Ty} (ht : t ∈ terms) :
      Writes plan (.union terms) t.type

/-- The text of a type comes to a type inside it. -/
def Visits (plan : Plan) : Ty → Ty → Prop := Relation.ReflTransGen plan.Writes

/-- The text of a type refers to a declared type. -/
def Refers (plan : Plan) (t : Ty) (path name : String) : Prop :=
  ∃ args, plan.Visits t (.named ⟨some path, name⟩ args) ∨
    plan.Visits t (.aliased ⟨some path, name⟩ args)

/-- The text of a type comes to an interface that has a type among its terms. -/
def Expands (plan : Plan) (t u : Ty) : Prop :=
  ∃ embeds methods terms, plan.Visits t (.interface embeds methods) ∧
    plan.program.termSet (.interface embeds methods) = some terms ∧ u ∈ terms

variable {plan : Plan} {t c u : Ty}

theorem Writes.refers (h : plan.Writes t c) {path name : String} (hc : plan.Refers c path name) :
    plan.Refers t path name := by
  obtain ⟨args, hc | hc⟩ := hc
  · exact ⟨args, .inl (.head h hc)⟩
  · exact ⟨args, .inr (.head h hc)⟩

theorem Writes.expands (h : plan.Writes t c) (hc : plan.Expands c u) : plan.Expands t u := by
  obtain ⟨embeds, methods, terms, hvisit, hterms, hu⟩ := hc
  exact ⟨embeds, methods, terms, .head h hvisit, hterms, hu⟩

end Plan

/-- A property that a text has if the texts that it is put together from have it. -/
structure Plan.Composes (plan : Plan) (G : Text → Prop) : Prop where
  basic (kind : Kind) : G (plan.basicText kind)
  predeclared (name : String) : G (plan.predeclaredText name)
  unwritten (note : Text) : G (plan.options.fallback ++ note)
  nullable {a : Text} : G a → G (TypeText.nullable a)
  arrayOf {a : Text} : G a → G (TypeText.arrayOf a)
  recordOf {a : Text} : G a → G (TypeText.recordOf a)
  object {shape : StructShape Text} : (∀ a ∈ shape.types, G a) → G (TypeText.object shape)
  reference {a : Text} {args : List Text} :
    G a → (∀ b ∈ args, G b) → G (a ++ TypeText.bracketed args)
  alternatives {texts : List Text} :
    (∀ a ∈ texts, G a) → G (Emitting.alternativesText plan texts)

theorem Plan.composes_true (plan : Plan) : plan.Composes fun _ => True := by
  constructor <;> intros <;> trivial

namespace Emitting

variable {plan : Plan} {refer : (path name : String) → Emitting Text}
  {expand : Ty → Emitting Text} {I : Emission → Prop} {F : Fault → Prop}

theorem typeTexts_eq (ts : List Ty) :
    typeTexts plan refer expand ts = ts.mapM (typeText plan refer expand) := by
  induction ts with
  | nil => rfl
  | cons t ts ih => rw [typeTexts, ih, mapM_cons]

theorem termTexts_eq (ts : List (Term Ty)) :
    termTexts plan refer expand ts = ts.mapM (typeText plan refer expand ·.type) := by
  induction ts with
  | nil => rfl
  | cons t ts ih => rw [termTexts, ih, mapM_cons, termText]

theorem fieldTexts_eq (fs : List (Field Ty)) :
    fieldTexts plan refer expand fs = fs.map fun f => (f, typeText plan refer expand f.type) := by
  induction fs with
  | nil => rfl
  | cons f fs ih => rw [fieldTexts, ih, map_cons, fieldText]

theorem lift_keeps {α : Type} {r : Except Fault α} (h : ∀ f, r = .error f → F f) :
    Keeps I F (lift r) :=
  .result (fun _ _ _ hs => hs) fun f hf _ _ => h f hf

theorem objectText_returns {G : Text → Prop} (hG : plan.Composes G)
    {shape : StructShape (Emitting Text)} (h : ∀ x ∈ shape.types, Returns I F x G) :
    Returns I F (objectText shape) G := by
  refine (Returns.mapM (R := (G ·.type)) fun p hp => ?_).bind fun properties hproperties => ?_
  · exact (h _ (mem_append_left _ (mem_map_of_mem hp))).bind fun _ ha => .pure ha
  · refine (Returns.mapM fun x hx => h x (mem_append_right _ hx)).bind fun embeds hembeds => ?_
    exact .pure (hG.object (forall_mem_append.2 ⟨forall_mem_map.2 hproperties, hembeds⟩))

/-- The text of a type is put together from the parameters that it comes to, its references and its
expansions.  What all of these keep and yield, the text keeps and yields. -/
theorem typeText_returns {G : Text → Prop} (hG : plan.Composes G) (hF : ∀ f, f.OfText → F f) (t : Ty)
    (hparam : ∀ (name : String) index, plan.Visits t (.param name index) → G name)
    (hrefer : ∀ path name, plan.Refers t path name → Returns I F (refer path name) G)
    (hexpand : ∀ u, plan.Expands t u → Returns I F (expand u) G) :
    Returns I F (typeText plan refer expand t) G := by
  have hreference {args : List Ty} {path name : String} (hname : plan.Refers t path name)
      (hargs : ∀ a ∈ args, Returns I F (typeText plan refer expand a) G) : Returns I F
        (referenceText plan refer ⟨some path, name⟩ (typeTexts plan refer expand args)) G := by
    rw [typeTexts_eq]
    exact (hrefer path name hname).bind fun _ ha => (Returns.mapM hargs).bind fun _ hbs =>
      .pure (hG.reference ha hbs)
  -- the induction is over what is visited, so that the hypotheses stay about `t`
  suffices h : ∀ c, plan.Visits t c → Returns I F (typeText plan refer expand c) G from h t .refl
  intro c hc
  induction c with
  | basic kind => exact .pure (hG.basic kind)
  | param name index => exact .pure (hparam name index hc)
  | chan | func => exact .pure (hG.unwritten _)
  | pointer elem ih => exact (ih (hc.tail .pointer)).bind fun _ ha => .pure (hG.nullable ha)
  | array elem length ih => exact (ih (hc.tail .array)).bind fun _ ha => .pure (hG.arrayOf ha)
  | slice elem ih => exact (ih (hc.tail .slice)).bind fun _ ha => .pure (hG.arrayOf ha)
  | map key elem _ ih => exact (ih (hc.tail .map)).bind fun _ ha => .pure (hG.recordOf ha)
  | struct fields ih =>
    rw [typeText, fieldTexts_eq]
    refine Triple.result_bind (fun shape hshape => ?_) fun f hf _ _ =>
      hF f (StructShape.ofFields_fault hf)
    refine objectText_returns hG fun x hx => ?_
    obtain ⟨f, hf, hshow⟩ := (StructShape.mem_types_ofFields hshape).1 hx
    obtain ⟨g, hg, heq⟩ := mem_map.1 hf
    obtain ⟨rfl, rfl⟩ := Prod.mk.inj heq
    exact ih g hg (hc.tail (.field hg hshow))
  | named symbol args ih =>
    obtain ⟨_ | path, name⟩ := symbol
    · exact .pure (hG.predeclared name)
    · exact hreference ⟨args, .inl hc⟩ fun a ha => ih a ha (hc.tail (.arg ha))
  | aliased symbol args ih =>
    obtain ⟨_ | path, name⟩ := symbol
    · exact .pure (hG.predeclared name)
    · exact hreference ⟨args, .inr hc⟩ fun a ha => ih a ha (hc.tail (.aliasArg ha))
  | interface embeds methods =>
    rw [typeText]
    refine (Returns.mapM fun u hu => ?_).bind fun _ ha => .pure (hG.alternatives ha)
    cases hterms : plan.program.termSet (.interface embeds methods) with
    | none =>
      rw [hterms] at hu
      exact absurd hu not_mem_nil
    | some terms =>
      rw [hterms] at hu
      exact hexpand u ⟨embeds, methods, terms, hc, hterms, hu⟩
  | union terms ih =>
    rw [typeText, termTexts_eq]
    refine (Returns.mapM fun t ht => ?_).bind fun _ ha => .pure (hG.alternatives ha)
    exact ih t ht (hc.tail (.term ht))

/-- What all references and expansions of a type keep, its text keeps. -/
theorem typeText_keeps (hF : ∀ f, f.OfText → F f) (t : Ty)
    (hrefer : ∀ path name, plan.Refers t path name → Keeps I F (refer path name))
    (hexpand : ∀ u, plan.Expands t u → Keeps I F (expand u)) :
    Keeps I F (typeText plan refer expand t) :=
  (typeText_returns plan.composes_true hF t (fun _ _ _ => trivial)
    (fun path name h => (hrefer path name h).returns) fun u h => (hexpand u h).returns).keeps

end Emitting

end DeclBridge
