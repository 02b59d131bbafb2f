import DeclBridge.Output.Expression
import DeclBridge.Proofs.MovedOutput

/-!
# Type expressions by their spelling and by what they stand for

The text of a type expression can be made from its spelling alone (`TypeExpr.outputText`), or from
the type that it is resolved to (`Emitting.typeText`).  For expressions of basic types, which are
written by their names, the two texts are the same (`TypeExpr.outputText_agrees`).

The spelling is gone through as a whole, also where a type belongs to fields that are not shown.  So
the first text may fail for a tag that the second does not look at.
-/

namespace DeclBridge

open Emitting List Resolving

variable {P : String → Prop} {e : TypeExpr} {t : Ty} {S S₁ : Store} {env : Surroundings}
  {resolve : String → Resolving Unit} {scope : Scope} {params : Table String Ty} {plan : Plan}
  {refer : (path name : String) → Emitting Text} {expand : Ty → Emitting Text}
  {fields : List (Field Ty)}

/-- The tag of a line of a struct. -/
def FieldDecl.tag? {α : Type} : FieldDecl α → Option Literal
  | .named _ _ _ tag | .embedded _ _ _ tag => tag

/-- A type expression of basic types under their own names, pointers, slices, arrays, maps, structs
that embed nothing, and interfaces of methods.  The texts of its tags are in `P`. -/
inductive TypeExpr.Plain (P : String → Prop) : TypeExpr → Prop
  | basic {pos : Position} {kind : Kind} (h : Kind.ofTypeName? kind.spelling = some kind) :
    Plain P (.ref pos none kind.spelling [])
  | pointer {pos : Position} {elem : TypeExpr} (h : Plain P elem) : Plain P (.pointer pos elem)
  | slice {pos : Position} {elem : TypeExpr} (h : Plain P elem) : Plain P (.slice pos elem)
  | array {pos : Position} {length : Expr} {elem : TypeExpr} (h : Plain P elem) :
    Plain P (.array pos length elem)
  | map {pos : Position} {key elem : TypeExpr} (h : Plain P elem) : Plain P (.map pos key elem)
  | struct {pos : Position} {fields : List (FieldDecl TypeExpr)}
    (hembeds : ∀ d ∈ fields, d.embeds? = none)
    (htags : ∀ d ∈ fields, ∃ s, tagOf d.tag? = .ok s ∧ P s)
    (htypes : ∀ d ∈ fields, ∀ t, d.type? = some t → Plain P t) : Plain P (.struct pos fields)
  | interface {pos : Position} {methods : List String} : Plain P (.interface pos [] methods)

/-! ## Failures -/

/-- The fault of a tag with a text in `P`. -/
def ExpressionError.OfTag (P : String → Prop) (e : ExpressionError) : Prop :=
  ∃ s why, P s ∧ Tag.json s = .error why ∧ e = .fault why

theorem Tag.outputName_failsOnly (declared tag : String) :
    FailsOnly (fun why => json tag = .error why) (outputName declared tag) := by
  rw [outputName]
  cases json tag with
  | error why => exact .error rfl
  | ok value =>
    cases value with
    | none => exact .ok _
    | some value =>
      simp only [bind, Except.bind]
      split <;> exact .ok _

/-- The fault of a tag: the literal has no text, or the text has no `json` value for it. -/
def Literal.TagFault (l : Literal) (why : Fault) : Prop :=
  l.stringValue = .error (.fault why) ∨ ∃ s, l.stringValue = .ok s ∧ Tag.json s = .error why

namespace TypeExpr

variable {F : ExpressionError → Prop} {fallback : Text}

theorem tagged_failsOnly {tag : Option Literal}
    (h : ∀ l ∈ tag, ∀ why, l.TagFault why → F (.fault why)) (type : Text)
    (shape : StructShape Text) (names : List String) :
    FailsOnly F (tagOf tag >>= fun s => addNames s type shape names) := by
  have hnames {s : String} (hs : ∀ why, Tag.json s = .error why → F (.fault why)) :
      FailsOnly F (addNames s type shape names) := by
    refine FailsOnly.foldlM (fun shape declared _ => ?_) shape
    refine FailsOnly.bind ?_ fun _ => .ok _
    exact (Tag.outputName_failsOnly declared s).mapError hs
  have hempty : FailsOnly F (addNames "" type shape names) := hnames fun _ h => by cases h
  cases tag with
  | none => exact hempty
  | some l =>
    rw [tagOf]
    cases hl : l.stringValue with
    | ok s => exact hnames fun why hwhy => h l rfl why (.inr ⟨s, hl, hwhy⟩)
    | error why =>
      cases why with
      | invalid => exact hempty
      | fault why => exact .error (h l rfl why (.inl hl))

theorem outputFields_failsOnly {ds : List (FieldDecl TypeExpr)} (shape : StructShape Text)
    (htags : ∀ d ∈ ds, ∀ l ∈ d.tag?, ∀ why, l.TagFault why → F (.fault why))
    (htypes : ∀ d ∈ ds, ∀ t, d.type? = some t → FailsOnly F (t.outputText fallback)) :
    FailsOnly F (outputFields fallback shape ds) := by
  induction ds generalizing shape with
  | nil => exact .ok _
  | cons d ds ih =>
    rw [forall_mem_cons] at htags htypes
    rw [outputFields]
    refine FailsOnly.bind ?_ fun shape => ih shape htags.2 htypes.2
    cases d with
    | named pos names t tag =>
      rw [outputField]
      exact (htypes.1 t rfl).bind fun type => tagged_failsOnly htags.1 type shape _
    | embedded pos star n tag =>
      rw [outputField]
      exact tagged_failsOnly htags.1 _ shape _

/-- The spelling fails only for a tag. -/
theorem Plain.failsOnly (h : e.Plain P) (fallback : Text) :
    FailsOnly (ExpressionError.OfTag P) (e.outputText fallback) := by
  induction h with
  | basic | interface => exact .ok _
  | pointer _ ih | slice _ ih | array _ ih | map _ ih => exact ih.bind fun _ => .ok _
  | struct hembeds htags htypes ih =>
    rw [outputText]
    refine (outputFields_failsOnly {} (fun d hd l hl why hwhy => ?_) ih).bind fun _ => .ok _
    obtain ⟨s, hs, hP⟩ := htags d hd
    rw [show d.tag? = some l from hl, tagOf] at hs
    rcases hwhy with hwhy | ⟨s', hs', hjson⟩
    · rw [hwhy] at hs
      cases hs
    · rw [hs'] at hs
      cases hs
      exact ⟨s, why, hP, hjson, rfl⟩

end TypeExpr

/-! ## Fields -/

namespace Resolving

variable {pos : Position} {seen : List String}

/-- The field with a name on a line without embedded types. -/
def lineField (scope : Scope) (pos : Position) (type : Ty) (tag name : String) : Field Ty :=
  ⟨name, type, tag, false, isExported name, .ofPosition scope.file pos⟩

theorem eq_of_lineFields {type : Ty} {tag : String} {names : List String}
    (h : (lineFields scope pos type tag false seen names).run.run S = (.ok fields, S₁)) :
    fields = names.map (lineField scope pos type tag) := by
  induction names generalizing seen fields S₁ with
  | nil =>
    cases h
    rfl
  | cons name names ih =>
    rw [lineFields] at h
    split at h
    · cases h
    · obtain ⟨more, S₂, hmore, h⟩ := Computation.bind_eq_ok h
      cases h
      rw [ih hmore]
      rfl

theorem tagOf_of_tagText {tag : Option Literal} {s : String}
    (h : (tagText pos tag).run.run S = (.ok s, S₁)) : TypeExpr.tagOf tag = .ok s := by
  cases tag with
  | none =>
    cases h
    rfl
  | some l =>
    rw [tagText] at h
    rw [TypeExpr.tagOf]
    cases hl : l.stringValue with
    | error e =>
      rw [hl] at h
      cases h
    | ok value =>
      rw [hl] at h
      cases h
      rfl

/-- The names of a line that are exported are shown. -/
theorem addNames_eq (info : SymbolId → TypeInfo) (scope : Scope) (pos : Position) (type : Ty)
    (tag : String) (text : Text) (names : List String) (shape : StructShape Text) :
    TypeExpr.addNames tag text shape (names.filter isExported) =
      ((names.map fun name => (lineField scope pos type tag name, text)).foldlM
        (StructShape.addField info false) shape).mapError .fault := by
  induction names generalizing shape with
  | nil => rfl
  | cons name names ih =>
    rw [map_cons, foldlM_cons, StructShape.addField, StructShape.appearance,
      StructShape.declaredName, lineField]
    cases hname : isExported name with
    | false =>
      rw [filter_cons_of_neg (by simp [hname])]
      exact ih shape
    | true =>
      rw [filter_cons_of_pos hname, TypeExpr.addNames, foldlM_cons]
      simp only [Bool.false_and, Bool.false_eq_true, if_false, Bool.false_or, if_true]
      cases Tag.outputName name tag with
      | error why => rfl
      | ok appearing => exact ih (shape.add appearing text)

/-- The fields of a struct with the texts of their types have the shape that the lines have. -/
theorem exists_texts {ds : List (FieldDecl TypeExpr)} {fallback : Text}
    {shape shape' : StructShape Text} (hembeds : ∀ d ∈ ds, d.embeds? = none)
    (htypes : ∀ d ∈ ds, ∀ e, d.type? = some e → ∀ t S S₁ text,
      (typeOf env resolve scope params e).run.run S = (.ok t, S₁) →
      e.outputText fallback = .ok text → typeText plan refer expand t = pure text)
    (hfields : (fieldsOf env resolve scope params seen ds).run.run S = (.ok fields, S₁))
    (hshape : TypeExpr.outputFields fallback shape ds = .ok shape') :
    ∃ pairs : List (Field Ty × Text), pairs.map Prod.fst = fields ∧
      (∀ q ∈ pairs, typeText plan refer expand q.1.type = pure q.2) ∧
      pairs.foldlM (StructShape.addField plan.program.typeInfo false) shape = .ok shape' := by
  induction ds generalizing seen fields shape S with
  | nil =>
    cases hfields
    cases hshape
    exact ⟨[], rfl, forall_mem_nil _, rfl⟩
  | cons d ds ih =>
    rw [forall_mem_cons] at hembeds htypes
    rw [fieldsOf] at hfields
    rw [TypeExpr.outputFields] at hshape
    obtain ⟨line, S₂, hline, hfields⟩ := Computation.bind_eq_ok hfields
    obtain ⟨more, S₃, hmore, hfields⟩ := Computation.bind_eq_ok hfields
    cases hfields
    obtain ⟨shape₁, hshape₁, hshape⟩ := eq_ok_of_bind hshape
    obtain ⟨pairs, rfl, htexts, hpairs⟩ := ih hembeds.2 htypes.2 hmore hshape
    cases d with
    | embedded => cases hembeds.1
    | named pos names e tag =>
      rw [fieldOf] at hline
      rw [TypeExpr.outputField] at hshape₁
      obtain ⟨t, S₄, ht, hline⟩ := Computation.bind_eq_ok hline
      obtain ⟨s, S₅, hs, hline⟩ := Computation.bind_eq_ok hline
      obtain ⟨text, htext, hshape₁⟩ := eq_ok_of_bind hshape₁
      rw [tagOf_of_tagText hs] at hshape₁
      change TypeExpr.addNames s text shape (names.filter isExported) = _ at hshape₁
      rw [addNames_eq plan.program.typeInfo scope pos t] at hshape₁
      refine ⟨(names.map fun name => (lineField scope pos t s name, text)) ++ pairs, ?_,
        forall_mem_append.2 ⟨forall_mem_map.2 fun _ _ => ?_, htexts⟩, ?_⟩
      · rw [map_append, map_map, eq_of_lineFields hline]
        rfl
      · exact htypes.1 e rfl t S S₄ text ht htext
      · rw [foldlM_append, eq_ok_of_mapError hshape₁]
        exact hpairs

end Resolving

/-! ## Texts -/

theorem Emitting.objectText_pure (shape : StructShape Text) :
    objectText (shape.map pure) = pure (TypeText.object shape) := by
  rw [objectText, StructShape.map, mapM_map, mapM_map]
  have hembeds : shape.embeds.mapM (pure : Text → Emitting Text) = pure shape.embeds := by
    rw [← map_id shape.embeds, mapM_map]
    exact mapM_pure
  simp [Function.comp_def, hembeds]

/-- Where basic types are written by their names and can be referred to by them, a plain type
expression and the type that it is resolved to have the same text, or the spelling has a tag with a
fault. -/
theorem TypeExpr.outputText_agrees (h : e.Plain P)
    (hfree : ∀ kind : Kind, params.get? kind.spelling = none ∧
      env.outline.symbols.get? kind.spelling = none)
    (hself : ∀ kind : Kind, plan.override? kind.spelling = some (kind.spelling : Text))
    (hexported : plan.options.includeUnexported = false)
    (ht : (typeOf env resolve scope params e).run.run S = (.ok t, S₁)) :
    (∀ text, e.outputText plan.options.fallback = .ok text →
      typeText plan refer expand t = pure text) ∧
    ∀ why, e.outputText plan.options.fallback = .error why → why.OfTag P := by
  refine ⟨fun text htext => ?_, fun why => (h.failsOnly _).of_error why⟩
  induction h generalizing t S S₁ text with
  | @basic pos kind hkind =>
    have hname : predeclared? kind.spelling = some (.basic kind) := by
      simp only [predeclared?, hkind]
    rw [typeOf, typesOf, pure_bind, typeNamed] at ht
    simp only [(hfree kind).1, (hfree kind).2, hname] at ht
    cases ht
    cases htext
    rw [typeText, Plan.basicText, hself]
    exact congrArg (fun points => pure (Text.mk points)) (append_nil _).symm
  | pointer _ ih | slice _ ih =>
    rw [typeOf] at ht
    rw [outputText] at htext
    obtain ⟨u, S₂, hu, ht⟩ := Computation.bind_eq_ok ht
    obtain ⟨s, hs, htext⟩ := eq_ok_of_bind htext
    cases ht
    cases htext
    rw [typeText, ih hu s hs]
    rfl
  | array _ ih | map _ ih =>
    rw [typeOf] at ht
    rw [outputText] at htext
    obtain ⟨_, S₂, -, ht⟩ := Computation.bind_eq_ok ht
    obtain ⟨u, S₃, hu, ht⟩ := Computation.bind_eq_ok ht
    obtain ⟨s, hs, htext⟩ := eq_ok_of_bind htext
    cases ht
    cases htext
    rw [typeText, ih hu s hs]
    rfl
  | struct hembeds _ _ ih =>
    rw [typeOf] at ht
    rw [outputText] at htext
    obtain ⟨fields, S₂, hfields, ht⟩ := Computation.bind_eq_ok ht
    obtain ⟨shape, hshape, htext⟩ := eq_ok_of_bind htext
    cases ht
    cases htext
    obtain ⟨pairs, rfl, htexts, hpairs⟩ := exists_texts hembeds
      (fun d hd e he t S S₁ text ht htext => ih d hd e he ht text htext) hfields hshape
    have hpure : (pairs.map Prod.fst).map (fun f =>
        (f, typeText plan refer expand f.type)) = pairs.map fun q => (q.1, pure q.2) := by
      rw [map_map]
      exact map_congr_left fun q hq => congrArg (Prod.mk q.1) (htexts q hq)
    rw [typeText, fieldTexts_eq, hpure, StructShape.ofFields_map, hexported,
      StructShape.ofFields, hpairs]
    exact objectText_pure shape
  | interface =>
    cases ht
    cases htext
    rfl

/-- A struct with a slice has the text of its spelling. -/
theorem TypeExpr.outputText_agrees_slice :
    let plan : Plan := ⟨{}, "p", ⟨{}⟩,
      { overrides := ⟨Kind.all.map fun kind => (kind.spelling, kind.spelling)⟩ }⟩
    typeText plan (fun _ _ => pure .empty) (fun _ => pure .empty)
      (.struct [⟨"A", .slice (.basic .int), "", false, true, ⟨none, some 1, some 10⟩⟩]) =
      pure "\x7b \"A\": int[] \x7d" := by
  have ht : (typeOf ⟨{ path := "p" }, {}, 0⟩ (fun _ => pure ()) ⟨none, {}⟩ {}
      (.struct ⟨1, 1⟩ [.named ⟨1, 10⟩ ["A"]
        (.slice ⟨1, 12⟩ (.ref ⟨1, 14⟩ none Kind.int.spelling [])) none])).run.run ⟨{}, {}⟩ =
      (.ok (.struct [⟨"A", .slice (.basic .int), "", false, true, ⟨none, some 1, some 10⟩⟩]),
        ⟨{}, {}⟩) := rfl
  refine (outputText_agrees (P := (· = "")) (.struct ?_ ?_ ?_) (fun _ => ⟨rfl, rfl⟩) ?_ rfl
    ht).1 _ rfl
  · exact forall_mem_singleton.2 rfl
  · exact forall_mem_singleton.2 ⟨"", rfl, rfl⟩
  · exact forall_mem_singleton.2 fun _ h => Option.some.inj h ▸ .slice (.basic rfl)
  · intro kind
    cases kind <;> rfl

end DeclBridge
