import DeclBridge.Proofs.Expansion

/-!
# What the definition of a symbol depends on

`Plan.rendered` lists the types that the definition of a symbol is written from.  Whatever the texts
of those keep, the definition keeps (`symbolText_spec`); it is never the empty text, which stands
for a definition in the making.  A symbol without a definition is a constant, and then nothing was
made on the way but a warning.
-/

namespace DeclBridge

open List

variable {fields : List (Field Ty)} {s : Symbol} {head : Text} {params : List TypeParam} {t : Ty}

namespace Text

@[simp] theorem append_eq_empty {a b : Text} : a ++ b = empty ↔ a = empty ∧ b = empty := by
  obtain ⟨a⟩ := a
  obtain ⟨b⟩ := b
  show (⟨a ++ b⟩ : Text) = ⟨[]⟩ ↔ (⟨a⟩ : Text) = ⟨[]⟩ ∧ (⟨b⟩ : Text) = ⟨[]⟩
  simp

@[simp] theorem ofString_eq_empty {s : String} : ofString s = empty ↔ s = "" := by
  rw [ofString, empty, Text.mk.injEq, map_eq_nil_iff, String.toList_eq_nil_iff]

@[simp] theorem isEmpty_iff {t : Text} : t.isEmpty = true ↔ t = empty := by
  obtain ⟨points⟩ := t
  show points.isEmpty = true ↔ (⟨points⟩ : Text) = ⟨[]⟩
  simp

end Text

namespace Constant

theorem literal?_fault {c : Constant} {f : Fault} (h : c.literal? = .error f) : f.OfText := by
  cases c with
  | int n =>
    cases hn : Number.decimal n with
    | error why =>
      simp only [literal?, intLiteral, hn] at h
      cases h
      exact ((decimal_failsOnly n).of_error _ hn).ofText
    | ok text =>
      simp only [literal?, intLiteral, hn] at h
      cases h
  | _ => cases h

end Constant

/-! ## The types of a definition -/

/-- The types that the definition of a symbol is written from. -/
def Plan.rendered (plan : Plan) (s : Symbol) : List Ty :=
  match s.body with
  | .const (some value) (some (.named id args)) =>
    match value.literal? with
    | .ok (some _) => [.named id args]
    | _ => []
  | .const .. => []
  | .type info =>
    info.params.filterMap (·.constraint) ++
      if (plan.override? (plan.overrideName s.id)).isSome then [] else info.written.toList

theorem Plan.rendered_subset (plan : Plan) (s : Symbol) : plan.rendered s ⊆ s.types := by
  intro t ht
  rw [rendered] at ht
  rw [Symbol.types]
  split at ht
  · rename_i hbody
    split at ht
    · simpa [hbody] using ht
    · exact absurd ht not_mem_nil
  · exact absurd ht not_mem_nil
  · rename_i info hbody
    simp only [hbody]
    rcases mem_append.1 ht with ht | ht
    · exact mem_append_left _ (mem_append_left _ ht)
    · split at ht
      · exact absurd ht not_mem_nil
      · rw [TypeInfo.written] at ht
        split at ht
        · exact mem_append_left _ (mem_append_right _ ht)
        · exact mem_append_right _ ht

/-- Two emissions with the same modules and the same references. -/
def Emission.SameOutput (e e' : Emission) : Prop :=
  e'.graph = e.graph ∧ e'.references = e.references

namespace Emitting

variable {plan : Plan} {render : Ty → Emitting Text} {I : Emission → Prop} {F : Fault → Prop}

theorem warn_spec {P : Emission → Prop} {line code message : String} {span : Span} :
    Triple P (warn line code message span) (fun _ e => ∃ e₁, P e₁ ∧ e₁.SameOutput e)
      (fun f _ => F f) :=
  fun e he => ⟨e, he, rfl, rfl⟩

theorem presentText_keeps {type : Option Ty} (hmissing : type.isSome ∨ F .missingType)
    (hrender : ∀ t, type = some t → Keeps I F (render t)) : Keeps I F (presentText render type) := by
  cases type with
  | none =>
    rcases hmissing with h | h
    · cases h
    · exact .throw fun _ _ => h
  | some t => exact hrender t rfl

theorem paramsText_keeps (hrender : ∀ t ∈ params.filterMap (·.constraint), Keeps I F (render t)) :
    Keeps I F (paramsText plan render params) := by
  refine .bind (.mapM fun p hp => ?_) fun _ => .pure _
  split
  · rename_i t ht
    exact (hrender t (mem_filterMap.2 ⟨p, hp, ht⟩)).bind fun _ => .pure _
  · exact .pure _

theorem nonempty_of_keeps {x : Emitting Text} {f : Text → Text} (hx : Keeps I F x)
    (hf : ∀ text, f text ≠ .empty) :
    Triple I (do return f (← x)) (fun text e => I e ∧ text ≠ .empty) (fun why _ => F why) :=
  .bind hx fun text => .pure fun _ he => ⟨he, hf text⟩

theorem structText_spec (hF : ∀ f, f.OfText → F f)
    (hrender : ∀ c, plan.Writes (.struct fields) c → Keeps I F (render c)) :
    Triple I (structText plan render head fields) (fun text e => I e ∧ text ≠ .empty)
      (fun why _ => F why) := by
  refine .result_bind (fun shape hshape => ?_) fun f hf _ _ => hF f (StructShape.ofFields_fault hf)
  have hobject : Returns I F (objectText shape) _ := objectText_returns plan.composes_true fun x hx => by
    obtain ⟨f, hf, hshow⟩ := (StructShape.mem_types_ofFields hshape).1 hx
    obtain ⟨g, hg, heq⟩ := mem_map.1 hf
    obtain ⟨rfl, rfl⟩ := Prod.mk.inj heq
    exact (hrender g.type (.field hg hshow)).returns
  refine nonempty_of_keeps hobject.keeps fun body => ?_
  split <;> simp

/-- What the texts of the types in a type's definition keep, the definition keeps. -/
theorem typeDefinition_spec (hF : ∀ f, f.OfText → F f) {info : TypeInfo}
    (hbody : s.body = .type info) (hmissing : info.written.isSome ∨ F .missingType)
    (hrender : ∀ t ∈ plan.rendered s, ∀ c, plan.Visits t c → Keeps I F (render c)) :
    Triple I (typeDefinition plan render s info) (fun text e => I e ∧ text ≠ .empty)
      (fun why _ => F why) := by
  have hrendered : plan.rendered s = info.params.filterMap (·.constraint) ++
      if (plan.override? (plan.overrideName s.id)).isSome then [] else info.written.toList := by
    rw [Plan.rendered, hbody]
  refine .bind (paramsText_keeps fun t ht => ?_) fun params => ?_
  · exact hrender t (hrendered ▸ mem_append_left _ ht) t .refl
  · cases hoverride : plan.override? (plan.overrideName s.id) with
    | some text => exact .pure fun _ he => ⟨he, by simp⟩
    | none =>
      have hwritten : ∀ t, info.written = some t → ∀ c, plan.Visits t c → Keeps I F (render c) := by
        intro t ht
        refine hrender t ?_
        rw [hrendered, hoverride, ht]
        exact mem_concat_self
      rw [TypeInfo.written] at hmissing hwritten
      by_cases halias : info.isAlias
      · simp only [halias, if_true] at hmissing hwritten ⊢
        exact nonempty_of_keeps (presentText_keeps hmissing fun t ht => hwritten t ht t .refl)
          (by simp)
      · simp only [halias, Bool.false_eq_true, if_false] at hmissing hwritten ⊢
        split
        · rename_i fields hfields
          exact structText_spec hF fun c hc => hwritten _ hfields c (.single hc)
        · exact nonempty_of_keeps (presentText_keeps hmissing fun t ht => hwritten t ht t .refl)
            (by simp)

/-- What the texts of the types in a definition keep, the definition keeps.  Where there is no
definition, nothing was made. -/
theorem symbolText_spec (hF : ∀ f, f.OfText → F f) (hmissing : s.IsComplete ∨ F .missingType)
    (hrender : ∀ t ∈ plan.rendered s, ∀ c, plan.Visits t c → Keeps I F (render c)) {e₀ : Emission}
    (h₀ : I e₀) : Triple (fun e => e = e₀) (symbolText plan render s)
      (fun text e => text.elim (e₀.SameOutput e ∧ plan.rendered s = [])
        fun text => I e ∧ text ≠ .empty) (fun why _ => F why) := by
  rw [symbolText]
  cases hbody : s.body with
  | type info =>
    have hdefinition := typeDefinition_spec hF hbody (hmissing.imp_left fun h => h info hbody) hrender
    exact .bind (hdefinition.start h₀) fun text => .pure fun e he => he
  | const value type =>
    cases value with
    | none => exact .pure fun e he => he ▸ ⟨⟨rfl, rfl⟩, by rw [Plan.rendered, hbody]⟩
    | some value =>
      refine .bind (.result
        (fun literal hliteral e he => (⟨he, hliteral⟩ : e = e₀ ∧ value.literal? = .ok literal))
        fun f hf _ _ => hF f (Constant.literal?_fault hf)) fun literal => ?_
      refine .assume fun e₁ h₁ => ?_
      obtain ⟨rfl, hliteral⟩ := h₁
      cases literal with
      | none =>
        refine .bind (Q := fun _ e => e = e₁) (.result (fun _ _ _ he => he)
          fun f hf _ _ => hF f ((Constant.cited_failsOnly _).of_error f hf).ofText) fun cited => ?_
        refine .bind warn_spec fun _ => .pure fun e he => ?_
        obtain ⟨_, rfl, hsame⟩ := he
        refine ⟨hsame, ?_⟩
        rw [Plan.rendered, hbody]
        split <;> simp_all
      | some literal =>
        dsimp only
        split
        · rename_i id args
          have htype : Keeps I F (render (.named id args)) := by
            refine hrender _ ?_ _ .refl
            rw [Plan.rendered, hbody]
            simp only [hliteral]
            exact mem_singleton.2 rfl
          exact .bind (htype.start h₀) fun _ => .pure fun e he => ⟨he, by simp⟩
        · exact .pure fun e he => ⟨he ▸ h₀, by simp⟩

/-! ## Marks of the types in a definition -/

/-- What is mentioned in a struct is mentioned in a field that appears. -/
theorem exists_field_of_mentions {path name : String}
    (h : plan.Mentions (.struct fields) path name) :
    ∃ f ∈ fields, StructShape.Shows plan.program.typeInfo plan.options.includeUnexported f ∧
      plan.Mentions f.type path name := by
  obtain ⟨u, hexpands, hu⟩ := h
  rcases Relation.ReflTransGen.cases_head hexpands with rfl | ⟨v, ⟨embeds, methods, terms, hvisit,
    hterms, hmem⟩, hvu⟩
  · obtain ⟨args, hvisit | hvisit⟩ := hu <;>
      rcases Relation.ReflTransGen.cases_head hvisit with heq | ⟨c, hw, hvisit⟩
    · cases heq
    · cases hw with
      | @field _ f hf hshow => exact ⟨f, hf, hshow, f.type, .refl, args, .inl hvisit⟩
    · cases heq
    · cases hw with
      | @field _ f hf hshow => exact ⟨f, hf, hshow, f.type, .refl, args, .inr hvisit⟩
  · rcases Relation.ReflTransGen.cases_head hvisit with heq | ⟨c, hw, hvisit⟩
    · cases heq
    · cases hw with
      | @field _ f hf hshow =>
        exact ⟨f, hf, hshow, u, .head ⟨embeds, methods, terms, hvisit, hterms, hmem⟩ hvu, hu⟩

/-- A struct that does not end has a field that appears and does not end. -/
theorem exists_field_of_not_ends (h : ¬ plan.Ends (.struct fields)) :
    ∃ f ∈ fields, StructShape.Shows plan.program.typeInfo plan.options.includeUnexported f ∧
      ¬ plan.Ends f.type := by
  obtain ⟨u, ⟨embeds, methods, terms, hvisit, hterms, hmem⟩, hu⟩ :=
    Plan.exists_expands_of_not_ends h
  rcases Relation.ReflTransGen.cases_head hvisit with heq | ⟨c, hw, hvisit⟩
  · cases heq
  · cases hw with
    | @field _ f hf hshow =>
      exact ⟨f, hf, hshow, fun hends => hu (hends.inv ⟨embeds, methods, terms, hvisit, hterms, hmem⟩)⟩

section Marks

variable {M : Emission → Prop}

section

variable (hall : ∀ c, Respects I M (render c))

include hall

theorem paramsText_respects (params : List TypeParam) :
    Respects I M (paramsText plan render params) :=
  ⟨paramsText_keeps fun t _ => (hall t).unmarked, paramsText_keeps fun t _ => (hall t).marked⟩

theorem paramsText_marks (ht : t ∈ params.filterMap (·.constraint)) (h : Marks I M (render t)) :
    Marks I M (paramsText plan render params) := by
  obtain ⟨p, hp, hconstraint⟩ := mem_filterMap.1 ht
  refine (Marks.mapM hp ?_ fun q _ => ?_).bind fun _ => .pure _
  · simp only [hconstraint]
    exact h.bind fun _ => .pure _
  · split
    · exact (hall _).bind fun _ => .pure _
    · exact .pure _

theorem presentText_respects (type : Option Ty) : Respects I M (presentText render type) :=
  ⟨presentText_keeps (.inr trivial) fun t _ => (hall t).unmarked,
    presentText_keeps (.inr trivial) fun t _ => (hall t).marked⟩

theorem structText_respects (head : Text)
    (fields : List (Field Ty)) : Respects I M (structText plan render head fields) :=
  ⟨(structText_spec (fun _ _ => trivial) fun c _ => (hall c).unmarked).post
      (fun _ _ h => h.1),
    (structText_spec (fun _ _ => trivial) fun c _ => (hall c).marked).post
      (fun _ _ h => h.1)⟩

theorem structText_marks {f : Field Ty} (hf : f ∈ fields)
    (hshow : StructShape.Shows plan.program.typeInfo plan.options.includeUnexported f)
    (h : Marks I M (render f.type)) : Marks I M (structText plan render head fields) := by
  refine .after_result fun shape hshape => ?_
  refine (objectText_marks ((StructShape.mem_types_ofFields hshape).2 ⟨f, ?_, hshow⟩) h
    fun y hy => ?_).bind fun _ => .pure _
  · exact mem_map.2 ⟨f, hf, rfl⟩
  · obtain ⟨g, hg, -⟩ := (StructShape.mem_types_ofFields hshape).1 hy
    obtain ⟨g', -, heq⟩ := mem_map.1 hg
    obtain ⟨rfl, rfl⟩ := Prod.mk.inj heq
    exact hall g'.type

end

/-- A mark that is left by the texts of types with a property `P` is left by the definition of a
symbol that has such a type.  The fields of a struct are written one by one, so a struct with the
property must have it from a field. -/
theorem symbolText_marks {P : Ty → Prop} (hfield : ∀ fields, P (.struct fields) → ∃ f ∈ fields,
      StructShape.Shows plan.program.typeInfo plan.options.includeUnexported f ∧ P f.type)
    (hall : ∀ c, Respects I M (render c)) (hmark : ∀ c, P c → Marks I M (render c))
    (ht : t ∈ plan.rendered s) (hP : P t) : Marks I M (symbolText plan render s) := by
  rw [Plan.rendered] at ht
  rw [symbolText]
  split at ht
  · rename_i value id args hbody
    split at ht
    · rename_i literal hliteral
      cases mem_singleton.1 ht
      simp only [hbody]
      refine .after_result fun found hfound => ?_
      cases hliteral.symm.trans hfound
      exact (hmark _ hP).bind fun _ => .pure _
    · exact absurd ht not_mem_nil
  · exact absurd ht not_mem_nil
  · rename_i info hbody
    simp only [hbody]
    refine .bind ?_ fun _ => .pure _
    rw [typeDefinition]
    rcases mem_append.1 ht with ht | ht
    · refine (paramsText_marks hall ht (hmark t hP)).bind fun params => ?_
      dsimp only
      split
      · exact .pure _
      · split
        · exact (presentText_respects hall _).bind fun _ => .pure _
        · split
          · exact structText_respects hall _ _
          · exact (presentText_respects hall _).bind fun _ => .pure _
    · refine .after (paramsText_respects hall _) fun params => ?_
      cases hoverride : plan.override? (plan.overrideName s.id) with
      | some text =>
        rw [hoverride] at ht
        exact absurd ht not_mem_nil
      | none =>
        rw [hoverride] at ht
        have hwritten : info.written = some t := by simpa using ht
        rw [TypeInfo.written] at hwritten
        by_cases halias : info.isAlias
        · simp only [halias, if_true] at hwritten ⊢
          rw [hwritten]
          exact (hmark t hP).bind fun _ => .pure _
        · simp only [halias, Bool.false_eq_true, if_false] at hwritten ⊢
          rw [hwritten]
          cases t with
          | struct fields =>
            obtain ⟨f, hf, hshow, hPf⟩ := hfield fields hP
            exact structText_marks hall hf hshow (hmark f.type hPf)
          | _ => exact (hmark _ hP).bind fun _ => .pure _

end Marks

end Emitting

end DeclBridge
