import DeclBridge.Proofs.PlainTypes
import DeclBridge.Proofs.Scoping

/-!
# Tags that cannot be read

Any text may stand as a tag.  A look-up in it ends with a value or with none, with one exception: the
value that it comes to has an escape for a number that is no character (`Tag.Unreadable`).  Nothing
else about its tags keeps a struct from having a shape, or a type expression from having an output
form (`Tag.lookup_settles`).
-/

namespace DeclBridge

open List

variable {tag key : String} {why : Fault} {e : TypeExpr}

namespace Tag

/-- A key leads to a value with an escape for a number that is no character. -/
def Unreadable (tag key : String) : Prop :=
  ∃ pair, (pairs tag).find? (·.key = key) = some pair ∧ Unspellable pair.quoted

theorem unreadable_of_lookup (h : lookup tag key = .error why) : Unreadable tag key := by
  rw [lookup] at h
  split at h
  · cases h
  · rename_i pair hpair
    split at h <;> cases h
    rename_i hquoted
    exact ⟨pair, hpair, ((unquote_failsOnly pair.quoted).of_error _ hquoted).2⟩

theorem unreadable_of_json (h : json tag = .error why) : Unreadable tag "json" := by
  rw [json] at h
  cases hlookup : lookup tag "json" with
  | error e => exact unreadable_of_lookup hlookup
  | ok value =>
    rw [hlookup] at h
    cases h

end Tag

/-- A literal that no tag can be read from: it has an escape for a number that is no character, or
its text is a tag with such an escape in the `json` value. -/
def Literal.BadTag (l : Literal) : Prop :=
  Unspellable l.text ∨ ∃ s, l.stringValue = .ok s ∧ Tag.Unreadable s "json"

theorem Literal.TagFault.badTag {l : Literal} (h : l.TagFault why) : l.BadTag := by
  rcases h with h | ⟨s, hs, hjson⟩
  · exact .inl (l.stringValue_failsOnly.of_error _ h).2
  · exact .inr ⟨s, hs, Tag.unreadable_of_json hjson⟩

namespace TypeExpr

theorem outputTexts_eq (fallback : Text) (ts : List TypeExpr) :
    outputTexts fallback ts = ts.mapM (outputText fallback) := by
  induction ts with
  | nil => rfl
  | cons t ts ih =>
    rw [outputTexts, mapM_cons, ih]

/-- Apart from the forms that have no output, an expression fails for the tags in it only. -/
theorem outputText_failsOnly {F : ExpressionError → Prop} (fallback : Text)
    (hforms : F .function ∧ F .channel ∧ F .union)
    (htags : ∀ pos fields, e.Holds (.struct pos fields) →
      ∀ d ∈ fields, ∀ l ∈ d.tag?, ∀ why, l.TagFault why → F (.fault why)) :
    FailsOnly F (e.outputText fallback) := by
  induction e with
  | ref pos package name args ih =>
    rw [outputText, outputTexts_eq]
    refine (FailsOnly.mapM fun t ht => ih t ht fun pos fields hu => ?_).bind fun _ => .ok _
    exact htags pos fields (.head ht hu)
  | pointer pos elem ih | array pos length elem ih | slice pos elem ih =>
    exact (ih fun pos fields hu => htags pos fields (.head mem_cons_self hu)).bind fun _ => .ok _
  | map pos key elem _ ih =>
    have helem : elem ∈ (TypeExpr.map pos key elem).children := mem_cons_of_mem _ mem_cons_self
    exact (ih fun pos fields hu => htags pos fields (.head helem hu)).bind fun _ => .ok _
  | chan => exact .error hforms.2.1
  | func => exact .error hforms.1
  | union => exact .error hforms.2.2
  | interface => exact .ok _
  | struct pos fields ih =>
    rw [outputText]
    refine (outputFields_failsOnly {} (htags pos fields .refl) fun d hd t ht => ?_).bind
      fun _ => .ok _
    exact ih d hd t ht fun pos' fields' hu =>
      htags pos' fields' (.head (mem_filterMap.2 ⟨d, hd, ht⟩) hu)

/-- What a type expression is checked for apart from its parts, the length of an array or the tags of
a struct, is refused as `F` allows. -/
def RefusedOnly (F : Refusal → Prop) : TypeExpr → Prop
  | array _ length _ => FailsOnly F length.check
  | struct _ fields => ∀ d ∈ fields, FailsOnly F (checkTag d.tag?)
  | _ => True

theorem check_failsOnly {F : Refusal → Prop} (hinvalid : ∀ why, F (.invalid why))
    (h : ∀ u, e.Holds u → u.RefusedOnly F) : FailsOnly F e.check := by
  induction e with
  | ref pos package name args ih | interface pos args methods ih =>
    rw [check, checkAll_eq]
    exact .forM fun t ht => ih t ht fun u hu => h u (.head ht hu)
  | pointer pos elem ih | slice pos elem ih | chan pos dir elem ih =>
    rw [check]
    exact ih fun u hu => h u (.head mem_cons_self hu)
  | array pos length elem ih =>
    exact (h _ .refl).bind fun _ => ih fun u hu => h u (.head mem_cons_self hu)
  | map pos key elem ihkey ihelem =>
    refine (ihkey fun u hu => h u (.head mem_cons_self hu)).bind fun _ => ihelem fun u hu => ?_
    exact h u (.head (mem_cons_of_mem _ mem_cons_self) hu)
  | func pos params results variadic ihparams ihresults =>
    rw [check, checkAll_eq, checkAll_eq]
    refine (FailsOnly.forM fun t ht => ihparams t ht fun u hu => ?_).bind fun _ =>
      .forM fun t ht => ihresults t ht fun u hu => ?_
    · exact h u (.head (mem_append_left _ ht) hu)
    · exact h u (.head (mem_append_right _ ht) hu)
  | struct pos fields ih =>
    rw [check, checkFields_eq]
    refine .forM fun d hd => ?_
    have htag := h _ .refl d hd
    cases d with
    | named names pos t tag =>
      exact htag.bind fun _ => ih _ hd t rfl fun u hu =>
        h u (.head (mem_filterMap.2 ⟨_, hd, rfl⟩) hu)
    | embedded pos pointer name tag =>
      rw [checkField]
      refine htag.bind fun _ => ?_
      split
      · exact .error (hinvalid _)
      · exact .ok _
  | union pos terms ih =>
    rw [check, checkTerms_eq]
    refine .forM fun term ht => ?_
    rw [checkTerm]
    exact ih term ht fun u hu => h u (.head (mem_map_of_mem ht) hu)

/-- An expression that is read ends in a fault for a tag, or for the length of an array, which is
found before anything is written. -/
theorem output_fault {source : String} {fallback : Text}
    (h : output source fallback = .error (.fault why)) :
    ∃ e, Reader.typeExpr.complete (.ofFragment source) = .ok e ∧
      ((∃ pos lines, e.Holds (.struct pos lines) ∧ ∃ d ∈ lines, ∃ l ∈ d.tag?, l.BadTag) ∨
        e.check = .error (.fault why) ∧
          ∃ pos length elem, e.Holds (.array pos length elem) ∧ length.check = .error (.fault why)) := by
  rw [output, parse] at h
  cases hread : Reader.typeExpr.complete (.ofFragment source) with
  | error why =>
    rw [hread] at h
    cases h
  | ok e =>
    refine ⟨e, rfl, ?_⟩
    rw [hread] at h
    by_contra hgood
    cases hcheck : e.check with
    | ok _ =>
      simp only [Except.mapError, hcheck, bind, Except.bind, pure, Except.pure] at h
      refine (outputText_failsOnly (F := (· ≠ .fault why)) fallback ⟨by simp, by simp, by simp⟩
        fun pos lines hu d hd l hl why' hfault => ?_).of_error _ h rfl
      exact absurd (.inl ⟨pos, lines, hu, d, hd, l, hl, hfault.badTag⟩) hgood
    | error refusal =>
      obtain rfl : refusal = .fault why := by
        cases refusal <;>
          simp [Except.mapError, hcheck, bind, Except.bind, Refusal.readError] at h
        rw [h]
      refine (check_failsOnly (F := (· ≠ .fault why)) (by simp) fun u hu => ?_).of_error _ hcheck rfl
      cases u with
      | array pos length elem =>
        exact ⟨fun refusal hlength heq =>
          hgood (.inr ⟨hcheck, pos, length, elem, hu, heq ▸ hlength⟩)⟩
      | struct pos lines =>
        intro d hd
        cases htag : d.tag? with
        | none => exact .ok _
        | some l =>
          refine FailsOnly.map ⟨fun refusal hvalue heq => ?_⟩
          have hfault : l.TagFault why := .inl (heq ▸ hvalue)
          exact hgood (.inl ⟨pos, lines, hu, d, hd, l, htag, hfault.badTag⟩)
      | _ => trivial

end TypeExpr

/-- A look-up in any tag, for any key, ends with a value or with none, unless the value has an escape
for a number that is no character.  A struct has a shape unless there is such an escape in the
`json` value of a field that is not left out.  A text ends in a fault only if the type that it is
read as has such a tag, or an array whose length has a literal without a value. -/
theorem Tag.lookup_settles (tag key : String) (info : SymbolId → TypeInfo)
    (includeUnexported : Bool) (fields : List (Field Ty)) (source : String) (fallback : Text)
    (why : Fault) : (lookup tag key = .error why → Unreadable tag key) ∧
    (StructShape.ofStruct info includeUnexported fields = .error why →
      ∃ f ∈ fields, (StructShape.declaredName info includeUnexported f).isSome ∧
        Unreadable f.tag "json") ∧
    (TypeExpr.output source fallback = .error (.fault why) →
      ∃ e, Reader.typeExpr.complete (.ofFragment source) = .ok e ∧
        ((∃ pos lines, e.Holds (.struct pos lines) ∧ ∃ d ∈ lines, ∃ l ∈ d.tag?, l.BadTag) ∨
          e.check = .error (.fault why) ∧ ∃ pos length elem,
            e.Holds (.array pos length elem) ∧ length.check = .error (.fault why))) := by
  refine ⟨unreadable_of_lookup, fun h => ?_, TypeExpr.output_fault⟩
  rw [StructShape.ofStruct, StructShape.ofFields] at h
  refine (FailsOnly.foldlM (F := fun _ => _) (fun shape field hfield => ?_) _).of_error why h
  obtain ⟨f, hf, rfl⟩ := mem_map.1 hfield
  rw [StructShape.addField, StructShape.appearance]
  refine FailsOnly.map ?_
  cases hname : StructShape.declaredName info includeUnexported f with
  | none => exact .ok _
  | some declared =>
    refine ⟨fun why hwhy => ⟨f, hf, by rw [hname]; rfl, ?_⟩⟩
    exact unreadable_of_json ((outputName_failsOnly declared f.tag).of_error why hwhy)

/-- The number `0x110000` is that of no character. -/
theorem Tag.lookup_settles_beyond : Unreadable "json:\"\\U00110000\"" "json" :=
  (lookup_settles _ "json" (fun _ => {}) false [] "" .empty (.codePointOutOfRange 0x110000)).1 rfl

end DeclBridge
