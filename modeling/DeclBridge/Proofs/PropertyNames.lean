import DeclBridge.Output.StructShape
import DeclBridge.Proofs.Computation
import DeclBridge.Resolution.Package
import Mathlib.Data.List.Pairwise

/-!
# The names of properties

No two fields of a struct that is resolved have the same name, unless it is blank.  The property of a
field has the field's name, but its tag may give it any other, and nothing looks at the names again.
So a property is declared twice only where a tag says so, or where blank fields are shown
(`StructShape.renamed_of_name_eq`).
-/

namespace DeclBridge

open List

variable {seen : List String} {fields : List (Field Ty)} {pos : Position}

/-- Fields after others with the names `seen`: no name comes again, unless it is blank. -/
structure Field.Fresh (seen : List String) (fields : List (Field Ty)) : Prop where
  exported : ∀ f ∈ fields, f.exported = isExported f.name
  unseen : ∀ f ∈ fields, f.name ∈ seen → f.name = "_"
  distinct : fields.Pairwise fun f g => f.name = g.name → f.name = "_"

theorem Field.Fresh.append {more : List (Field Ty)}
    (h : Fresh seen fields) (h' : Fresh (fields.map (·.name) ++ seen) more) :
    Fresh seen (fields ++ more) where
  exported f hf := (mem_append.1 hf).elim (h.exported f) (h'.exported f)
  unseen f hf hseen := (mem_append.1 hf).elim (fun hf => h.unseen f hf hseen) fun hf =>
    h'.unseen f hf (mem_append_right _ hseen)
  distinct := by
    refine pairwise_append.2 ⟨h.distinct, h'.distinct, fun f hf g hg heq => ?_⟩
    have hmem : g.name ∈ fields.map (·.name) := heq ▸ mem_map_of_mem hf
    exact heq.trans (h'.unseen g hg (mem_append_left _ hmem))

namespace Resolving

variable {env : Surroundings} {resolve : String → Resolving Unit} {scope : Scope}
  {params : Table String Ty}

theorem lineFields_fresh {type : Ty} {tag : String} {embedded : Bool} {seen names : List String} :
    Gives (fun _ => True) (lineFields scope pos type tag embedded seen names)
      (Field.Fresh seen) := by
  induction names generalizing seen with
  | nil => exact Returns.pure ⟨by simp, by simp, .nil⟩
  | cons name names ih =>
    rw [lineFields]
    split
    · exact Gives.throw
    · rename_i hnew
      refine Returns.bind ih fun fields hfields => Returns.pure ?_
      have hblank {f : Field Ty} (hf : f ∈ fields) (heq : name = f.name) : f.name = "_" :=
        hfields.unseen f hf (heq ▸ mem_cons_self)
      refine ⟨forall_mem_cons.2 ⟨rfl, hfields.exported⟩, forall_mem_cons.2 ⟨?_, ?_⟩,
        pairwise_cons.2 ⟨fun f hf heq => heq.trans (hblank hf heq), hfields.distinct⟩⟩
      · exact fun hseen => not_not.1 fun hne => hnew ⟨hne, hseen⟩
      · exact fun f hf hseen => hfields.unseen f hf (mem_cons_of_mem _ hseen)

theorem fieldOf_fresh (d : FieldDecl TypeExpr) :
    Gives (fun _ => True) (fieldOf env resolve scope params seen d) (Field.Fresh seen) := by
  cases d with
  | named | embedded =>
    rw [fieldOf]
    exact (Gives.unconditional _).bind fun _ _ => (Gives.unconditional _).bind fun _ _ =>
      lineFields_fresh

/-- The lines of a struct are checked against all those before. -/
theorem fieldsOf_fresh (ds : List (FieldDecl TypeExpr)) :
    Gives (fun _ => True) (fieldsOf env resolve scope params seen ds) (Field.Fresh seen) := by
  induction ds generalizing seen with
  | nil => exact Returns.pure ⟨by simp, by simp, .nil⟩
  | cons d ds ih =>
    rw [fieldsOf]
    exact (fieldOf_fresh d).bind fun fields hfields => ih.bind fun more hmore =>
      Returns.pure (hfields.append hmore)

theorem fresh_of_typeOf {ds : List (FieldDecl TypeExpr)} {S S' : Store}
    (h : (typeOf env resolve scope params (.struct pos ds)).run.run S = (.ok (.struct fields), S')) :
    Field.Fresh [] fields := by
  have hgives : Gives (fun _ => True) (typeOf env resolve scope params (.struct pos ds))
      fun t => ∀ fields, t = .struct fields → Field.Fresh [] fields := by
    rw [typeOf]
    refine (fieldsOf_fresh ds).bind fun fields hfields => Returns.pure ?_
    rintro _ ⟨⟩
    exact hfields
  exact (hgives.ok trivial h).2 fields rfl

end Resolving

namespace StructShape

variable {info : SymbolId → TypeInfo} {includeUnexported : Bool}
  {shape : StructShape Ty} {f : Field Ty} {p : Property Ty}

/-- A field appears as a property. -/
structure ShownAs (info : SymbolId → TypeInfo) (includeUnexported : Bool) (f : Field Ty)
    (p : Property Ty) : Prop where
  appears : appearance info includeUnexported f = .ok (some ⟨p.name, p.optional⟩)
  name_ne : p.name ≠ ""
  type : p.type = f.type

/-- The tag of a field gives its property another name than the field is declared with. -/
def Renames (info : SymbolId → TypeInfo) (includeUnexported : Bool) (f : Field Ty)
    (p : Property Ty) : Prop :=
  declaredName info includeUnexported f ≠ some p.name

/-- The properties are those of some fields, in the order of the fields. -/
theorem exists_origins (h : ofStruct info includeUnexported fields = .ok shape) :
    ∃ origins : List (Field Ty), origins.Sublist fields ∧
      List.Forall₂ (ShownAs info includeUnexported) origins shape.properties := by
  -- the fold starts at any shape, whose properties stand before those of the fields
  have hfold : ∀ shape₀ : StructShape Ty, (fields.map fun f => (f, f.type)).foldlM
      (addField info includeUnexported) shape₀ = .ok shape → ∃ origins more,
        origins.Sublist fields ∧ List.Forall₂ (ShownAs info includeUnexported) origins more ∧
        shape.properties = shape₀.properties ++ more := by
    clear h
    induction fields with
    | nil =>
      intro shape₀ h
      cases h
      exact ⟨[], [], .slnil, .nil, (append_nil _).symm⟩
    | cons f fields ih =>
      intro shape₀ h
      rw [map_cons, foldlM_cons, addField] at h
      cases happ : appearance info includeUnexported f with
      | error why =>
        rw [happ] at h
        cases h
      | ok appearing =>
        rw [happ] at h
        obtain ⟨origins, more, hsublist, hshown, heq⟩ := ih (shape₀.add appearing f.type) h
        cases appearing with
        | none => exact ⟨origins, more, hsublist.cons f, hshown, heq⟩
        | some name =>
          rw [add] at heq
          by_cases hname : name.name = ""
          · rw [if_pos hname] at heq
            exact ⟨origins, more, hsublist.cons f, hshown, heq⟩
          · rw [if_neg hname] at heq
            refine ⟨f :: origins, ⟨name.name, name.optional, f.type⟩ :: more, hsublist.cons_cons f,
              .cons ⟨happ, hname, rfl⟩ hshown, ?_⟩
            rw [heq, append_assoc]
            rfl
  obtain ⟨origins, more, hsublist, hshown, heq⟩ := hfold {} h
  exact ⟨origins, hsublist, heq ▸ hshown⟩

/-- A property that its field's tag does not rename has the field's name, which is exported or
shown all the same. -/
theorem ShownAs.name_eq (h : ShownAs info includeUnexported f p)
    (hname : ¬ Renames info includeUnexported f p) :
    p.name = f.name ∧ (includeUnexported = true ∨ f.exported = true) := by
  have hdeclared := not_not.1 hname
  rw [declaredName] at hdeclared
  split at hdeclared
  · exact absurd (Option.some.inj hdeclared).symm h.name_ne
  · split at hdeclared
    · exact ⟨(Option.some.inj hdeclared).symm, Bool.or_eq_true_iff.1 ‹_›⟩
    · cases hdeclared

/-- Of the properties of a struct that is resolved, two have the same name only where the tag of one
of their fields renames it, or where both fields are blank and fields that are not exported are shown.
So the names are distinct where no tag renames a field and only exported fields are shown. -/
theorem renamed_of_name_eq {env : Surroundings} {resolve : String → Resolving Unit} {scope : Scope}
    {params : Table String Ty} {pos : Position} {lines : List (FieldDecl TypeExpr)} {S S' : Store}
    (hstruct : (Resolving.typeOf env resolve scope params (.struct pos lines)).run.run S =
      (.ok (.struct fields), S')) (hshape : ofStruct info includeUnexported fields = .ok shape) :
    ∃ origins : List (Field Ty), origins.Sublist fields ∧
      List.Forall₂ (ShownAs info includeUnexported) origins shape.properties ∧
      ((origins.zip shape.properties).Pairwise fun a b => a.2.name = b.2.name →
        Renames info includeUnexported a.1 a.2 ∨ Renames info includeUnexported b.1 b.2 ∨
          includeUnexported = true ∧ a.1.name = "_" ∧ b.1.name = "_") ∧ (includeUnexported = false →
        (∀ a ∈ origins.zip shape.properties, ¬ Renames info includeUnexported a.1 a.2) →
        (shape.properties.map (·.name)).Nodup) := by
  have hfresh := Resolving.fresh_of_typeOf hstruct
  obtain ⟨origins, hsublist, hshown⟩ := exists_origins hshape
  refine ⟨origins, hsublist, hshown,
    (and_iff_left_of_imp fun hpair hexported hown => ?_).2 ?_⟩
  · rw [List.Nodup, pairwise_map, ← map_snd_zip (Nat.le_of_eq hshown.length_eq.symm),
      pairwise_map]
    refine hpair.imp_of_mem fun {a b} ha hb himp heq => ?_
    rcases himp heq with h | h | ⟨h, -⟩
    · exact hown a ha h
    · exact hown b hb h
    · cases hexported.symm.trans h
  · have hnames := hfresh.distinct.sublist hsublist
    rw [← map_fst_zip (Nat.le_of_eq hshown.length_eq), pairwise_map] at hnames
    refine hnames.imp_of_mem fun {a b} ha hb hblank heq => ?_
    have hshown' := forall₂_iff_zip.1 hshown
    by_contra hnot
    rw [not_or, not_or] at hnot
    obtain ⟨hown, hshows⟩ := (hshown'.2 ha).name_eq hnot.1
    obtain ⟨hown', -⟩ := (hshown'.2 hb).name_eq hnot.2.1
    have hname := hown.symm.trans (heq.trans hown')
    -- a name that comes twice is blank, and so it is not exported
    have hexported := hfresh.exported a.1 (hsublist.subset (of_mem_zip ha).1)
    rw [hblank hname] at hexported
    refine hnot.2.2 ⟨hshows.resolve_right fun h => ?_, hblank hname, hname ▸ hblank hname⟩
    cases hexported.symm.trans h

/-- The lines `A int` and `B int` with the tag `json:"A"` for `B`. -/
def sameNameLines : List (FieldDecl TypeExpr) := [
  .named ⟨1, 10⟩ ["A"] (.ref ⟨1, 12⟩ none "int" []) none,
  .named ⟨1, 17⟩ ["B"] (.ref ⟨1, 19⟩ none "int" []) (some ⟨.rawString, "`json:\"A\"`"⟩)]

def sameNameFields : List (Field Ty) := [
  ⟨"A", .basic .int, "", false, true, ⟨none, some 1, some 10⟩⟩,
  ⟨"B", .basic .int, "json:\"A\"", false, true, ⟨none, some 1, some 17⟩⟩]

/-- The struct is resolved, its property `A` is declared twice, and one of its fields is renamed. -/
theorem renamed_of_name_eq_sameName :
    (Resolving.typeOf ⟨{ path := "p" }, {}, 0⟩ (fun _ => pure ()) ⟨none, {}⟩ {}
      (.struct ⟨1, 1⟩ sameNameLines)).run.run ⟨{}, {}⟩ = (.ok (.struct sameNameFields), ⟨{}, {}⟩) ∧
    ofStruct (fun _ => {}) false sameNameFields =
      .ok ⟨[⟨"A", false, .basic .int⟩, ⟨"A", false, .basic .int⟩], []⟩ ∧
    ∃ f ∈ sameNameFields, Renames (fun _ => {}) false f ⟨"A", false, .basic .int⟩ := by
  have hstruct : (Resolving.typeOf ⟨{ path := "p" }, {}, 0⟩ (fun _ => pure ()) ⟨none, {}⟩ {}
      (.struct ⟨1, 1⟩ sameNameLines)).run.run ⟨{}, {}⟩ =
      (.ok (.struct sameNameFields), ⟨{}, {}⟩) := rfl
  have hshape : ofStruct (fun _ => {}) false sameNameFields =
      .ok ⟨[⟨"A", false, .basic .int⟩, ⟨"A", false, .basic .int⟩], []⟩ := rfl
  refine ⟨hstruct, hshape, ?_⟩
  obtain ⟨origins, hsublist, hshown, hpair, -⟩ := renamed_of_name_eq hstruct hshape
  obtain _ | ⟨-, _ | ⟨-, _⟩⟩ := hshown
  rcases (pairwise_cons.1 hpair).1 _ mem_cons_self rfl with h | h | h
  · exact ⟨_, hsublist.subset mem_cons_self, h⟩
  · exact ⟨_, hsublist.subset (mem_cons_of_mem _ mem_cons_self), h⟩
  · cases h.1

end StructShape

end DeclBridge
