import DeclBridge.Proofs.Rendering
import DeclBridge.Proofs.TermSet

/-!
# Expanding interfaces

The text of an interface is made from its terms, and a term may hold further interfaces, which are
expanded in turn.  Expansion does not go on for ever from a type that `Plan.Ends`.  A type that does
not end has no text at all (`expandedText_fails`), whatever the limit is.

Terms are parts of declared types, so there are no more of them than the program has parts.  On the
way from a type that ends no type comes twice, so the number of parts is limit enough
(`expandedText_keeps`).
-/

namespace DeclBridge

open List

variable {t : Ty} {path name : String} {limit : Nat} {plan : Plan}

/-! ## Types that end -/

namespace Plan

variable {u c : Ty}

/-- The expansions from a type, one after another, come to an end. -/
def Ends (plan : Plan) : Ty → Prop := Acc fun u t => plan.Expands t u

/-- The expansions from a type come to one that refers to a declared type. -/
def Mentions (plan : Plan) (t : Ty) (path name : String) : Prop :=
  ∃ u, Relation.ReflTransGen plan.Expands t u ∧ plan.Refers u path name

theorem Writes.child (h : plan.Writes t c) : c ∈ t.children := by
  cases h with
  | pointer | array | slice => exact mem_singleton.2 rfl
  | map => exact mem_cons_of_mem _ (mem_singleton.2 rfl)
  | field hf hshow => exact mem_map_of_mem hf
  | arg ht => exact ht
  | aliasArg ht => exact ht
  | term ht => exact mem_map_of_mem ht

theorem Visits.mem_parts (h : plan.Visits t c) : c ∈ t.parts := by
  induction h with
  | refl => exact Ty.self_mem_parts t
  | tail _ hw ih => exact Ty.parts_trans ih (Ty.child_mem_parts hw.child)

theorem Visits.expands (h : plan.Visits t c) (hc : plan.Expands c u) : plan.Expands t u := by
  obtain ⟨embeds, methods, terms, hvisit, hterms, hu⟩ := hc
  exact ⟨embeds, methods, terms, h.trans hvisit, hterms, hu⟩

theorem Visits.refers (h : plan.Visits t c)
    (hc : plan.Refers c path name) : plan.Refers t path name := by
  obtain ⟨args, hc | hc⟩ := hc
  · exact ⟨args, .inl (h.trans hc)⟩
  · exact ⟨args, .inr (h.trans hc)⟩

theorem Visits.ends (h : plan.Visits t c) (ht : plan.Ends t) : plan.Ends c :=
  ⟨c, fun _ hu => ht.inv (h.expands hu)⟩

theorem Visits.mentions (h : plan.Visits t c)
    (hc : plan.Mentions c path name) : plan.Mentions t path name := by
  obtain ⟨u, hcu, hu⟩ := hc
  rcases Relation.ReflTransGen.cases_head hcu with rfl | ⟨v, hcv, hvu⟩
  · exact ⟨t, .refl, h.refers hu⟩
  · exact ⟨u, .head (h.expands hcv) hvu, hu⟩

/-- Expansions of types that the program has are types that the program has. -/
theorem Expands.mem_typeParts (h : plan.Expands t u) (ht : t ∈ plan.program.typeParts) :
    u ∈ plan.program.typeParts := by
  obtain ⟨embeds, methods, terms, hvisit, hterms, hu⟩ := h
  exact Program.termSet_mem_typeParts (Program.typeParts_closed ht hvisit.mem_parts) hterms hu

theorem Ends.not_cyclic (h : plan.Ends t) : ¬ Relation.TransGen plan.Expands t t := by
  induction h with
  | intro t _ ih =>
    intro hcycle
    obtain ⟨u, htu, hut⟩ := Relation.TransGen.head'_iff.1 hcycle
    exact ih u htu (Relation.TransGen.tail' hut htu)

/-- From a type that does not end, one expansion leads to another such type. -/
theorem exists_expands_of_not_ends (h : ¬ plan.Ends t) : ∃ u, plan.Expands t u ∧ ¬ plan.Ends u := by
  by_contra hno
  push Not at hno
  exact h ⟨t, hno⟩

end Plan

namespace Emitting

variable {refer : (path name : String) → Emitting Text} {I : Emission → Prop} {F : Fault → Prop}

/-- On the way to `t`, through the types of `above`, there are as many expansions left as the
program has other types. -/
theorem expandedText_keeps_above (hF : ∀ f, f.OfText → F f) {above : List Ty}
    (hnodup : (t :: above).Nodup) (habove : ∀ a ∈ above, Relation.TransGen plan.Expands a t)
    (hparts : ∀ a ∈ t :: above, a ∈ plan.program.typeParts) (hends : plan.Ends t)
    (hlimit : plan.program.typeParts.length ≤ above.length + limit)
    (hrefer : ∀ path name, plan.Mentions t path name → Keeps I F (refer path name)) :
    Keeps I F (expandedText plan refer limit t) := by
  induction limit generalizing above t with
  | zero =>
    have hlength := (subperm_of_subset hnodup hparts).length_le
    rw [length_cons] at hlength
    omega
  | succ limit ih =>
    refine typeText_keeps hF t (fun path name h => hrefer path name ⟨t, .refl, h⟩) fun u hu => ?_
    have hu' : plan.Ends u := hends.inv hu
    have hway : ∀ a ∈ t :: above, Relation.TransGen plan.Expands a u := by
      rintro a (_ | ⟨_, ha⟩)
      · exact .single hu
      · exact (habove a ha).tail hu
    refine ih ?_ hway ?_ hu' ?_ ?_
    · -- a type that came before would be an expansion of itself
      exact nodup_cons.2 ⟨fun h => hu'.not_cyclic (hway u h), hnodup⟩
    · rintro a (_ | ⟨_, ha⟩)
      · exact hu.mem_typeParts (hparts t mem_cons_self)
      · exact hparts a ha
    · rw [length_cons]
      omega
    · rintro path name ⟨v, huv, hv⟩
      exact hrefer path name ⟨v, .head hu huv, hv⟩

/-- What all references of a type and of its expansions keep, its expanded text keeps.  The number
of types in the program is limit enough, unless the type does not end. -/
theorem expandedText_keeps (hF : ∀ f, f.OfText → F f) (ht : t ∈ plan.program.typeParts)
    (hends : plan.program.typeParts.length ≤ limit ∧ plan.Ends t ∨ F .endlessType)
    (hrefer : ∀ path name, plan.Mentions t path name → Keeps I F (refer path name)) :
    Keeps I F (expandedText plan refer limit t) := by
  rcases hends with ⟨hlimit, hends⟩ | hendless
  · exact expandedText_keeps_above hF (nodup_singleton t) (by simp) (by simpa using ht)
      hends (by simpa using hlimit) hrefer
  · clear ht
    induction limit generalizing t with
    | zero => exact .throw fun _ _ => hendless
    | succ limit ih =>
      refine typeText_keeps hF t (fun path name h => hrefer path name ⟨t, .refl, h⟩) fun u hu => ?_
      refine ih ?_
      rintro path name ⟨v, huv, hv⟩
      exact hrefer path name ⟨v, .head hu huv, hv⟩

/-! ## Marks that are left on the way -/

section Marks

variable {M : Emission → Prop} {expand : Ty → Emitting Text}

theorem objectText_marks {shape : StructShape (Emitting Text)} {x : Emitting Text}
    (hx : x ∈ shape.types) (h : Marks I M x) (hall : ∀ y ∈ shape.types, Respects I M y) :
    Marks I M (objectText shape) := by
  have hproperties : ∀ p ∈ shape.properties, Respects I M p.type := fun p hp =>
    hall p.type (mem_append_left _ (mem_map_of_mem hp))
  have hembeds : ∀ y ∈ shape.embeds, Respects I M y := fun y hy =>
    hall y (mem_append_right _ hy)
  rcases mem_append.1 hx with hx | hx
  · obtain ⟨p, hp, rfl⟩ := mem_map.1 hx
    refine (Marks.mapM hp (h.bind fun _ => .pure _) fun q hq => ?_).bind fun _ => ?_
    · exact (hproperties q hq).bind fun _ => .pure _
    · exact (Respects.mapM hembeds).bind fun _ => .pure _
  · refine .after (.mapM fun q hq => ?_) fun _ => ?_
    · exact (hproperties q hq).bind fun _ => .pure _
    · exact (Marks.mapM hx h hembeds).bind fun _ => .pure _

section

variable (hrefer : ∀ path name, Respects I M (refer path name))
  (hexpand : ∀ u, Respects I M (expand u))

include hrefer hexpand

theorem typeText_respects (t : Ty) : Respects I M (typeText plan refer expand t) :=
  ⟨typeText_keeps (fun _ _ => trivial) t (fun path name _ => (hrefer path name).unmarked)
      fun u _ => (hexpand u).unmarked,
    typeText_keeps (fun _ _ => trivial) t (fun path name _ => (hrefer path name).marked)
      fun u _ => (hexpand u).marked⟩

theorem typeText_marks_of_writes {c : Ty} (hw : plan.Writes t c)
    (h : Marks I M (typeText plan refer expand c)) : Marks I M (typeText plan refer expand t) := by
  have hall : ∀ c, Respects I M (typeText plan refer expand c) := typeText_respects hrefer hexpand
  cases hw with
  | pointer | array | slice | map => exact h.bind fun _ => .pure _
  | field hf hshow =>
    rw [typeText, fieldTexts_eq]
    refine .after_result fun shape hshape => ?_
    refine objectText_marks ((StructShape.mem_types_ofFields hshape).2 ⟨_, ?_, hshow⟩) h
      fun y hy => ?_
    · exact mem_map_of_mem hf
    · obtain ⟨f, hf, -⟩ := (StructShape.mem_types_ofFields hshape).1 hy
      obtain ⟨g, -, heq⟩ := mem_map.1 hf
      obtain ⟨rfl, rfl⟩ := Prod.mk.inj heq
      exact hall g.type
  | arg ht | aliasArg ht =>
    rw [typeText, typeTexts_eq]
    exact .after (hrefer _ _) fun _ =>
      (Marks.mapM ht h fun a _ => hall a).bind fun _ => .pure _
  | term ht =>
    rw [typeText, termTexts_eq]
    exact (Marks.mapM ht h fun a _ => hall a.type).bind fun _ => .pure _

theorem typeText_marks_of_visits {c : Ty} (hv : plan.Visits t c)
    (h : Marks I M (typeText plan refer expand c)) : Marks I M (typeText plan refer expand t) := by
  induction hv using Relation.ReflTransGen.head_induction_on with
  | refl => exact h
  | head hw _ ih => exact typeText_marks_of_writes hrefer hexpand hw ih

theorem typeText_marks_of_expands {u : Ty} (hu : plan.Expands t u)
    (h : Marks I M (expand u)) : Marks I M (typeText plan refer expand t) := by
  obtain ⟨embeds, methods, terms, hvisit, hterms, hmem⟩ := hu
  refine typeText_marks_of_visits hrefer hexpand hvisit ?_
  rw [typeText, hterms]
  exact (Marks.mapM hmem h fun v _ => hexpand v).bind fun _ => .pure _

end

theorem expandedText_respects (hrefer : ∀ path name, Respects I M (refer path name)) (limit : Nat)
    (t : Ty) : Respects I M (expandedText plan refer limit t) := by
  induction limit generalizing t with
  | zero => exact .throw _
  | succ limit ih => exact typeText_respects hrefer ih t

/-- A mark that is left by a reference is left by every type that mentions it. -/
theorem expandedText_marks (hrefer : ∀ path name, Respects I M (refer path name))
    (hmark : Marks I M (refer path name)) (limit : Nat)
    (h : plan.Mentions t path name) : Marks I M (expandedText plan refer limit t) := by
  induction limit generalizing t with
  | zero => exact .throw fun _ _ => trivial
  | succ limit ih =>
    have hexpand : ∀ u, Respects I M (expandedText plan refer limit u) :=
      expandedText_respects hrefer limit
    obtain ⟨u, hexpands, hu⟩ := h
    rcases Relation.ReflTransGen.cases_head hexpands with rfl | ⟨v, htv, hvu⟩
    · have hargs : ∀ args : List Ty,
          Respects I M (typeTexts plan refer (expandedText plan refer limit) args) := by
        intro args
        rw [typeTexts_eq]
        exact .mapM fun a _ => typeText_respects hrefer hexpand a
      obtain ⟨args, hvisit | hvisit⟩ := hu
      · refine typeText_marks_of_visits hrefer hexpand hvisit ?_
        rw [typeText]
        exact hmark.bind fun _ => (hargs args).bind fun _ => .pure _
      · refine typeText_marks_of_visits hrefer hexpand hvisit ?_
        rw [typeText]
        exact hmark.bind fun _ => (hargs args).bind fun _ => .pure _
    · exact typeText_marks_of_expands hrefer hexpand htv (ih ⟨u, hvu, hu⟩)

end Marks

/-- A type that does not end has no text, whatever the limit is. -/
theorem expandedText_fails (h : ¬ plan.Ends t) (limit : Nat) :
    Marks (fun _ => True) (fun _ => False) (expandedText plan refer limit t) := by
  induction limit generalizing t with
  | zero => exact .throw fun _ _ => trivial
  | succ limit ih =>
    obtain ⟨u, htu, hu⟩ := Plan.exists_expands_of_not_ends h
    exact typeText_marks_of_expands (fun _ _ => .never _) (fun _ => .never _) htu
      (ih hu)

end Emitting

end DeclBridge
