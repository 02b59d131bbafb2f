import DeclBridge.Proofs.RunInvariants

/-!
# What a run has come to

A definition is made only after the texts of all its types, so where a definition stands, its types
end and everything they mention was referred to.  `Plan.Covers` says so of all places of a state,
but for those that are still reserved, and a run keeps it.

This needs names that tell symbols apart (`Program.Keyed`): of two symbols with one name in a
package only the first is ever written.
-/

namespace DeclBridge

open Emission

namespace Plan

variable {plan : Plan} {e e' : Emission} {k n : String}

/-- Every symbol with a definition has been explored. -/
def Covers (plan : Plan) (e : Emission) : Prop :=
  ∀ k s, plan.Place k s → e.taken k s.name = true → e.reserved k s.name = false →
    plan.Explored e s

/-- Only definitions make a difference, and there may be more references. -/
theorem Covers.congr (h : plan.Covers e) (htexts : ∀ k n, e'.text? k n = e.text? k n)
    (hreferences : e.references ⊆ e'.references) : plan.Covers e' := by
  intro k s hplace htaken hreserved
  rw [taken_eq_isSome, htexts, ← taken_eq_isSome] at htaken
  rw [reserved_eq_any, htexts, ← reserved_eq_any] at hreserved
  exact (h k s hplace htaken hreserved).mono hreferences

/-- A text for a name covers what it did before, if the text is a reservation or the symbols of that
name have been explored. -/
theorem Covers.withText (h : plan.Covers e) (hk : (e.module? k).isSome) {text : Text}
    (hexplored : text = .empty ∨ ∀ s, plan.Place k s → s.name = n → plan.Explored e s) :
    plan.Covers (e.update k (·.withText n text)) := by
  intro k' s hplace htaken hreserved
  rw [reserved_withText hk] at hreserved
  have hsame : plan.Explored e s → plan.Explored (e.update k (·.withText n text)) s := id
  split at hreserved
  · obtain ⟨rfl, rfl⟩ := ‹_ ∧ _›
    rcases hexplored with rfl | hexplored
    · cases hreserved
    · exact hsame (hexplored s hplace rfl)
  · rename_i hne
    rw [taken_withText_of_ne hne] at htaken
    exact hsame (h k' s hplace htaken hreserved)

theorem start_covers (plan : Plan) : plan.Covers plan.start := by
  intro k s _ htaken
  cases htaken

/-- A definition is made of a symbol that has been explored. -/
theorem maintains_covers (hinj : NameTable.Injective plan.names.names)
    (hkeyed : plan.program.Keyed) : plan.Maintains fun _ => plan.Covers where
  same hquiet h := h.congr hquiet.texts (hquiet.references ▸ List.Subset.refl _)
  imported _ h := h.congr (sameTexts_addImport _ _ _).texts (List.Subset.refl _)
  opened _ _ _ h := h
  reserve _ _ _ _ hk _ h := h.withText hk (.inl rfl)
  write hplace hk _ _ hexplored h := h.withText hk <| .inr fun _ hplace' hname =>
    Emitting.eq_of_place hinj hkeyed hplace hplace' hname ▸ hexplored
  unknown _ _ _ _ hk _ hnone h := h.withText hk <| .inr fun s hplace hname =>
    .of_nil (hnone s hplace hname)
  closed _ _ _ _ h := h.congr (fun _ _ => rfl) (List.subset_append_left _ _)
  noted _ _ _ h := h.congr (fun _ _ => rfl) (List.subset_append_left _ _)

end Plan

/-- A run covers all that it makes, and writes all that is selected. -/
theorem Emitting.defineRequested_covers {plan : Plan} {e₀ : Emission}
    (hinj : NameTable.Injective plan.names.names) (hkeyed : plan.program.Keyed)
    {limit count : Nat} {requested : List (Selection × Package)}
    (hrequested : ∀ r ∈ requested, plan.program.packages.get? r.2.path = some r.2)
    (h₀ : e₀.Sound plan) (hcovers : plan.Covers e₀) :
    Triple (· = e₀) (defineRequested plan limit count requested)
      (fun _ e => ((e.Sound plan ∧ e₀.Grows e) ∧ plan.Covers e) ∧ ∀ r ∈ requested, Written plan r e)
      (fun _ _ => True) :=
  defineRequested_maintains hinj (Plan.maintains_covers hinj hkeyed) hrequested
    (fun _ _ _ _ hk _ h => h.withText hk (.inl rfl)) h₀ hcovers

end DeclBridge
