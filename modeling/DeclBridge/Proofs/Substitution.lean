import DeclBridge.Proofs.Types

/-!
# Substitution

A substitution changes nothing of a type but its parameters.  One after another is one substitution,
`compose`, only the parameters that occur matter, and at every place of a type that is no parameter
all that the type there holds besides other types, its `frame`, stays.
-/

namespace DeclBridge.Ty

open List

variable {s s' : Table String Ty} {t u : Ty}

/-- The substitution that does one and then another: an argument of the first has the second applied
to it, and for other parameters the second counts. -/
def compose (s t : Table String Ty) : Table String Ty := ⟨(s.mapValues (subst t)).entries ++ t.entries⟩

theorem get?_compose (s t : Table String Ty) (name : String) :
    (compose s t).get? name = ((s.get? name).map (subst t)).or (t.get? name) := by
  rw [← Table.get?_mapValues, Table.get?, compose, find?_append, Option.map_or]
  rfl

/-- What a type holds besides the types inside it: names, tags, marks, lengths, directions, methods
and tildes. -/
def frame (t : Ty) : Ty := t.mapChildren fun _ => basic .bool

/-- The type at a place inside a type, where each number says which of the types directly inside it
comes next. -/
def at? (t : Ty) : List Nat → Option Ty
  | [] => some t
  | i :: place => t.children[i]?.bind (·.at? place)

theorem subst_subst (s s' : Table String Ty) (t : Ty) :
    (t.subst s).subst s' = t.subst (compose s s') := by
  induction t using paramInduction with
  | param n i =>
    simp only [subst, get?_compose]
    cases s.get? n <;> rfl
  | step t hparam ih =>
    rw [subst_eq s' (subst_ne_param s hparam), subst_eq s hparam, mapChildren_mapChildren,
      mapChildren_congr ih, subst_eq _ hparam]

theorem subst_congr (h : ∀ n i, param n i ∈ t.parts → s.get? n = s'.get? n) :
    t.subst s = t.subst s' := by
  induction t using paramInduction with
  | param n i => rw [subst, subst, h n i (self_mem_parts _)]
  | step t hparam ih =>
    rw [subst_eq s hparam, subst_eq s' hparam]
    refine mapChildren_congr fun c hc => ih c hc fun n i hmem => ?_
    exact h n i (parts_trans (child_mem_parts hc) hmem)

theorem frame_subst (s : Table String Ty) (h : ∀ n i, t ≠ param n i) :
    (t.subst s).frame = t.frame := by
  rw [frame, subst_eq s h, mapChildren_mapChildren, frame]

/-- At the place of a type stands, after a substitution, that type after it. -/
theorem at?_subst (s : Table String Ty) {place : List Nat} (h : t.at? place = some u) :
    (t.subst s).at? place = some (u.subst s) := by
  induction place generalizing t with
  | nil => rw [← Option.some.inj h]; rfl
  | cons i place ih =>
    obtain ⟨c, hc, hplace⟩ := Option.bind_eq_some_iff.1 h
    have hparam : ∀ n j, t ≠ param n j := by
      rintro n j rfl
      cases hc
    rw [at?, children_subst s hparam, getElem?_map, hc]
    exact ih hplace

/-- Substitutions compose, depend only on the parameters that occur, and keep all of a type but its
parameters. -/
theorem subst_law (s : Table String Ty) (t : Ty) :
    (∀ s', (t.subst s).subst s' = t.subst (compose s s') ∧
      ∀ name, (compose s s').get? name = ((s.get? name).map (subst s')).or (s'.get? name)) ∧
    (∀ s', (∀ name index, param name index ∈ t.parts → s.get? name = s'.get? name) →
      t.subst s = t.subst s') ∧
    ∀ place u, t.at? place = some u → (t.subst s).at? place = some (u.subst s) ∧
      ((∀ name index, u ≠ param name index) → (u.subst s).frame = u.frame) :=
  ⟨fun s' => ⟨subst_subst s s' t, get?_compose s s'⟩, fun _ => subst_congr,
    fun _ _ h => ⟨at?_subst s h, frame_subst s⟩⟩

end DeclBridge.Ty
