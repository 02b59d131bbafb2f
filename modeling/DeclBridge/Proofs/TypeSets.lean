import DeclBridge.Proofs.MovedResolution
import DeclBridge.Proofs.TermSet

/-!
# What interfaces admit

The set of types that an interface admits is given by equations (`Program.TypeSets`): a union admits
what one of its terms admits, an interface what all its elements admit, and every other type admits
itself alone.  The equations may have more than one solution where an interface is a term of its own
union; `Program.Belongs` is the least, and the statements hold for all of them.

The terms that are computed for an interface keep every type that it admits, unless one of two
things happens on the way (`Program.termSet_retains`).  Elements are intersected by comparing their
terms, so a term that is an interface does not meet the types in its set
(`Program.Blurs`); and a declared interface is taken as it is declared, without the arguments of the
reference (`Program.Shifts`).
-/

namespace DeclBridge

open Resolving List Ty Program

variable {methods : List String} {id : SymbolId} {args : List Ty} {p : Program} {es : List Ty}
  {i t u : Ty} {S : Ty → Ty → Prop}

/-! ## Structural identity -/

namespace Ty

variable {v : Ty}

theorem same_refl (t : Ty) : t.same t = true := same_iff.2 rfl

theorem same_of_same (ht : t.same v = true) (hu : u.same v = true) : t.same u = true :=
  same_iff.2 ((same_iff.1 ht).trans (same_iff.1 hu).symm)

/-- The predeclared interface of the types that can be compared. -/
def comparable : Ty := named ⟨none, "comparable"⟩ []

theorem eq_comparable_of_same (h : t.same comparable = true) : t = comparable := by
  have heq := same_iff.1 h
  rw [unplaced_eq, unplaced_eq] at heq
  cases t with
  | named id args => simpa [comparable, mapChildren, placed] using heq
  | _ => cases heq

theorem exists_mem_dedupe {types : List Ty} (ht : t ∈ types) :
    ∃ u ∈ dedupe types, t.same u = true := by
  -- what is kept stays, and what is not kept is identical to something that is
  have hfold : ∀ (types kept : List Ty), (t ∈ types ∨ ∃ u ∈ kept, t.same u = true) →
      ∃ u ∈ types.foldl (fun kept t => if kept.any (t.same ·) then kept else kept ++ [t]) kept,
        t.same u = true := by
    intro types
    induction types with
    | nil => exact fun kept h => h.resolve_left not_mem_nil
    | cons first rest ih =>
      intro kept h
      refine ih _ ?_
      dsimp only
      rcases h with h | ⟨u, hu, hsame⟩
      · rcases mem_cons.1 h with rfl | h
        · refine .inr ?_
          split
          · exact any_eq_true.1 ‹_›
          · exact ⟨t, mem_append_right _ (mem_singleton_self t), same_refl t⟩
        · exact .inl h
      · refine .inr ⟨u, ?_, hsame⟩
        split
        · exact hu
        · exact mem_append_left _ hu
  exact hfold types [] (.inl ht)

end Ty

/-! ## Type sets -/

namespace Program

/-- What a declared interface embeds, as it is declared. -/
def declaredEmbeds? (p : Program) (id : SymbolId) : Option (List Ty) :=
  match (p.typeInfo id).underlying with
  | some (.interface embeds _) => some embeds
  | _ => none

theorem declaredEmbeds?_of_none (h : id.package = none) : p.declaredEmbeds? id = none := by
  rw [declaredEmbeds?, typeInfo, h]
  rfl

/-- What a reference to a declared interface embeds: the arguments take the places of the
parameters. -/
def instanceEmbeds? (p : Program) (id : SymbolId) (args : List Ty) : Option (List Ty) :=
  (p.declaredEmbeds? id).map (map (instantiate (p.typeInfo id).params args))

/-- What an interface embeds, whether it is written out, declared, or the type of all errors. -/
def embeds? (p : Program) : Ty → Option (List Ty)
  | .interface embeds _ => some embeds
  | .named id args => if id = ⟨none, "error"⟩ then some [] else p.instanceEmbeds? id args
  | .aliased id args => p.instanceEmbeds? id args
  | _ => none

/-- A type that is neither an interface nor a union. -/
structure IsSingle (p : Program) (u : Ty) : Prop where
  embeds : p.embeds? u = none
  union : ∀ terms, u ≠ .union terms
  comparable : u ≠ .comparable

theorem instanceEmbeds?_eq_none_iff :
    p.instanceEmbeds? id args = none ↔ p.declaredEmbeds? id = none := by
  rw [instanceEmbeds?, Option.map_eq_none_iff]

theorem IsSingle.of_same {v : Ty} (hu : p.IsSingle u) (h : u.same v = true) : p.IsSingle v := by
  have hcomparable : v ≠ .comparable := by
    rintro rfl
    exact hu.comparable (eq_comparable_of_same h)
  have hembeds := hu.embeds
  cases v with
  | union terms =>
    cases u with
    | union terms' => exact absurd rfl (hu.union terms')
    | _ => cases h
  | interface es methods =>
    cases u with
    | interface => cases hembeds
    | _ => cases h
  | named id args =>
    cases u with
    | named id' args' =>
      rw [same, Bool.and_eq_true, beq_iff_eq] at h
      obtain ⟨rfl, -⟩ := h
      refine ⟨?_, fun _ h => (by cases h), hcomparable⟩
      rw [embeds?] at hembeds ⊢
      split at hembeds
      · cases hembeds
      · rw [if_neg ‹_›]
        exact instanceEmbeds?_eq_none_iff.2 (instanceEmbeds?_eq_none_iff.1 hembeds)
    | _ => cases h
  | aliased id args =>
    cases u with
    | aliased id' args' =>
      rw [same, Bool.and_eq_true, beq_iff_eq] at h
      obtain ⟨rfl, -⟩ := h
      exact ⟨instanceEmbeds?_eq_none_iff.2 (instanceEmbeds?_eq_none_iff.1 hembeds),
        fun _ h => (by cases h), hcomparable⟩
    | _ => cases h
  | basic | pointer | array | slice | map | chan | func | struct | param =>
    exact ⟨rfl, fun _ h => (by cases h), hcomparable⟩

/-- `S u` is the set of the types that `u` admits: a union admits what one of its terms does, an
interface what all its elements do, and any other type admits itself.  Which types can be compared
is left open. -/
structure TypeSets (p : Program) (S : Ty → Ty → Prop) : Prop where
  union : ∀ terms t, S (.union terms) t ↔ ∃ u ∈ terms, S u.type t
  interface : ∀ u embeds t, p.embeds? u = some embeds → (S u t ↔ ∀ e ∈ embeds, S e t)
  single : ∀ u t, p.IsSingle u → (S u t ↔ u.same t = true)
  same : ∀ u v t, u.same v = true → (S u t ↔ S v t)

/-- The least sets of types that fulfil the equations. -/
inductive Belongs (p : Program) : Ty → Ty → Prop
  | term {terms : List (Term Ty)} {u : Term Ty} {t : Ty} :
    u ∈ terms → Belongs p u.type t → Belongs p (.union terms) t
  | interface {u t : Ty} {embeds : List Ty} :
    p.embeds? u = some embeds → (∀ e ∈ embeds, Belongs p e t) → Belongs p u t
  | single {u t : Ty} : p.IsSingle u → u.same t = true → Belongs p u t

theorem same_instantiate {args' : List Ty} (h : args.map Ty.unplaced = args'.map Ty.unplaced)
    (params : List TypeParam) (t : Ty) :
    (instantiate params args t).same (instantiate params args' t) = true := by
  rw [Ty.same_iff, Ty.unplaced, ← instantiate_moved, ← instantiate_moved, h]

theorem embeds?_of_same {v : Ty} (h : u.same v = true) (hu : p.embeds? u = some es) :
    ∃ es', p.embeds? v = some es' ∧ ∀ e' ∈ es', ∃ e ∈ es, e.same e' = true := by
  have hinstance {id : SymbolId} {args args' : List Ty}
      (hargs : args.map Ty.unplaced = args'.map Ty.unplaced)
      (hes : p.instanceEmbeds? id args = some es) :
      ∃ es', p.instanceEmbeds? id args' = some es' ∧ ∀ e' ∈ es', ∃ e ∈ es, e.same e' = true := by
    obtain ⟨declared, hdeclared, rfl⟩ := Option.map_eq_some_iff.1 hes
    refine ⟨_, by rw [instanceEmbeds?, hdeclared]; rfl, forall_mem_map.2 fun e he => ?_⟩
    exact ⟨_, mem_map_of_mem he, same_instantiate hargs _ e⟩
  cases u with
  | interface embeds methods =>
    cases v with
    | interface embeds' methods' =>
      cases hu
      refine ⟨embeds', rfl, fun e' he' => ?_⟩
      have heq := Ty.same_iff.1 h
      rw [Ty.unplaced, moved_interface, moved_interface] at heq
      replace heq := (interface.inj heq).1
      obtain ⟨e, he, hsame⟩ := mem_map.1 (heq ▸ mem_map_of_mem he')
      exact ⟨e, he, same_iff.2 hsame⟩
    | _ => cases h
  | named id args =>
    cases v with
    | named id' args' =>
      have heq := same_iff.1 h
      rw [Ty.unplaced, moved_named, moved_named] at heq
      obtain ⟨rfl, hargs⟩ := named.inj heq
      rw [embeds?] at hu ⊢
      split at hu
      · cases hu
        exact ⟨[], if_pos ‹_›, forall_mem_nil _⟩
      · rw [if_neg ‹_›]
        exact hinstance hargs hu
    | _ => cases h
  | aliased id args =>
    cases v with
    | aliased id' args' =>
      have heq := same_iff.1 h
      rw [Ty.unplaced, moved_aliased, moved_aliased] at heq
      obtain ⟨rfl, hargs⟩ := aliased.inj heq
      exact hinstance hargs hu
    | _ => cases h
  | _ => cases hu

theorem Belongs.of_same {v : Ty} (h : p.Belongs u t) (hsame : u.same v = true) : p.Belongs v t := by
  induction h generalizing v with
  | @term terms w t hw _ ih =>
    cases v with
    | union terms' =>
      have heq := same_iff.1 hsame
      rw [Ty.unplaced, moved_union, moved_union] at heq
      obtain ⟨w', hw', hmoved⟩ := mem_map.1 (union.inj heq ▸ mem_map_of_mem hw)
      exact .term hw' (ih (same_iff.2 (Term.mk.inj hmoved).2.symm))
    | _ => cases hsame
  | interface hembeds _ ih =>
    obtain ⟨es', hes', hall⟩ := embeds?_of_same hsame hembeds
    refine .interface hes' fun e' he' => ?_
    obtain ⟨e, he, hsame⟩ := hall e' he'
    exact ih e he hsame
  | single hsingle hself =>
    exact .single (hsingle.of_same hsame)
      (same_iff.2 ((same_iff.1 hsame).symm.trans (same_iff.1 hself)))

theorem belongs_typeSets (p : Program) : p.TypeSets p.Belongs where
  union terms t := by
    constructor
    · intro h
      cases h with
      | term hu h => exact ⟨_, hu, h⟩
      | interface hembeds => cases hembeds
      | single hsingle => exact absurd rfl (hsingle.union terms)
    · rintro ⟨u, hu, h⟩
      exact .term hu h
  interface u embeds t hu := by
    refine ⟨fun h => ?_, .interface hu⟩
    cases h with
    | term => cases hu
    | interface hembeds h =>
      cases hu.symm.trans hembeds
      exact h
    | single hsingle => exact absurd (hsingle.embeds.symm.trans hu) (by simp)
  single u t hu := by
    refine ⟨fun h => ?_, .single hu⟩
    cases h with
    | term => exact absurd rfl (hu.union _)
    | interface hembeds => exact absurd (hu.embeds.symm.trans hembeds) (by simp)
    | single _ h => exact h
  same u v t h := by
    refine ⟨fun hu => hu.of_same h, fun hv => hv.of_same (same_iff.2 (same_iff.1 h).symm)⟩

/-! ## The way to the terms -/

/-- What the terms of an interface are computed from: a declared interface counts as it is
declared. -/
def elements? (p : Program) : Ty → Option (List Ty)
  | .interface embeds _ => some embeds
  | t => t.symbol?.bind p.declaredEmbeds?

theorem elements?_of_declared (hid : u.symbol? = some id)
    (hunder : (p.typeInfo id).underlying = some (.interface es methods)) :
    p.elements? u = some es := by
  have hdeclared : p.declaredEmbeds? id = some es := by rw [declaredEmbeds?, hunder]
  cases u with
  | named | aliased =>
    cases hid
    exact hdeclared
  | _ => cases hid

/-- The types that are come to when the terms of a type are computed. -/
inductive Enters (p : Program) : Ty → Ty → Prop
  | self (t : Ty) : Enters p t t
  | element {t e u : Ty} {es : List Ty} :
    p.elements? t = some es → e ∈ es → Enters p e u → Enters p t u

/-- A union with a term that is no single type and that admits `t`. -/
def Vague (p : Program) (S : Ty → Ty → Prop) (i t : Ty) : Prop :=
  ∃ terms u, p.Enters i (.union terms) ∧ u ∈ terms ∧ ¬ p.IsSingle u.type ∧ S u.type t

/-- Several elements are intersected, and in one of them `t` is admitted by an interface that is a
term of a union. -/
def Blurs (p : Program) (S : Ty → Ty → Prop) (i t : Ty) : Prop :=
  ∃ j es e, p.Enters i j ∧ p.elements? j = some es ∧ 2 ≤ es.length ∧ e ∈ es ∧ p.Vague S e t

/-- A reference to a declared interface admits `t` with its arguments, and not as it is declared. -/
def Shifts (p : Program) (S : Ty → Ty → Prop) (i t : Ty) : Prop :=
  ∃ j es, p.Enters i j ∧ p.elements? j = some es ∧ S j t ∧ ∃ e ∈ es, ¬ S e t

variable {e : Ty}

section

variable (hi : p.elements? i = some es)

include hi

theorem Vague.of_element (he : e ∈ es) (h : p.Vague S e t) : p.Vague S i t := by
  obtain ⟨terms, u, henters, h⟩ := h
  exact ⟨terms, u, .element hi he henters, h⟩

theorem Blurs.of_element (he : e ∈ es) (h : p.Blurs S e t) : p.Blurs S i t := by
  obtain ⟨j, es', e', henters, h⟩ := h
  exact ⟨j, es', e', .element hi he henters, h⟩

theorem Shifts.of_element (he : e ∈ es) (h : p.Shifts S e t) : p.Shifts S i t := by
  obtain ⟨j, es', henters, h⟩ := h
  exact ⟨j, es', .element hi he henters, h⟩

/-- What a reference leads to enters what the reference does. -/
theorem Enters.of_declared (h : p.Enters (.interface es methods) u) :
    u = .interface es methods ∨ p.Enters i u := by
  cases h with
  | self => exact .inl rfl
  | element hes he h =>
    cases hes
    exact .inr (.element hi he h)

theorem Vague.of_declared (h : p.Vague S (.interface es methods) t) : p.Vague S i t := by
  obtain ⟨terms, u, henters, h⟩ := h
  exact ⟨terms, u, (henters.of_declared hi).resolve_left (fun h => by cases h), h⟩

theorem Blurs.of_declared (h : p.Blurs S (.interface es methods) t) : p.Blurs S i t := by
  obtain ⟨j, es', e', henters, hes', h⟩ := h
  rcases henters.of_declared hi with rfl | henters
  · cases hes'
    exact ⟨i, es, e', .self i, hi, h⟩
  · exact ⟨j, es', e', henters, hes', h⟩

theorem Shifts.of_declared (hS : p.TypeSets S)
    (h : p.Shifts S (.interface es methods) t) : p.Shifts S i t := by
  obtain ⟨j, es', henters, hes', hj, e', he', hnot⟩ := h
  rcases henters.of_declared hi with rfl | henters
  · cases hes'
    exact absurd ((hS.interface _ es t rfl).1 hj e' he') hnot
  · exact ⟨j, es', henters, hes', hj, e', he', hnot⟩

/-- Without a shift, what an interface admits all its elements do. -/
theorem TypeSets.elements (ht : S i t) (hshifts : ¬ p.Shifts S i t) : ∀ e ∈ es, S e t :=
  fun e he => by_contra fun hnot => hshifts ⟨i, es, .self i, hi, ht, e, he, hnot⟩

end

end Program

/-! ## Terms -/

namespace TermSet

/-- Terms, if they restrict at all, that are none or have one that admits `t`. -/
def Retains (S : Ty → Ty → Prop) (t : Ty) (set : Option (List Ty)) : Prop :=
  ∀ terms, set = some terms → terms = [] ∨ ∃ u ∈ terms, S u t

/-- Terms, if they restrict at all, that are none, have `t` among them, or leave open what they
admit. -/
def RetainsPlainly (S : Ty → Ty → Prop) (t : Ty) (set : Option (List Ty)) : Prop :=
  ∀ terms, set = some terms → terms = [] ∨ (∃ u ∈ terms, u.same t = true ∧ S u t) ∨
    S .comparable t ∧ ∀ u ∈ terms, u = .comparable

variable {set : Option (List Ty)}

theorem RetainsPlainly.retains (h : RetainsPlainly S t set) : Retains S t set := by
  intro terms hterms
  rcases h terms hterms with h | ⟨u, hu, -, hS⟩ | ⟨hS, hall⟩
  · exact .inl h
  · exact .inr ⟨u, hu, hS⟩
  · cases terms with
    | nil => exact .inl rfl
    | cons u us => exact .inr ⟨u, mem_cons_self, hall u mem_cons_self ▸ hS⟩

theorem mem_foldl_common_iff {others : List (List Ty)} {first : List Ty} :
    u ∈ others.foldl common first ↔ u ∈ first ∧ ∀ other ∈ others, ∃ v ∈ other, u.same v = true := by
  induction others generalizing first with
  | nil => simp
  | cons next others ih =>
    rw [foldl_cons, ih, common, mem_filter, any_eq_true, forall_mem_cons,
      and_assoc]

/-- What all sets have among them is common to them. -/
theorem retainsPlainly_meet {sets : List (Option (List Ty))}
    (h : ∀ set ∈ sets, RetainsPlainly S t set) : RetainsPlainly S t (meet sets) := by
  have hsome {terms : List Ty} (hterms : terms ∈ sets.filterMap id) :=
    h (some terms) (by simpa using hterms) terms rfl
  intro terms hterms
  rw [meet] at hterms
  split at hterms
  · cases hterms
  · rename_i first others hsets
    cases hterms
    rw [hsets] at hsome
    by_cases hempty : others.foldl common first = []
    · exact .inl hempty
    refine .inr ?_
    obtain ⟨w, hw⟩ := exists_mem_of_ne_nil _ hempty
    obtain ⟨hfirst, hothers⟩ := mem_foldl_common_iff.1 hw
    by_cases hopen : ∃ other ∈ first :: others, ∀ u ∈ other, u = .comparable
    · -- only the open term can be common to a set that has no other
      obtain ⟨other, hother, hall⟩ := hopen
      have hcomparable (u : Ty) (hu : u ∈ others.foldl common first) : u = .comparable := by
        obtain ⟨hu, husame⟩ := mem_foldl_common_iff.1 hu
        rcases mem_cons.1 hother with rfl | hother
        · exact hall u hu
        · obtain ⟨v, hv, hsame⟩ := husame other hother
          rw [hall v hv] at hsame
          exact eq_comparable_of_same hsame
      have hadmits : S .comparable t := by
        rcases hsome hother with rfl | ⟨u, hu, -, hS⟩ | ⟨hS, -⟩
        · rcases mem_cons.1 hother with rfl | hother
          · cases hfirst
          · obtain ⟨v, hv, -⟩ := hothers _ hother
            cases hv
        · exact hall u hu ▸ hS
        · exact hS
      exact .inr ⟨hadmits, hcomparable⟩
    · have hfound {other : List Ty} (hother : other ∈ first :: others) :
          ∃ u ∈ other, u.same t = true ∧ S u t := by
        rcases hsome hother with rfl | hfound | ⟨-, hall⟩
        · exact absurd ⟨[], hother, forall_mem_nil _⟩ hopen
        · exact hfound
        · exact absurd ⟨other, hother, hall⟩ hopen
      obtain ⟨u, hu, husame, hS⟩ := hfound mem_cons_self
      refine .inl ⟨u, mem_foldl_common_iff.2 ⟨hu, fun other hother => ?_⟩, husame, hS⟩
      obtain ⟨v, hv, hvsame, -⟩ := hfound (mem_cons_of_mem first hother)
      exact ⟨v, hv, same_of_same husame hvsame⟩

/-- A property of computed terms, by the ways in which they are computed. -/
theorem within_of_cases {P : Ty → Prop} {R : Ty → Option (List Ty) → Prop} (hnone : ∀ u, R u none)
    (hsingle : ∀ u, P u → p.IsSingle u ∨ u = .comparable → R u (some [u]))
    (hunion : ∀ terms, P (.union terms) → R (.union terms) (some (dedupe (terms.map (·.type)))))
    (hmeet : ∀ es methods set, P (.interface es methods) → (∀ e ∈ es, P e → R e (set e)) →
      R (.interface es methods) (meet (es.map set)))
    (hdeclared : ∀ u es methods, P u → p.elements? u = some es →
      P (.interface es methods) ∧ ∀ set, R (.interface es methods) set → R u set)
    (count : Nat) (seen : List SymbolId) (hi : P i) : R i (within p.typeInfo count seen i) := by
  induction count generalizing seen i with
  | zero => exact hnone i
  | succ count ih =>
    -- a reference to a declared type is its definition, or a single type
    have hreference {u : Ty} {id : SymbolId} (hu : P u) (hid : u.symbol? = some id)
        (hembeds : p.embeds? u = p.instanceEmbeds? id (u.children))
        (hcomparable : u ≠ .comparable) :
        R u (match (p.typeInfo id).underlying with
          | some (.interface embeds methods) =>
            if id ∈ seen then none
            else within p.typeInfo count (id :: seen) (.interface embeds methods)
          | _ => some [u]) := by
      split
      · split
        · exact hnone u
        · obtain ⟨hP, hR⟩ := hdeclared u _ _ hu (elements?_of_declared hid ‹_›)
          exact hR _ (ih _ hP)
      · rename_i hunder
        refine hsingle u hu (.inl ⟨?_, fun terms heq => ?_, hcomparable⟩)
        · rw [hembeds, instanceEmbeds?, declaredEmbeds?]
          split
          · exact absurd ‹_› (hunder _ _)
          · rfl
        · rw [heq] at hid
          cases hid
    rw [within]
    induction i with
    | union terms => exact hunion terms hi
    | interface es methods ih' =>
      rw [ofTy, ofTys_eq]
      exact hmeet es methods _ hi fun e he hP => ih' e he hP
    | named id args =>
      rw [ofTy]
      split
      · rename_i hpackage
        refine hreference hi rfl ?_ fun heq => ?_
        · rw [embeds?, if_neg (by rintro rfl; cases hpackage)]
          rfl
        · cases heq
          cases hpackage
      · rename_i hpackage
        rw [Option.not_isSome_iff_eq_none] at hpackage
        split
        · exact hnone _
        · rename_i hname
          refine hsingle _ hi ?_
          by_cases heq : named id args = .comparable
          · exact .inr heq
          · refine .inl ⟨?_, fun _ h => (by cases h), heq⟩
            rw [embeds?, if_neg fun h => hname (congrArg SymbolId.name h),
              instanceEmbeds?, declaredEmbeds?_of_none hpackage]
            rfl
    | aliased id args =>
      rw [ofTy]
      split
      · exact hreference hi rfl rfl fun heq => by cases heq
      · rename_i hpackage
        rw [Option.not_isSome_iff_eq_none] at hpackage
        refine hsingle _ hi (.inl ⟨?_, fun _ h => (by cases h), fun h => (by cases h)⟩)
        rw [embeds?, instanceEmbeds?, declaredEmbeds?_of_none hpackage]
        rfl
    | basic | pointer | array | slice | map | chan | func | struct | param =>
      exact hsingle _ hi (.inl ⟨rfl, fun _ h => (by cases h), fun h => (by cases h)⟩)

theorem retainsPlainly_single (hS : p.TypeSets S) (hu : S u t)
    (hcases : p.IsSingle u ∨ u = .comparable) : RetainsPlainly S t (some [u]) := by
  rintro _ ⟨⟩
  rcases hcases with hsingle | rfl
  · exact .inr (.inl ⟨u, mem_singleton_self u, (hS.single u t hsingle).1 hu, hu⟩)
  · exact .inr (.inr ⟨hu, fun v hv => mem_singleton.1 hv⟩)

theorem retains_union {terms : List (Term Ty)} (hS : p.TypeSets S) (h : S (.union terms) t) :
    ∃ u ∈ terms, S u.type t ∧ ∃ v ∈ dedupe (terms.map (·.type)), u.type.same v = true ∧ S v t := by
  obtain ⟨u, hu, huS⟩ := (hS.union terms t).1 h
  obtain ⟨v, hv, hsame⟩ := exists_mem_dedupe (mem_map_of_mem (f := (·.type)) hu)
  exact ⟨u, hu, huS, v, hv, hsame, (hS.same _ v t hsame).1 huS⟩

theorem retains_meet {set : Ty → Option (List Ty)} (hone : ∀ e ∈ es, Retains S t (set e))
    (hmany : 2 ≤ es.length → ∀ e ∈ es, RetainsPlainly S t (set e)) :
    Retains S t (meet (es.map set)) := by
  rcases es with _ | ⟨e, _ | ⟨e', es⟩⟩
  · exact fun _ h => by cases h
  · have hset := hone e (mem_singleton_self e)
    rw [map_singleton, meet]
    cases hterms : set e with
    | none => exact fun _ h => by cases h
    | some terms =>
      rw [hterms] at hset
      exact hset
  · exact (retainsPlainly_meet (forall_mem_map.2 (hmany (by simp)))).retains

/-- What a type admits is kept among its terms: as it is where no union is vague, and in any case
where no vague one is intersected with other elements. -/
theorem retains_within (hS : p.TypeSets S) (ht : S i t) (hshifts : ¬ p.Shifts S i t)
    (count : Nat) (seen : List SymbolId) :
    (¬ p.Vague S i t → RetainsPlainly S t (within p.typeInfo count seen i)) ∧
      (¬ p.Blurs S i t → Retains S t (within p.typeInfo count seen i)) := by
  refine within_of_cases (P := fun i => S i t ∧ ¬ p.Shifts S i t) (R := fun i set =>
    (¬ p.Vague S i t → RetainsPlainly S t set) ∧ (¬ p.Blurs S i t → Retains S t set))
    ?_ ?_ ?_ ?_ ?_ count seen ⟨ht, hshifts⟩
  · exact fun _ => ⟨fun _ _ h => (by cases h), fun _ _ h => (by cases h)⟩
  · rintro u ⟨hu, -⟩ hcases
    have hplainly := retainsPlainly_single hS hu hcases
    exact ⟨fun _ => hplainly, fun _ => hplainly.retains⟩
  · rintro terms ⟨hunion, -⟩
    obtain ⟨u, hu, huS, v, hv, hsame, hvS⟩ := retains_union hS hunion
    refine ⟨fun hvague => ?_, fun _ => ?_⟩
    · have hsingle : p.IsSingle u.type :=
        by_contra fun hnot => hvague ⟨terms, u, .self _, hu, hnot, huS⟩
      rintro _ ⟨⟩
      exact .inr (.inl ⟨v, hv, (hS.single v t (hsingle.of_same hsame)).1 hvS, hvS⟩)
    · rintro _ ⟨⟩
      exact .inr ⟨v, hv, hvS⟩
  · rintro es methods set ⟨hes, hshifts⟩ hset
    have helement (e : Ty) (he : e ∈ es) := hset e he
      ⟨(hS.interface _ es t rfl).1 hes e he, fun h => hshifts (h.of_element rfl he)⟩
    refine ⟨fun hvague => ?_, fun hblurs => ?_⟩
    · exact retainsPlainly_meet (forall_mem_map.2 fun e he =>
        (helement e he).1 fun h => hvague (h.of_element rfl he))
    · refine retains_meet (fun e he => (helement e he).2 fun h => hblurs (h.of_element rfl he))
        fun htwo e he => (helement e he).1 fun h => ?_
      exact hblurs ⟨_, es, e, .self _, rfl, htwo, he, h⟩
  · rintro u es methods ⟨hu, hshifts⟩ hes
    refine ⟨⟨(hS.interface _ es t rfl).2 (Program.TypeSets.elements hes hu hshifts),
      fun h => hshifts (h.of_declared hes hS)⟩,
      fun set hset => ⟨fun hvague => ?_, fun hblurs => ?_⟩⟩
    · exact hset.1 fun h => hvague (h.of_declared hes)
    · exact hset.2 fun h => hblurs (h.of_declared hes)

end TermSet

namespace Program

/-- The terms of an interface lose no type that it admits: there are none, or one of them admits it
— unless several elements are intersected and one of them admits the type through an interface in a
union, or a reference to a declared interface admits it with its arguments only. -/
theorem termSet_retains {p : Program} {S : Ty → Ty → Prop} {i t : Ty} (hS : p.TypeSets S)
    (ht : S i t) : (p.termSet i = none ∨ p.termSet i = some [] ∨
      ∃ terms, p.termSet i = some terms ∧ ∃ u ∈ terms, S u t) ∨ p.Blurs S i t ∨ p.Shifts S i t := by
  by_cases hblurs : p.Blurs S i t
  · exact .inr (.inl hblurs)
  by_cases hshifts : p.Shifts S i t
  · exact .inr (.inr hshifts)
  refine .inl ?_
  have hretains := (TermSet.retains_within hS ht hshifts (p.symbolCount + 1) []).2 hblurs
  cases hterms : p.termSet i with
  | none => exact .inl rfl
  | some terms =>
    rcases hretains terms hterms with rfl | hfound
    · exact .inr (.inl rfl)
    · exact .inr (.inr ⟨terms, rfl, hfound⟩)

/-- A program with `type A interface { int }`. -/
def constrained : Program where
  packages := ⟨[("p", {
    path := "p", name := "p"
    symbols := ⟨[("A", {
      name := "A", package := some "p"
      body := .type { underlying := some (.interface [.basic .int] []) } })]⟩ })]⟩

/-- The interface `interface { A | string; int | string }`. -/
def mixedInterface : Ty :=
  .interface [.union [⟨false, .named ⟨some "p", "A"⟩ []⟩, ⟨false, .basic .string⟩],
    .union [⟨false, .basic .int⟩, ⟨false, .basic .string⟩]] []

theorem constrained_isSingle (k : Kind) : constrained.IsSingle (.basic k) :=
  ⟨rfl, fun _ h => (by cases h), fun h => (by cases h)⟩

/-- The interface admits `int` by its first element through `A`, and only `string` is left. -/
theorem termSet_retains_mixed : constrained.TypeSets constrained.Belongs ∧
    constrained.Belongs mixedInterface (.basic .int) ∧
    constrained.termSet mixedInterface = some [.basic .string] ∧
    (constrained.Blurs constrained.Belongs mixedInterface (.basic .int) ∨
      constrained.Shifts constrained.Belongs mixedInterface (.basic .int)) := by
  have hint : constrained.Belongs (.basic .int) (.basic .int) :=
    .single (constrained_isSingle .int) rfl
  have hadmits : constrained.Belongs mixedInterface (.basic .int) := by
    refine .interface rfl (forall_mem_cons.2 ⟨.term mem_cons_self (.interface rfl ?_),
      forall_mem_singleton.2 (.term mem_cons_self hint)⟩)
    exact forall_mem_singleton.2 hint
  have hterms : constrained.termSet mixedInterface = some [.basic .string] := by rfl
  refine ⟨belongs_typeSets _, hadmits, hterms, ?_⟩
  refine (termSet_retains (belongs_typeSets _) hadmits).resolve_left fun h => ?_
  rw [hterms] at h
  obtain h | h | ⟨terms, h, u, hu, hlost⟩ := h
  · cases h
  · cases h
  · cases h
    rw [mem_singleton.1 hu,
      (belongs_typeSets _).single _ _ (constrained_isSingle .string)] at hlost
    cases hlost

end Program

end DeclBridge
