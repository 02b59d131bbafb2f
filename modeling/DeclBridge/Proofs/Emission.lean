import DeclBridge.Proofs.Definition
import DeclBridge.Proofs.NameTable

/-!
# States of a run

What a run has made is *sound* if its modules fit the plan and every reference that was made is
settled: the type has its name taken in the module of its package, and that module is imported where
it must be.  `Emission.Sound` says nothing about the texts of definitions.  While a definition is
being made its name is only reserved, and references to it are settled all the same.

`Emission.Extends` relates a state to later ones: nothing that was made goes away.  `Emission.Grows`
says in addition that the same names are reserved; it holds between the two ends of every complete
step of a run, and so at the end of a run no reservation is left.
-/

namespace DeclBridge

open Option

variable {other : String} {m : Module} {r : Reference} {f : Module → Module} {text : Text}

/-! ## Modules -/

namespace Module

/-- Nothing that a module has goes away. -/
structure Extends (m m' : Module) : Prop where
  name : m'.name = m.name
  path : m'.packagePath = m.packagePath
  imports : m.imports ⊆ m'.imports
  has : ∀ n, m.has n = true → m'.has n = true

theorem Extends.refl (m : Module) : m.Extends m :=
  ⟨rfl, rfl, List.Subset.refl _, fun _ h => h⟩

theorem Extends.trans {m₁ m₂ m₃ : Module} (h : m₁.Extends m₂) (h' : m₂.Extends m₃) :
    m₁.Extends m₃ :=
  ⟨h'.name.trans h.name, h'.path.trans h.path, List.Subset.trans h.imports h'.imports,
    fun n hn => h'.has n (h.has n hn)⟩

variable {n n' : String}

def withText (m : Module) (n : String) (text : Text) : Module :=
  { m with definitions := m.definitions.insert n text }

/-- A name is taken after it is given a text, and no other name becomes so. -/
theorem has_withText : (m.withText n text).has n' = (decide (n = n') || m.has n') := by
  rw [has, has, withText, Table.contains, Table.contains, Table.get?_insert]
  by_cases h : n = n' <;> simp [h]

/-- An empty text reserves a name. -/
theorem isReserved_withText :
    (m.withText n text).isReserved n' = if n = n' then text.isEmpty else m.isReserved n' := by
  rw [isReserved, isReserved, withText, Table.get?_insert]
  by_cases h : n = n' <;> simp [h]

theorem extends_withText : m.Extends (m.withText n text) :=
  ⟨rfl, rfl, List.Subset.refl _, fun n' hn => by rw [has_withText, hn, Bool.or_true]⟩

theorem isReserved_of_not_has (h : m.has n = false) : m.isReserved n = false := by
  rw [has, Table.contains, isSome_eq_false_iff, isNone_iff_eq_none] at h
  rw [isReserved, h, any_none]

/-- To reserve a free name is to give it the empty text. -/
theorem reserve_eq (h : m.has n = false) : m.reserve n = m.withText n .empty := by
  rw [reserve, h]
  rfl

/-- A name that is free or only reserved can be defined. -/
theorem define_eq (h : m.has n = false ∨ m.isReserved n = true) :
    m.define n text = .ok (m.withText n text) := by
  rw [define, if_neg]
  · rfl
  · rcases h with h | h <;> simp [h]

/-- Dropping a reservation undoes it. -/
theorem discard_withText (h : m.has n = false) : (m.withText n .empty).discard n = m := by
  have hreserved : (m.withText n .empty).isReserved n = true := by
    rw [isReserved_withText, if_pos rfl]
    rfl
  rw [discard, if_pos hreserved, withText, Table.erase_insert h]

theorem extends_addImport : m.Extends (m.addImport other) := by
  rw [addImport]
  split
  · exact Extends.refl m
  · exact ⟨rfl, rfl, List.subset_append_left _ _, fun _ h => h⟩

/-- A module does not import itself. -/
theorem mem_imports_addImport {i : String} :
    i ∈ (m.addImport other).imports ↔ i ∈ m.imports ∨ i = other ∧ other ≠ m.name := by
  rw [addImport]
  split
  · rename_i h
    rcases h with h | h
    · simp [h]
    · refine ⟨.inl, ?_⟩
      rintro (hi | ⟨rfl, -⟩)
      · exact hi
      · exact h
  · rename_i h
    have hname : other ≠ m.name := fun heq => h (.inl heq)
    simp [hname]

theorem definitions_addImport : (m.addImport other).definitions = m.definitions := by
  rw [addImport]
  split <;> rfl

end Module

/-! ## Emissions -/

namespace Emission

def module? (e : Emission) (k : String) : Option Module := e.graph.modules.get? k

def taken (e : Emission) (k n : String) : Bool := (e.module? k).any (·.has n)

/-- Whether a name is only reserved in a module. -/
def reserved (e : Emission) (k n : String) : Bool := (e.module? k).any (·.isReserved n)

/-- Nothing that was made goes away. -/
structure Extends (e e' : Emission) : Prop where
  modules : ∀ k m, e.module? k = some m → ∃ m', e'.module? k = some m' ∧ m.Extends m'
  references : e.references ⊆ e'.references

/-- Nothing that was made goes away, and the same names are reserved. -/
structure Grows (e e' : Emission) : Prop extends Extends e e' where
  reserved : ∀ k n, e'.reserved k n = e.reserved k n

variable {e e₁ e₂ e₃ : Emission} {k n : String}

theorem Extends.trans (h : e₁.Extends e₂) (h' : e₂.Extends e₃) : e₁.Extends e₃ where
  modules k m hm := by
    obtain ⟨m', hm', hext⟩ := h.modules k m hm
    obtain ⟨m'', hm'', hext'⟩ := h'.modules k m' hm'
    exact ⟨m'', hm'', hext.trans hext'⟩
  references := List.Subset.trans h.references h'.references

theorem Extends.taken (h : e₁.Extends e₂) (htaken : e₁.taken k n = true) : e₂.taken k n = true := by
  obtain ⟨m, hm, hn⟩ := (any_eq_true _ _).1 htaken
  obtain ⟨m', hm', hext⟩ := h.modules k m hm
  exact (any_eq_true _ _).2 ⟨m', hm', hext.has n hn⟩

theorem Extends.module? (h : e₁.Extends e₂) (hk : (e₁.module? k).isSome) :
    (e₂.module? k).isSome := by
  obtain ⟨m, hm⟩ := isSome_iff_exists.1 hk
  obtain ⟨m', hm', -⟩ := h.modules k m hm
  rw [hm']
  rfl

theorem Grows.refl (e : Emission) : e.Grows e :=
  ⟨⟨fun _ m hm => ⟨m, hm, .refl m⟩, List.Subset.refl _⟩, fun _ _ => rfl⟩

theorem Grows.trans (h : e₁.Grows e₂) (h' : e₂.Grows e₃) : e₁.Grows e₃ :=
  ⟨h.toExtends.trans h'.toExtends, fun k n => (h'.reserved k n).trans (h.reserved k n)⟩

/-! ### Soundness -/

end Emission

/-- A module that has its place in a graph under the name `k`. -/
structure Plan.Fits (plan : Plan) (e : Emission) (k : String) (m : Module) : Prop where
  name : m.name = k
  path : plan.names.names.get? m.packagePath = some k
  distinct : m.definitions.Distinct
  imports : ∀ i ∈ m.imports, i ≠ k ∧ (e.module? i).isSome

/-- A reference to a type whose name is taken in the module of its package, written as it is seen
from where the reference stands. -/
def Plan.Settled (plan : Plan) (e : Emission) (r : Reference) : Prop :=
  ∃ owner target source, plan.names.names.get? r.path = some owner ∧
    e.module? owner = some target ∧ target.has r.name = true ∧
    e.module? r.module = some source ∧
    if owner = r.module then r.text = r.name
    else r.text = owner ++ "." ++ r.name ∧ owner ∈ source.imports

/-- The modules fit the plan and the references are settled. -/
structure Emission.Sound (plan : Plan) (e : Emission) : Prop where
  distinct : e.graph.modules.Distinct
  modules : ∀ k m, e.module? k = some m → plan.Fits e k m
  references : ∀ r ∈ e.references, plan.Settled e r

variable {plan : Plan} {e e' : Emission} {k n : String}

/-- A module fits in every later state. -/
theorem Plan.Fits.extends (h : plan.Fits e k m) (hext : e.Extends e') : plan.Fits e' k m :=
  ⟨h.name, h.path, h.distinct, fun i hi => ⟨(h.imports i hi).1, hext.module? (h.imports i hi).2⟩⟩

/-- A reference that is settled stays so. -/
theorem Plan.Settled.extends (h : plan.Settled e r) (hext : e.Extends e') : plan.Settled e' r := by
  obtain ⟨owner, target, source, howner, htarget, hname, hsource, htext⟩ := h
  obtain ⟨target', htarget', hext₁⟩ := hext.modules owner target htarget
  obtain ⟨source', hsource', hext₂⟩ := hext.modules r.module source hsource
  refine ⟨owner, target', source', howner, htarget', hext₁.has _ hname, hsource', ?_⟩
  split at htext
  · rwa [if_pos ‹_›]
  · rw [if_neg ‹_›]
    exact ⟨htext.1, hext₂.imports htext.2⟩

namespace Emission

/-- Two states whose modules cannot be told apart. -/
structure Agrees (e e' : Emission) : Prop where
  modules : ∀ k, e'.module? k = e.module? k
  distinct : e.graph.modules.Distinct → e'.graph.modules.Distinct
  references : e'.references = e.references

theorem SameOutput.agrees (h : e.SameOutput e') : e.Agrees e' :=
  ⟨fun k => by rw [module?, module?, h.1], fun hd => h.1.symm ▸ hd, h.2⟩

theorem Agrees.grows (h : e.Agrees e') : e.Grows e' :=
  ⟨⟨fun k m hm => ⟨m, (h.modules k).trans hm, .refl m⟩, h.references ▸ List.Subset.refl _⟩,
    fun k n => by rw [reserved, reserved, h.modules k]⟩

/-- Soundness is about the modules and references only. -/
theorem Sound.agrees (h : e.Sound plan) (hagrees : e.Agrees e') : e'.Sound plan where
  distinct := hagrees.distinct h.distinct
  modules k m hm := (h.modules k m (hagrees.modules k ▸ hm)).extends hagrees.grows.toExtends
  references r hr :=
    (h.references r (hagrees.references ▸ hr)).extends hagrees.grows.toExtends

/-- A reference may be noted once it is settled. -/
theorem Sound.note (h : e.Sound plan) (hr : plan.Settled e r) :
    ({ e with references := e.references ++ [r] } : Emission).Sound plan ∧
      e.Grows { e with references := e.references ++ [r] } := by
  have hgrows : e.Grows { e with references := e.references ++ [r] } :=
    ⟨⟨fun _ m hm => ⟨m, hm, .refl m⟩, List.subset_append_left _ _⟩, fun _ _ => rfl⟩
  refine ⟨⟨h.distinct, fun k m hm => (h.modules k m hm).extends hgrows.toExtends,
    fun r' hr' => ?_⟩, hgrows⟩
  rcases List.mem_append.1 hr' with hr' | hr'
  · exact (h.references r' hr').extends hgrows.toExtends
  · rw [List.mem_singleton.1 hr']
    exact hr.extends hgrows.toExtends

/-! ### Changes to one module -/

def update (e : Emission) (k : String) (f : Module → Module) : Emission :=
  { e with graph := e.graph.modify k f }

/-- A change to one module leaves the others alone. -/
theorem module?_update (f : Module → Module) (k' : String) :
    (e.update k f).module? k' = if k = k' then (e.module? k').map f else e.module? k' :=
  Table.get?_modify e.graph.modules k f k'

/-- A change that lets a module grow lets the whole state grow. -/
theorem extends_update (hf : ∀ m, e.module? k = some m → m.Extends (f m)) :
    e.Extends (e.update k f) where
  modules k' m hm := by
    rw [module?_update, hm]
    by_cases hk : k = k'
    · subst hk
      exact ⟨f m, if_pos rfl, hf m hm⟩
    · exact ⟨m, if_neg hk, .refl m⟩
  references := List.Subset.refl _

/-- A module may grow as long as its imports have modules. -/
theorem Sound.update (h : e.Sound plan) (hf : ∀ m, e.module? k = some m → m.Extends (f m))
    (hdistinct : ∀ m, e.module? k = some m → (f m).definitions.Distinct)
    (himports : ∀ m, e.module? k = some m → ∀ i ∈ (f m).imports,
      i ∈ m.imports ∨ i ≠ k ∧ (e.module? i).isSome) : (e.update k f).Sound plan := by
  have hext := extends_update hf
  refine ⟨h.distinct.modify k f, fun k' m' hm' => ?_, fun r hr => (h.references r hr).extends hext⟩
  rw [module?_update] at hm'
  split at hm'
  · subst ‹k = k'›
    obtain ⟨m, hm, rfl⟩ := map_eq_some_iff.1 hm'
    have hfits := (h.modules k m hm).extends hext
    refine ⟨?_, ?_, hdistinct m hm, fun i hi => ?_⟩
    · rw [(hf m hm).name, hfits.name]
    · rw [(hf m hm).path, hfits.path]
    · rcases himports m hm i hi with hi | ⟨hne, hi⟩
      · exact hfits.imports i hi
      · exact ⟨hne, hext.module? hi⟩
  · exact (h.modules k' m' hm').extends hext

theorem Sound.withText (h : e.Sound plan) (text : Text) :
    (e.update k (·.withText n text)).Sound plan :=
  h.update (fun _ _ => Module.extends_withText)
    (fun m hm => (h.modules k m hm).distinct.insert n text) (fun _ _ _ hi => .inl hi)

theorem taken_withText (hk : (e.module? k).isSome) :
    (e.update k (·.withText n text)).taken k n = true := by
  obtain ⟨m, hm⟩ := isSome_iff_exists.1 hk
  rw [taken, module?_update, if_pos rfl, hm, map_some, any_some,
    Module.has_withText, decide_eq_true rfl, Bool.true_or]

/-- A new text does not change whether other names are taken. -/
theorem taken_withText_of_ne {k' n' : String} (hne : ¬ (k = k' ∧ n = n')) :
    (e.update k (·.withText n text)).taken k' n' = e.taken k' n' := by
  rw [taken, taken, module?_update]
  by_cases heq : k = k'
  · have hn : n ≠ n' := fun h => hne ⟨heq, h⟩
    rw [if_pos heq, any_map]
    simp only [Module.has_withText, hn, decide_false, Bool.false_or]
  · rw [if_neg heq]

theorem reserved_withText (hk : (e.module? k).isSome) (k' n' : String) :
    (e.update k (·.withText n text)).reserved k' n' =
      if k = k' ∧ n = n' then text.isEmpty else e.reserved k' n' := by
  rw [reserved, reserved, module?_update]
  by_cases heq : k = k'
  · subst heq
    obtain ⟨m, hm⟩ := isSome_iff_exists.1 hk
    rw [if_pos rfl, hm, map_some, any_some, any_some,
      Module.isReserved_withText]
    simp
  · rw [if_neg heq, if_neg fun h => heq h.1]

theorem not_reserved_of_not_taken (h : e.taken k n = false) : e.reserved k n = false := by
  rw [taken] at h
  rw [reserved]
  cases hm : e.module? k with
  | none => rfl
  | some m =>
    rw [hm, any_some] at h
    exact Module.isReserved_of_not_has h

end Emission

end DeclBridge
