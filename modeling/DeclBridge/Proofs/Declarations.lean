import DeclBridge.Output.Declarations
import DeclBridge.Proofs.Emission

/-!
# What a run keeps

`define_spec` is the specification of the recursion that makes definitions.  It keeps a state sound,
nothing that was made goes away, and it fails only as `F` allows.  The last is a matter of the
symbols that are defined: `Plan.Admits` collects what a symbol asks of the program, and `D` is any
set of symbols that has with each of them those that its types mention.

Every name is reserved before the types of its definition are written, so `Plan.pending`, the number
of names of the program that are not taken yet, is smaller in every nested definition.  That is why
the number of symbols bounds the depth.
-/

namespace DeclBridge

open Emission List Table Option

variable {package : Package} {limit : Nat} {s : Symbol} {selections : List Selection} {text : Text}
  {why : Option LoadError} {k n : String} {path : String} {count : Nat} {p : Program} {e : Emission}
  {plan : Plan}

/-! ## Names that are not taken -/

namespace Plan

variable {e' : Emission} {n : String}

/-- The places for definitions: modules with the names of their package's symbols. -/
def slots (plan : Plan) : List (String × String) :=
  plan.program.packages.entries.flatMap fun (path, package) =>
    match plan.names.names.get? path with
    | some k => package.symbols.values.map fun s => (k, s.name)
    | none => []

theorem length_slots_le : plan.slots.length ≤ plan.program.symbolCount := by
  rw [slots, Program.symbolCount, Program.symbols, values, flatMap_map]
  induction plan.program.packages.entries with
  | nil => exact Nat.le_refl _
  | cons entry entries ih =>
    rw [flatMap_cons, flatMap_cons, length_append, length_append]
    refine Nat.add_le_add ?_ ih
    dsimp only
    split <;> simp

theorem mem_slots (hk : plan.names.names.get? path = some k)
    (hpackage : plan.program.packages.get? path = some package)
    (hs : s ∈ package.symbols.values) : (k, s.name) ∈ plan.slots := by
  refine mem_flatMap.2 ⟨(path, package), Table.mem_entries_of_get? hpackage, ?_⟩
  simp only [hk]
  exact mem_map_of_mem hs

/-- The number of places that are not taken. -/
def pending (plan : Plan) (e : Emission) : Nat := plan.slots.countP fun (k, n) => !e.taken k n

theorem pending_le (e : Emission) : plan.pending e ≤ plan.program.symbolCount :=
  Nat.le_trans countP_le_length length_slots_le

theorem pending_anti (h : e.Extends e') : plan.pending e' ≤ plan.pending e := by
  refine countP_mono_left fun slot _ hslot => ?_
  simp only [Bool.not_eq_true'] at hslot ⊢
  rw [Bool.eq_false_iff] at hslot ⊢
  exact fun htaken => hslot (h.taken htaken)

theorem pending_lt (h : e.Extends e') (hslot : (k, n) ∈ plan.slots) (hfree : e.taken k n = false)
    (htaken : e'.taken k n = true) : plan.pending e' < plan.pending e := by
  refine countP_lt_of_mem hslot (fun slot hslot => ?_) (by simp [hfree]) (by simp [htaken])
  simp only [Bool.not_eq_true'] at hslot ⊢
  rw [Bool.eq_false_iff] at hslot ⊢
  exact fun htaken => hslot (h.taken htaken)

end Plan

/-! ## What symbols ask of a program -/

/-- A type that can be referred to: its package has a module, and what is defined at the first
mention is in `D`. -/
structure Plan.Offers (plan : Plan) (F : Fault → Prop) (D : Symbol → Prop) (path name : String) :
    Prop where
  named : plan.names.names.contains path = true ∨ F (.unnamedModule path)
  defined : ∀ package, plan.program.packages.get? path = some package →
    ∀ s ∈ package.writable, Emitting.comesWith plan ⟨some path, name⟩ s = true → D s

/-- A symbol whose definition fails only as `F` allows, when those in `D` are defined along. -/
structure Plan.Admits (plan : Plan) (F : Fault → Prop) (D : Symbol → Prop) (s : Symbol) : Prop where
  mem : s ∈ plan.program.symbols
  complete : s.IsComplete ∨ F .missingType
  ends : ∀ t ∈ plan.rendered s, plan.Ends t ∨ F .endlessType
  mentions : ∀ t ∈ plan.rendered s, ∀ path name, plan.Mentions t path name →
    plan.Offers F D path name

namespace Emitting

variable {F : Fault → Prop} {D : Symbol → Prop} {e₀ : Emission}

/-! ## Modules and definitions -/

theorem isTaken_spec {P : Emission → Prop} :
    Triple P (isTaken k n) (fun b e => P e ∧ e.taken k n = b) (fun f _ => F f) :=
  fun _ he => ⟨he, rfl⟩

theorem module?_withModule (e : Emission) (k path k' : String) :
    ({ e with graph := e.graph.withModule k path } : Emission).module? k' =
      if (e.module? k).isSome = false ∧ k = k' then some { name := k, packagePath := path }
      else e.module? k' := by
  rw [module?, module?, ModuleGraph.withModule, Table.contains]
  by_cases h : (e.graph.modules.get? k).isSome
  · simp [h, module?]
  · simp only [h, Bool.false_eq_true, if_false, get?_insert, module?]
    by_cases hk : k = k' <;> simp [hk]

theorem moduleFor_spec (h₀ : e₀.Sound plan)
    (hnamed : plan.names.names.contains path = true ∨ F (.unnamedModule path)) :
    Triple (· = e₀) (moduleFor plan path)
      (fun k e => e.Sound plan ∧ e₀.Grows e ∧ plan.names.names.get? path = some k ∧
        (e.module? k).isSome ∧ e = { e₀ with graph := e₀.graph.withModule k path })
      (fun f _ => F f) := by
  rw [moduleFor, NameTable.nameOf]
  cases hname : plan.names.names.get? path with
  | none =>
    rcases hnamed with h | h
    · rw [Table.contains, hname] at h
      cases h
    · exact .bind (Q := fun _ _ => False) (.throw fun _ _ => h) fun _ _ h => h.elim
  | some k =>
    refine .bind (Q := fun k' e => k' = k ∧ e = e₀) (.pure fun e he => ⟨rfl, he⟩)
      fun k' => ?_
    refine .bind (Q := fun _ e => k' = k ∧
      e = { e₀ with graph := e₀.graph.withModule k path }) (.update fun e he => ?_) fun _ => ?_
    · rw [he.1, he.2]
      exact ⟨rfl, rfl⟩
    refine .pure fun e he => ?_
    obtain ⟨rfl, rfl⟩ := he
    have hget := module?_withModule e₀ k' path
    have hext : e₀.Extends { e₀ with graph := e₀.graph.withModule k' path } := by
      refine ⟨fun j m hm => ⟨m, ?_, .refl m⟩, List.Subset.refl _⟩
      rw [hget, if_neg, hm]
      rintro ⟨hnone, rfl⟩
      rw [hm] at hnone
      cases hnone
    refine ⟨⟨?_, fun j m hm => ?_, fun r hr => (h₀.references r hr).extends hext⟩,
      ⟨hext, fun j n => ?_⟩, rfl, ?_, rfl⟩
    · show (e₀.graph.withModule k' path).modules.Distinct
      rw [ModuleGraph.withModule]
      split
      · exact h₀.distinct
      · exact h₀.distinct.insert _ _
    · rw [hget] at hm
      split at hm
      · obtain ⟨-, rfl⟩ := ‹_ ∧ _›
        cases hm
        exact ⟨rfl, hname, distinct_empty, by simp⟩
      · exact (h₀.modules j m hm).extends hext
    · rw [reserved, reserved, hget]
      split
      · obtain ⟨hnone, rfl⟩ := ‹_ ∧ _›
        rw [isSome_eq_false_iff, isNone_iff_eq_none] at hnone
        rw [hnone]
        rfl
      · rfl
    · rw [hget]
      split
      · rfl
      · rename_i h
        exact eq_true_of_ne_false fun hnone => h ⟨hnone, rfl⟩

theorem setDefinition_spec (h₀ : e₀.Sound plan)
    (hk : (e₀.module? k).isSome) (hn : e₀.taken k n = false ∨ e₀.reserved k n = true)
    (F : Fault → Prop) : Triple (· = e₀) (setDefinition k n text)
      (fun _ e => e.Sound plan ∧ e = e₀.update k (·.withText n text)) (fun f _ => F f) := by
  obtain ⟨m, hm⟩ := isSome_iff_exists.1 hk
  have hdefine : m.define n text = .ok (m.withText n text) := by
    refine Module.define_eq ?_
    rwa [taken, reserved, hm, any_some, any_some] at hn
  intro e he
  rw [he]
  -- the module that is found is the only one that is changed
  have hrun : (setDefinition k n text).run.run e₀ =
      (.ok (), e₀.update k fun _ => m.withText n text) := by
    have hget : e₀.graph.modules.get? k = some m := hm
    have hstate : (get : Emitting Emission).run.run e₀ = (.ok e₀, e₀) := rfl
    rw [setDefinition, Computation.run_bind_ok hstate, hget]
    simp only [hdefine]
    rfl
  rw [hrun]
  have heq : (e₀.update k fun _ => m.withText n text) = e₀.update k (·.withText n text) := by
    rw [update, update, ModuleGraph.modify, ModuleGraph.modify]
    congr 2
    exact modify_congr h₀.distinct hm rfl
  exact ⟨heq ▸ h₀.withText text, heq⟩

theorem grows_withText (hk : (e₀.module? k).isSome)
    (hfree : e₀.taken k n = false) (htext : text ≠ .empty) :
    e₀.Grows (e₀.update k (·.withText n text)) := by
  refine ⟨extends_update fun _ _ => Module.extends_withText, fun k' n' => ?_⟩
  rw [reserved_withText hk]
  split
  · obtain ⟨rfl, rfl⟩ := ‹_ ∧ _›
    rw [not_reserved_of_not_taken hfree, ← Bool.not_eq_true, Text.isEmpty_iff]
    exact htext
  · rfl

theorem unknownReason_fault {f : Fault} (h : unknownReason why = .error f) : f.OfText := by
  cases why with
  | none => cases h
  | some e =>
    simp only [unknownReason] at h
    split at h
    · cases h
    · cases h
      trivial

theorem defineUnknown_spec (hF : ∀ f, f.OfText → F f) (id : SymbolId) {owner : String}
    (h₀ : e₀.Sound plan) (hk : (e₀.module? owner).isSome) (hfree : e₀.taken owner id.name = false) :
    Triple (· = e₀) (defineUnknown plan id path owner why)
      (fun _ e => e.Sound plan ∧ e₀.Grows e ∧ e.taken owner id.name = true) (fun f _ => F f) := by
  -- a definition that is not empty is all that counts
  have hset : ∀ text : Text, text ≠ .empty → Triple (· = e₀) (setDefinition owner id.name text)
      (fun _ e => e.Sound plan ∧ e₀.Grows e ∧ e.taken owner id.name = true)
      (fun f _ => F f) := fun text htext =>
    (setDefinition_spec h₀ hk (.inl hfree) F).post
      (fun _ _ h => ⟨h.1, h.2 ▸ grows_withText hk hfree htext, h.2 ▸ taken_withText hk⟩)
  rw [defineUnknown]
  split
  · exact hset _ (by simp)
  · refine .bind (hset _ (by simp)) fun _ => ?_
    refine .bind (Q := fun _ e =>
      e.Sound plan ∧ e₀.Grows e ∧ e.taken owner id.name = true) ?_ fun reason => ?_
    · exact lift_keeps fun f hf => hF f (unknownReason_fault hf)
    · refine warn_spec.post ?_
      rintro _ e' ⟨e, ⟨hsound, hgrows, htaken⟩, hsame⟩
      have hagrees := hsame.agrees
      exact ⟨hsound.agrees hagrees, hgrows.trans hagrees.grows,
        hagrees.grows.toExtends.taken htaken⟩

/-! ## References -/

section References

/-- `define` keeps states sound wherever it is called for a place of the plan and there is depth
left. -/
def DefinesPlaces (plan : Plan) (F : Fault → Prop) (D : Symbol → Prop) (count : Nat)
    (define : Symbol → String → Emitting Unit) : Prop :=
  ∀ ⦃s k e⦄, D s → (k, s.name) ∈ plan.slots → e.Sound plan → (e.module? k).isSome →
    (F .endlessType ∨ plan.pending e < count) →
    Triple (· = e) (define s k) (fun _ e' => e'.Sound plan ∧ e.Grows e') (fun f _ => F f)

variable {define : Symbol → String → Emitting Unit} {name owner : String}

theorem package_eq_ok (h : p.package path = .ok package) : p.packages.get? path = some package := by
  rw [Program.package] at h
  split at h
  · cases h
    assumption
  · split at h <;> cases h

theorem package_eq_error {why : LoadError}
    (h : p.package path = .error why) : p.packages.get? path = none := by
  rw [Program.package] at h
  split at h
  · cases h
  · assumption

theorem mem_values_of_writable (hs : s ∈ package.writable) : s ∈ package.symbols.values :=
  mem_mergeSort.1 (mem_of_mem_filter hs)

theorem ensureType_spec (hF : ∀ f, f.OfText → F f) (hdefine : DefinesPlaces plan F D count define)
    (hoffers : plan.Offers F D path name) (h₀ : e₀.Sound plan)
    (hroom : F .endlessType ∨ plan.pending e₀ < count)
    (howner : plan.names.names.get? path = some owner) (hk : (e₀.module? owner).isSome) :
    Triple (· = e₀) (ensureType plan define path name owner)
      (fun _ e => e.Sound plan ∧ e₀.Grows e ∧ e.taken owner name = true) (fun f _ => F f) := by
  rw [ensureType]
  refine .bind isTaken_spec fun taken => ?_
  refine .assume fun e h => ?_
  obtain ⟨rfl, htaken⟩ := h
  cases taken with
  | true =>
    refine .pure ?_
    rintro _ rfl
    exact ⟨h₀, .refl _, htaken⟩
  | false =>
    simp only [Bool.not_false, if_true, includeType]
    split
    · exact defineUnknown_spec hF _ h₀ hk htaken
    · rename_i package hpackage
      have hpackage := package_eq_ok hpackage
      -- everything that comes with the type is defined in a state that has grown from `e`
      have hmembers : Keeps (fun e' => e'.Sound plan ∧ e.Grows e') F
          ((package.writable.filter (comesWith plan ⟨some path, name⟩)).forM (define · owner)) := by
        refine .forM fun s hs => .assume fun e' h' => ?_
        obtain ⟨hs, hcomes⟩ := mem_filter.1 hs
        refine (hdefine (hoffers.defined package hpackage s hs hcomes)
          (Plan.mem_slots howner hpackage (mem_values_of_writable hs)) h'.1
          (h'.2.toExtends.module? hk)
          (hroom.imp_right (Nat.lt_of_le_of_lt (Plan.pending_anti h'.2.toExtends)))).post
            (fun _ _ h => ⟨h.1, h'.2.trans h.2⟩)
      refine .bind (hmembers.start ⟨h₀, .refl _⟩) fun _ => ?_
      refine .bind isTaken_spec fun taken => .assume fun e' h' => ?_
      obtain ⟨⟨hsound, hgrows⟩, htaken'⟩ := h'
      cases taken with
      | true =>
        refine .pure ?_
        rintro _ rfl
        exact ⟨hsound, hgrows, htaken'⟩
      | false =>
        exact (defineUnknown_spec hF ⟨some path, name⟩ hsound (hgrows.toExtends.module? hk)
          htaken').post (fun _ _ h => ⟨h.1, hgrows.trans h.2.1, h.2.2⟩)

/-- An import of a module that exists keeps a state sound, and makes no difference to definitions.
-/
theorem addImport_spec {other : String} (h : e.Sound plan) (hother : (e.module? other).isSome) :
    (e.update k (·.addImport other)).Sound plan ∧ e.Grows (e.update k (·.addImport other)) := by
  refine ⟨h.update (fun _ _ => Module.extends_addImport) (fun m hm => ?_) fun m hm i hi => ?_,
    extends_update fun _ _ => Module.extends_addImport, fun k' n => ?_⟩
  · rw [Module.definitions_addImport]
    exact (h.modules k m hm).distinct
  · rcases Module.mem_imports_addImport.1 hi with hi | ⟨rfl, hne⟩
    · exact .inl hi
    · rw [(h.modules k m hm).name] at hne
      exact .inr ⟨hne, hother⟩
  · rw [reserved, reserved, module?_update]
    split
    · rw [Option.any_map]
      simp only [Module.isReserved, Module.definitions_addImport]
    · rfl

theorem refer_spec (hF : ∀ f, f.OfText → F f) (hdefine : DefinesPlaces plan F D count define)
    (hoffers : plan.Offers F D path name) {module definition : String} (h₀ : e₀.Sound plan)
    (hroom : F .endlessType ∨ plan.pending e₀ < count) (hk : (e₀.module? module).isSome) :
    Triple (· = e₀) (refer plan define module definition path name)
      (fun _ e => e.Sound plan ∧ e₀.Grows e ∧ ∃ r ∈ e.references, r.path = path ∧ r.name = name)
      (fun f _ => F f) := by
  refine .bind (moduleFor_spec h₀ hoffers.named) fun owner => .assume fun e₁ h₁ => ?_
  obtain ⟨hsound₁, hgrows₁, howner, hmodule₁, -⟩ := h₁
  obtain ⟨hsound₂, hgrows₂⟩ := addImport_spec (k := module) hsound₁ hmodule₁
  have hgrows₂ := hgrows₁.trans hgrows₂
  set e₂ := e₁.update module (·.addImport owner) with he₂
  refine .update_bind ?_
  have hmodule₂ : (e₂.module? owner).isSome := by
    rw [he₂, module?_update]
    split
    · rwa [isSome_map]
    · exact hmodule₁
  refine .bind (ensureType_spec hF hdefine hoffers hsound₂
    (hroom.imp_right (Nat.lt_of_le_of_lt (Plan.pending_anti hgrows₂.toExtends))) howner hmodule₂)
    fun _ => .assume fun e₃ h₃ => ?_
  obtain ⟨hsound₃, hgrows₃, htaken⟩ := h₃
  -- the import was made before the type, and is there still
  have hsettled : ∀ text : Text, text = (if owner = module then (name : Text)
      else owner ++ "." ++ name) → plan.Settled e₃ ⟨module, definition, path, name, text⟩ := by
    intro text htext
    obtain ⟨target, htarget, hname⟩ := (any_eq_true _ _).1 htaken
    obtain ⟨source₁, hsource₁⟩ :=
      isSome_iff_exists.1 (hgrows₁.toExtends.module? hk)
    have hsource₂ : e₂.module? module = some (source₁.addImport owner) := by
      rw [he₂, module?_update, if_pos rfl, hsource₁, map_some]
    obtain ⟨source, hsource, hext⟩ := hgrows₃.modules module _ hsource₂
    refine ⟨owner, target, source, howner, htarget, hname, hsource, ?_⟩
    by_cases heq : owner = module
    · rw [if_pos heq]
      rw [if_pos heq] at htext
      exact htext
    · rw [if_neg heq]
      rw [if_neg heq] at htext
      refine ⟨htext, hext.imports (Module.mem_imports_addImport.2 (.inr ⟨rfl, ?_⟩))⟩
      rw [(hsound₁.modules module source₁ hsource₁).name]
      exact heq
  refine .bind (Q := fun _ e => e.Sound plan ∧ e₀.Grows e ∧
    ∃ r ∈ e.references, r.path = path ∧ r.name = name) (.update ?_) fun _ =>
      Triple.pure fun _ h => h
  rintro _ rfl
  obtain ⟨hsound₄, hgrows₄⟩ := hsound₃.note (hsettled _ rfl)
  exact ⟨hsound₄, (hgrows₂.trans hgrows₃).trans hgrows₄, _,
    mem_concat_self, rfl, rfl⟩

end References

/-! ## Definitions -/

theorem reserve_spec (h : e.Sound plan) (hfree : e.taken k n = false) :
    e.update k (·.reserve n) = e.update k (·.withText n .empty) := by
  cases hm : e.module? k with
  | none =>
    rw [update, update, ModuleGraph.modify, ModuleGraph.modify]
    have hnone : e.graph.modules.contains k = false := by
      rw [Table.contains, show e.graph.modules.get? k = none from hm, Option.isSome_none]
    rw [modify_of_not_contains hnone, modify_of_not_contains hnone]
  | some m =>
    rw [taken, hm, any_some] at hfree
    rw [update, update, ModuleGraph.modify, ModuleGraph.modify]
    congr 2
    exact modify_congr h.distinct hm (Module.reserve_eq hfree)

theorem discard_spec {e' : Emission} (hfree : e.taken k n = false)
    (hsame : (e.update k (·.withText n .empty)).SameOutput e') :
    e.Agrees (e'.update k (·.discard n)) := by
  have hmodule : ∀ j, e'.module? j = (e.update k (·.withText n .empty)).module? j :=
    hsame.agrees.modules
  refine ⟨fun j => ?_, fun hdistinct => ?_, hsame.2⟩
  · rw [module?_update, hmodule, module?_update]
    by_cases hj : k = j
    · subst hj
      cases hm : e.module? k with
      | none => simp only [if_true, map_none]
      | some m =>
        rw [taken, hm, any_some] at hfree
        simp only [if_true, map_some, Module.discard_withText hfree]
    · simp only [hj, if_false]
  · exact (hsame.agrees.distinct (hdistinct.modify k _)).modify k _

section

variable (hF : ∀ f, f.OfText → F f) (hD : ∀ s, D s → plan.Admits F D s)
  (hlimit : plan.program.typeParts.length ≤ limit ∨ F .endlessType)

include hF hD hlimit

/-- A definition keeps the state sound, and fails only as `F` allows. -/
theorem define_spec (hs : D s) (h₀ : e₀.Sound plan) (hk : (e₀.module? k).isSome)
    (hroom : F .endlessType ∨ plan.pending e₀ + 1 < count ∨
      plan.pending e₀ < count ∧ (k, s.name) ∈ plan.slots) :
    Triple (· = e₀) (define plan limit count s k)
      (fun _ e => e.Sound plan ∧ e₀.Grows e) (fun f _ => F f) := by
  induction count generalizing s k e₀ with
  | zero =>
    rcases hroom with h | h | h
    · exact .throw fun _ _ => h
    · omega
    · omega
  | succ count ih =>
    rw [define]
    refine .bind isTaken_spec fun taken => .assume fun e h => ?_
    obtain ⟨rfl, htaken⟩ := h
    cases taken with
    | true =>
      refine .pure ?_
      rintro _ rfl
      exact ⟨h₀, .refl _⟩
    | false =>
      have hdefine : DefinesPlaces plan F D count (define plan limit count) :=
        fun s k e hs hslot he hk hroom =>
          ih hs he hk (hroom.imp_right fun h => .inr ⟨h, hslot⟩)
      set e₁ := e.update k (·.withText s.name .empty) with he₁
      have hsound₁ : e₁.Sound plan := h₀.withText _
      have hext₁ : e.Extends e₁ := extends_update fun _ _ => Module.extends_withText
      -- the place of the symbol is taken now, so there is room for one definition less
      have hroom₁ : F .endlessType ∨ plan.pending e₁ < count := by
        rcases hroom with h | h | ⟨h, hslot⟩
        · exact .inl h
        · have : plan.pending e₁ ≤ plan.pending e := Plan.pending_anti hext₁
          exact .inr (by omega)
        · have := Plan.pending_lt hext₁ hslot htaken (taken_withText hk)
          exact .inr (by omega)
      refine .bind (Q := fun _ e' => e' = e₁) (.update ?_) fun _ => ?_
      · rintro _ rfl
        exact reserve_spec h₀ htaken
      have hadmits := hD s hs
      have hrefer : ∀ path name, plan.Offers F D path name →
          Keeps (fun e' => e'.Sound plan ∧ e₁.Grows e') F
            (refer plan (define plan limit count) k s.name path name) := by
        intro path name hoffers
        refine .assume fun e₂ h₂ => ?_
        have hext₂ := h₂.2.toExtends
        exact (refer_spec hF hdefine hoffers h₂.1
          (hroom₁.imp_right (Nat.lt_of_le_of_lt (Plan.pending_anti hext₂)))
          ((hext₁.trans hext₂).module? hk)).post
          (fun _ _ h => ⟨h.1, h₂.2.trans h.2.1⟩)
      refine .bind (symbolText_spec (I := fun e' => e'.Sound plan ∧ e₁.Grows e') hF
        hadmits.complete (fun t ht c hc => ?_) ⟨hsound₁, .refl e₁⟩) fun text => ?_
      · refine expandedText_keeps hF (Program.mem_typeParts hadmits.mem
          (plan.rendered_subset s ht) hc.mem_parts) ?_ fun path name hmentions => ?_
        · rcases hlimit, hadmits.ends t ht with ⟨hlimit | h, hends | h'⟩
          · exact .inl ⟨hlimit, hc.ends hends⟩
          all_goals exact .inr ‹_›
        · exact hrefer path name (hadmits.mentions t ht path name (hc.mentions hmentions))
      refine .assume fun e₂ h₂ => ?_
      cases text with
      | none =>
        have hagrees := discard_spec htaken h₂.1
        refine .update ?_
        rintro _ rfl
        exact ⟨h₀.agrees hagrees, hagrees.grows⟩
      | some text =>
        obtain ⟨⟨hsound₂, hgrows₂⟩, htext⟩ := h₂
        have hext₂ := hext₁.trans hgrows₂.toExtends
        have hreserved : e₂.reserved k s.name = true := by
          rw [hgrows₂.reserved, reserved_withText hk, if_pos ⟨rfl, rfl⟩]
          rfl
        refine (setDefinition_spec hsound₂ (hext₂.module? hk) (.inr hreserved) F).post ?_
        rintro _ e₃ ⟨hsound₃, rfl⟩
        refine ⟨hsound₃, hext₂.trans
          (extends_update fun _ _ => Module.extends_withText), fun k' n' => ?_⟩
        rw [reserved_withText (hext₂.module? hk), hgrows₂.reserved,
          reserved_withText hk]
        split
        · obtain ⟨rfl, rfl⟩ := ‹_ ∧ _›
          rw [not_reserved_of_not_taken htaken, ← Bool.not_eq_true, Text.isEmpty_iff]
          exact htext
        · rfl

/-! ## Runs -/

/-- A requested package whose symbols fail only as `F` allows. -/
structure Requests (plan : Plan) (F : Fault → Prop) (D : Symbol → Prop) (selection : Selection)
    (package : Package) : Prop where
  named : plan.names.names.contains package.path = true ∨ F (.unnamedModule package.path)
  selected : ∀ s ∈ package.writable,
    selection.includes plan.options.includeUnexported s = true → D s

theorem definePackage_keeps (hcount : plan.program.symbolCount + 2 ≤ count ∨ F .endlessType)
    {selection : Selection} (h : Requests plan F D selection package) :
    Keeps (fun e => e.Sound plan ∧ e₀.Grows e) F
      (definePackage plan limit count selection package) := by
  refine .assume fun e he => ?_
  refine .bind (moduleFor_spec he.1 h.named) fun k => .assume fun e₁ h₁ => ?_
  obtain ⟨hsound₁, hgrows₁, -, hk, -⟩ := h₁
  refine (Triple.forM (I := fun e' => e'.Sound plan ∧ e₁.Grows e') fun s hs => ?_).weaken ?_
    (fun _ _ h' => ⟨h'.1, (he.2.trans hgrows₁).trans h'.2⟩) (fun _ _ h => h)
  · obtain ⟨hs, hselected⟩ := mem_filter.1 hs
    refine .assume fun e₂ h₂ => ?_
    have hroom : F .endlessType ∨ plan.pending e₂ + 1 < count ∨
        plan.pending e₂ < count ∧ (k, s.name) ∈ plan.slots := by
      rcases hcount with hcount | hendless
      · have := plan.pending_le e₂
        exact .inr (.inl (by omega))
      · exact .inl hendless
    exact (define_spec hF hD hlimit (h.selected s hs hselected) h₂.1 (h₂.2.toExtends.module? hk)
      hroom).post (fun _ _ h' => ⟨h'.1, h₂.2.trans h'.2⟩)
  · rintro _ rfl
    exact ⟨hsound₁, .refl _⟩

/-- What a run makes is sound and without reservations, and it fails only as `F` allows. -/
theorem defineRequested_spec (hcount : plan.program.symbolCount + 2 ≤ count ∨ F .endlessType)
    {requested : List (Selection × Package)}
    (hprimary : plan.names.names.contains plan.primary = true ∨ F (.unnamedModule plan.primary))
    (hrequested : ∀ r ∈ requested, Requests plan F D r.1 r.2) (h₀ : e₀.Sound plan) :
    Triple (· = e₀) (defineRequested plan limit count requested)
      (fun _ e => e.Sound plan ∧ e₀.Grows e) (fun f _ => F f) := by
  refine .bind (moduleFor_spec h₀ hprimary) fun _ => ?_
  exact (Triple.forM fun r hr => definePackage_keeps hF hD hlimit hcount (hrequested r hr)).pre
    fun e he => ⟨he.1, he.2.1⟩

end

end Emitting

theorem Plan.start_sound (plan : Plan) : plan.start.Sound plan :=
  ⟨distinct_empty, fun _ _ hm => (some_ne_none _ hm.symm).elim,
    forall_mem_nil _⟩

namespace Program

theorem mapM_package_eq_ok {packages : List Package}
    (h : selections.mapM (fun s => p.package s.path) = .ok packages) :
    List.Forall₂ (fun s package => p.packages.get? s.path = some package) selections packages := by
  exact (mapM_eq_ok.1 h).imp fun _ _ => Emitting.package_eq_ok

theorem mapM_package_eq_error {why : LoadError}
    (h : selections.mapM (fun s => p.package s.path) = .error why) :
    ∃ s ∈ selections, p.packages.contains s.path = false := by
  induction selections with
  | nil => cases h
  | cons s selections ih =>
    rw [exists_mem_cons_iff]
    cases hs : p.packages.get? s.path with
    | none => exact .inl (by rw [Table.contains, hs]; rfl)
    | some package =>
      refine .inr (ih ?_)
      have hpackage : p.package s.path = .ok package := by rw [Program.package, hs]
      rw [mapM_cons, hpackage] at h
      cases hrest : selections.mapM (fun s => p.package s.path) with
      | error why' =>
        rw [hrest] at h
        exact h
      | ok rest =>
        rw [hrest] at h
        cases h

/-- How a run comes about: the requested packages are there, and their symbols are defined. -/
theorem emitWithin_cases (p : Program) (limit count : Nat) (primary : Selection)
    (others : List Selection) (options : Options) :
    (∃ why, p.emitWithin limit count primary others options = .error (.error why) ∧
      ∃ s ∈ primary :: others, p.packages.contains s.path = false) ∨
    ∃ packages, List.Forall₂ (fun s package => p.packages.get? s.path = some package)
        (primary :: others) packages ∧
      let plan := Plan.ofRequest p primary others options
      let make := Emitting.defineRequested plan limit count ((primary :: others).zip packages)
      (∃ e, make.run.run plan.start = (.ok (), e) ∧
        p.emitWithin limit count primary others options = .ok (Run.ofEmission plan e)) ∨
      ∃ e fault, make.run.run plan.start = (.error fault, e) ∧
        p.emitWithin limit count primary others options = .error (.fault fault) := by
  rw [emitWithin]
  cases hpackages : (primary :: others).mapM fun s => p.package s.path with
  | error why => exact .inl ⟨why, rfl, mapM_package_eq_error hpackages⟩
  | ok packages =>
    refine .inr ⟨packages, mapM_package_eq_ok hpackages, ?_⟩
    dsimp only [Except.mapError, bind, Except.bind]
    rcases (Emitting.defineRequested (Plan.ofRequest p primary others options) limit count
        ((primary :: others).zip packages)).run.run (Plan.ofRequest p primary others options).start
      with ⟨fault | ⟨⟩, e⟩
    · exact .inr ⟨e, fault, rfl, rfl⟩
    · exact .inl ⟨e, rfl, rfl⟩

end Program

end DeclBridge
