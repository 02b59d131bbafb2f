import DeclBridge.Proofs.Companions
import DeclBridge.Proofs.Reports

/-!
# What references report

A type of a missing package is reported when it gets the fallback type, which is once.  A constant
without a literal is another matter: nothing is written of it, so nothing keeps it from being tried
again, and it is reported each time.

A type that is referred to before it is defined is defined along with its constants, in the order of
their names.  A constant that stands before the type, and has a literal, refers to the type, which is
still not defined, and so the type is defined along with its constants once more, and only then the
first constant.  `Plan.Brings` is the law of this: a reference that defines the type brings one report
of each of its constants without a literal, and one more for each such constant that is not defined
yet.
-/

namespace DeclBridge

open Emitting List

variable {a c : Symbol} {symbols : List Symbol} {p : Program} {package : Package} {s : Symbol}
  {N' : Texts} {reports reports' : List Report} {path : String}

/-! ## Packages -/

theorem Program.Sound.nodup_names (h : p.Sound) (hpackage : p.packages.get? path = some package) :
    (package.writable.map Symbol.name).Nodup := by
  have hkeys : package.symbols.values.map Symbol.name = package.symbols.keys := by
    rw [Table.values, Table.keys, map_map]
    refine map_congr_left fun entry hentry => ?_
    exact ((h path package hpackage).symbol entry.1 entry.2
      ((h path package hpackage).distinct.get?_of_mem hentry)).1
  have hsorted : (package.sortedSymbols.map Symbol.name).Perm package.symbols.keys :=
    hkeys ▸ (mergeSort_perm _ _).map _
  exact (hsorted.nodup_iff.2 (h path package hpackage).distinct).sublist
    (filter_sublist.map _)

theorem Program.Sound.eq_of_name (h : p.Sound)
    (hpackage : p.packages.get? path = some package) {s s' : Symbol} (hs : s ∈ package.writable)
    (hs' : s' ∈ package.writable) (hname : s.name = s'.name) : s = s' :=
  h.keyed.name path package hpackage s (mem_values_of_writable hs) s'
    (mem_values_of_writable hs') hname

theorem countP_name_eq (hnodup : (symbols.map Symbol.name).Nodup)
    (hc : c ∈ symbols) (q : Symbol → Bool) :
    symbols.countP (fun s => s.name = c.name && q s) = if q c = true then 1 else 0 := by
  obtain ⟨before, after, rfl⟩ := append_of_mem hc
  rw [map_append, map_cons, nodup_append, nodup_cons] at hnodup
  have hzero : ∀ l : List Symbol, (∀ s ∈ l, s.name ≠ c.name) →
      l.countP (fun s => s.name = c.name && q s) = 0 := fun l hl =>
    countP_eq_zero.2 fun s hs => by simp [hl s hs]
  rw [countP_append, countP_cons, hzero before fun s hs hname => ?_,
    hzero after fun s hs hname => ?_]
  · simp
  · exact hnodup.2.1.1 (hname ▸ mem_map_of_mem hs)
  · exact hnodup.2.2 _ (mem_map_of_mem hs) _ mem_cons_self hname

theorem Symbol.not_isType_of_isDropped (h : s.isDropped = true) : s.isType = false := by
  by_contra htype
  rw [not_isDropped_of_isDefinable
    (isDefinable_of_isType (Bool.eq_true_of_not_eq_false htype))] at h
  cases h

namespace Plan

variable {plan : Plan}

/-! ## Types of missing packages -/

/-- The definition of a type of a missing package. -/
def fallbackText (plan : Plan) (path name : String) : Text :=
  "export type " ++ name ++ " = " ++ plan.options.fallback ++ " /* unresolved: " ++ path ++ " */"

/-- A type of a missing package that has no replacement. -/
def isUnknown (plan : Plan) (path name : String) : Bool :=
  (plan.program.packages.get? path).isNone &&
    (plan.override? (plan.overrideName ⟨some path, name⟩)).isNone

/-- Whether a type of a missing package has the fallback type, as a number. -/
def fallbacks (plan : Plan) (path name : String) (N : Texts) : Nat :=
  (plan.isUnknown path name && (plan.names.names.get? path).any (N.has · name)).toNat

variable {name path' name' k k' : String} {N : Texts} {text : Text}

theorem fallbacks_set_of_ne (hinj : NameTable.Injective plan.names.names)
    (hk : plan.names.names.get? path' = some k') (hne : ¬ (path' = path ∧ name' = name)) :
    plan.fallbacks path name (N.set k' name' text) = plan.fallbacks path name N := by
  rw [fallbacks, fallbacks]
  cases hpath : plan.names.names.get? path with
  | none => rfl
  | some k =>
    rw [Option.any_some, Option.any_some, Texts.has_set_of_ne]
    rintro ⟨rfl, hname⟩
    exact hne ⟨hinj hk hpath, hname⟩

theorem fallbacks_eq_zero (h : plan.isUnknown path name = false) :
    plan.fallbacks path name N = 0 := by
  rw [fallbacks, h, Bool.false_and, Bool.toNat_false]

theorem fallbacks_set_of_package (hinj : NameTable.Injective plan.names.names)
    (hk : plan.names.names.get? path' = some k')
    (hpackage : plan.program.packages.get? path' = some package) :
    plan.fallbacks path name (N.set k' name' text) = plan.fallbacks path name N := by
  by_cases heq : path' = path
  · have hknown : plan.isUnknown path name = false := by
      rw [isUnknown, ← heq, hpackage, Option.isNone_some, Bool.false_and]
    rw [fallbacks_eq_zero hknown, fallbacks_eq_zero hknown]
  · exact fallbacks_set_of_ne hinj hk fun h => heq h.1

/-- A type is reported when it gets the fallback type, and only then. -/
def Charges (plan : Plan) (path name : String) (N : Texts) (reports : List Report) (N' : Texts) :
    Prop :=
  reports.count (.degraded path name) + plan.fallbacks path name N = plan.fallbacks path name N'

theorem Charges.of_eq (hreports : .degraded path name ∉ reports)
    (h : plan.fallbacks path name N' = plan.fallbacks path name N) :
    plan.Charges path name N reports N' := by
  rw [Charges, h, count_eq_zero_of_not_mem hreports, Nat.zero_add]

theorem Charges.trans {N₁ N₂ : Texts}
    (h : plan.Charges path name N reports N₁) (h' : plan.Charges path name N₁ reports' N₂) :
    plan.Charges path name N (reports ++ reports') N₂ := by
  rw [Charges] at h h' ⊢
  rw [count_append]
  omega

section

variable (hinj : NameTable.Injective plan.names.names)

include hinj

theorem Charges.of_outcome (hk : plan.names.names.get? path' = some k')
    (hpackage : plan.program.packages.get? path' = some package)
    (houtcome : plan.Outcome (plan.Charges path name) k' s N reports N') :
    plan.Charges path name N reports N' := by
  cases houtcome with
  | taken => exact .of_eq not_mem_nil rfl
  | dropped => exact .of_eq (by simp) rfl
  | made _ _ hreferences _ _ =>
    rw [Charges, fallbacks_set_of_package hinj hk hpackage] at hreferences ⊢
    exact hreferences

theorem tallies_charges (path name : String) :
    plan.Tallies (plan.Charges path name) where
  refl _ := .of_eq not_mem_nil rfl
  trans := .trans
  replaced {N path' name' k' text} hk _ _ hoverride := by
    refine .of_eq not_mem_nil ?_
    by_cases heq : path' = path ∧ name' = name
    · obtain ⟨rfl, rfl⟩ := heq
      have hknown : plan.isUnknown path' name' = false := by
        rw [isUnknown, Option.isNone_eq_false_iff.2 hoverride, Bool.and_false]
      rw [fallbacks_eq_zero hknown, fallbacks_eq_zero hknown]
    · exact fallbacks_set_of_ne hinj hk heq
  degraded {N path' name' k'} hk hmissing hfree hoverride := by
    by_cases heq : path' = path ∧ name' = name
    · obtain ⟨rfl, rfl⟩ := heq
      have hunknown : plan.isUnknown path' name' = true := by
        rw [isUnknown, hmissing, hoverride]
        rfl
      rw [Charges, fallbacks, fallbacks, hunknown, hk, Option.any_some, Option.any_some, hfree,
        Texts.has_set_self, count_singleton_self]
      rfl
    · refine .of_eq (fun hmem => ?_) (fallbacks_set_of_ne hinj hk heq)
      cases mem_singleton.1 hmem
      exact heq ⟨rfl, rfl⟩
  included hk hpackage _ _ _ houtcomes :=
    houtcomes.fold (fun _ => .of_eq not_mem_nil rfl) .trans fun _ _ _ _ _ houtcome =>
      .of_outcome hinj hk hpackage houtcome

/-- A type of a missing package has no definition, or the fallback type. -/
def Falls (plan : Plan) (path name : String) (N : Texts) : Prop :=
  ∀ k, plan.names.names.get? path = some k →
    N k name = none ∨ N k name = some (plan.fallbackText path name)

theorem Falls.set (h : plan.Falls path name N) (hk : plan.names.names.get? path' = some k')
    (hne : ¬ (path' = path ∧ name' = name) ∨ text = plan.fallbackText path name) :
    plan.Falls path name (N.set k' name' text) := by
  intro k hpath
  rw [Texts.set]
  split
  · obtain ⟨rfl, rfl⟩ := ‹_ ∧ _›
    refine .inr (congrArg some (hne.resolve_left fun hne => hne ⟨hinj hk hpath, rfl⟩))
  · exact h k hpath

theorem Falls.of_outcome
    (hunknown : plan.isUnknown path name = true) (hk : plan.names.names.get? path' = some k')
    (hpackage : plan.program.packages.get? path' = some package)
    (houtcome : plan.Outcome (fun N _ N' => plan.Falls path name N → plan.Falls path name N') k' s N
      reports N') (hN : plan.Falls path name N) : plan.Falls path name N' := by
  have hother : ∀ name', ¬ (path' = path ∧ name' = name) := by
    rintro name' ⟨rfl, -⟩
    rw [isUnknown, hpackage, Option.isNone_some, Bool.false_and] at hunknown
    cases hunknown
  cases houtcome with
  | taken | dropped => exact hN
  | made _ _ hreferences _ _ =>
    exact (hreferences (hN.set hinj hk (.inl (hother _)))).set hinj hk (.inl (hother _))

theorem tallies_falls (hunknown : plan.isUnknown path name = true) :
    plan.Tallies fun N _ N' => plan.Falls path name N → plan.Falls path name N' where
  refl _ h := h
  trans h h' hN := h' (h hN)
  replaced hk _ _ hreplaced hN := by
    refine hN.set hinj hk (.inl ?_)
    rintro ⟨rfl, rfl⟩
    rw [isUnknown, Option.isNone_eq_false_iff.2 hreplaced, Bool.and_false] at hunknown
    cases hunknown
  degraded {N path' name' k'} hk _ _ _ hN := by
    refine hN.set hinj hk ?_
    by_cases heq : path' = path ∧ name' = name
    · obtain ⟨rfl, rfl⟩ := heq
      exact .inr rfl
    · exact .inl heq
  included hk hpackage _ _ _ houtcomes :=
    houtcomes.fold (P := fun N _ N' => plan.Falls path name N → plan.Falls path name N')
      (fun _ h => h) (fun h h' hN => h' (h hN)) fun _ _ _ _ _ houtcome =>
        .of_outcome hinj hunknown hk hpackage houtcome

end

/-! ## Constants without a literal -/

/-- A constant without a literal, in the module `k` of its package. -/
structure Unwritten (plan : Plan) (path k : String) (package : Package) (c : Symbol) : Prop where
  names : NameTable.Injective plan.names.names
  sound : plan.program.Sound
  module : plan.names.names.get? path = some k
  loaded : plan.program.packages.get? path = some package
  const : c ∈ package.writable
  dropped : c.isDropped = true

/-- Nothing of a constant is written, and it is not reported. -/
def Silent (path k : String) (c : Symbol) (N : Texts) (reports : List Report) (N' : Texts) : Prop :=
  N.has k c.name = false → .dropped path c.name ∉ reports ∧ N'.has k c.name = false

variable {t s : Symbol} {N' N₁ N₂ : Texts} {Q : Texts → List Report → Texts → Prop}

/-- The constants that are reported have modules. -/
def Homed (plan : Plan) (reports : List Report) : Prop :=
  ∀ path name, .dropped path name ∈ reports → ∃ k, plan.names.names.get? path = some k

theorem Homed.append (h : plan.Homed reports) (h' : plan.Homed reports') :
    plan.Homed (reports ++ reports') :=
  fun path name hmem => (mem_append.1 hmem).elim (h path name) (h' path name)

theorem Homed.of_outcome (houtcome : plan.Outcome (fun _ reports _ => plan.Homed reports) k s N
    reports N') : plan.Homed reports := by
  cases houtcome with
  | taken => exact fun _ _ hmem => absurd hmem not_mem_nil
  | dropped hpath _ _ =>
    intro path' name' hmem
    cases mem_singleton.1 hmem
    exact ⟨k, hpath⟩
  | made _ _ hreferences _ _ => exact hreferences

theorem tallies_homed : plan.Tallies fun _ reports _ => plan.Homed reports where
  refl _ _ _ hmem := absurd hmem not_mem_nil
  trans h h' := h.append h'
  replaced _ _ _ _ _ _ hmem := absurd hmem not_mem_nil
  degraded _ _ _ _ _ _ hmem := by simp at hmem
  included _ _ _ _ _ houtcomes :=
    houtcomes.fold (P := fun _ reports _ => plan.Homed reports)
      (fun _ _ _ hmem => absurd hmem not_mem_nil) (fun h h' => h.append h')
      fun _ _ _ _ _ houtcome => .of_outcome houtcome

namespace Unwritten

section

variable (h : plan.Unwritten path k package c)

include h

theorem report_eq_iff (hpath : plan.names.names.get? path' = some k') :
    Report.dropped path c.name = .dropped path' s.name ↔ k' = k ∧ s.name = c.name := by
  constructor
  · intro heq
    obtain ⟨rfl, hname⟩ := Report.dropped.inj heq
    exact ⟨Option.some.inj (hpath.symm.trans h.module), hname.symm⟩
  · rintro ⟨rfl, hname⟩
    rw [h.names hpath h.module, hname]

theorem ne_of_isDefinable (hs : plan.Place k' s)
    (hdefinable : s.isDefinable = true) : ¬ (k' = k ∧ s.name = c.name) := by
  rintro ⟨rfl, hname⟩
  obtain rfl : s = c := eq_of_place h.names h.sound.keyed
    ⟨_, _, h.module, h.loaded, h.const⟩ hs hname
  have hdropped := h.dropped
  rw [Symbol.not_isDropped_of_isDefinable hdefinable] at hdropped
  cases hdropped

theorem module_ne (hk : plan.names.names.get? path' = some k')
    (hmissing : plan.program.packages.get? path' = none) : k' ≠ k := by
  rintro rfl
  rw [h.names hk h.module, h.loaded] at hmissing
  cases hmissing

/-- Where references are silent, the constant is reported when it is tried, and by nothing else. -/
theorem outcome_spec (hs : plan.Place k' s)
    (houtcome : plan.Outcome Q k' s N reports N') (hfree : N.has k c.name = false)
    (hQ : ∀ reports N', Q (N.set k' s.name .empty) reports N' →
      Silent path k c (N.set k' s.name .empty) reports N') :
    reports.count (.dropped path c.name) = (if k' = k ∧ s.name = c.name then 1 else 0) ∧
      N'.has k c.name = false := by
  cases houtcome with
  | taken htaken =>
    refine ⟨?_, hfree⟩
    rw [if_neg, count_nil]
    rintro ⟨rfl, hname⟩
    rw [hname, hfree] at htaken
    cases htaken
  | dropped hpath _ _ =>
    refine ⟨?_, hfree⟩
    simp only [count_singleton, beq_iff_eq, eq_comm (b := Report.dropped path c.name),
      h.report_eq_iff hpath]
  | made _ hdefinable hreferences _ _ =>
    have hne := h.ne_of_isDefinable hs hdefinable
    obtain ⟨hreports, hfree'⟩ := hQ _ _ hreferences (by rw [Texts.has_set_of_ne hne, hfree])
    rw [if_neg hne, Texts.has_set_of_ne hne]
    exact ⟨count_eq_zero_of_not_mem hreports, hfree'⟩

/-- A constant that comes with no type is not reported by references. -/
theorem tallies_silent (hlone : ∀ name, isCompanion plan ⟨some path, name⟩ c = false) :
    plan.Tallies (Silent path k c) := by
  have hrefl : ∀ N, Silent path k c N [] N := fun _ hfree => ⟨not_mem_nil, hfree⟩
  have htrans : ∀ {N reports N₁ reports' N₂}, Silent path k c N reports N₁ →
      Silent path k c N₁ reports' N₂ → Silent path k c N (reports ++ reports') N₂ := by
    intro N reports N₁ reports' N₂ hfirst hsecond hfree
    obtain ⟨hreports, hfree₁⟩ := hfirst hfree
    obtain ⟨hreports', hfree₂⟩ := hsecond hfree₁
    exact ⟨fun hmem => (mem_append.1 hmem).elim hreports hreports', hfree₂⟩
  refine ⟨hrefl, htrans, fun hk hmissing _ _ hfree => ⟨not_mem_nil, ?_⟩,
    fun hk hmissing _ _ hfree => ⟨by simp, ?_⟩,
    fun {N reports N' path' k' package' t} hk hpackage ht htype _ houtcomes => ?_⟩
  · rw [Texts.has_set_of_ne fun heq => h.module_ne hk hmissing heq.1, hfree]
  · rw [Texts.has_set_of_ne fun heq => h.module_ne hk hmissing heq.1, hfree]
  · refine houtcomes.fold hrefl htrans fun s hs N reports N' houtcome hfree => ?_
    obtain ⟨hs, hcomes⟩ := mem_filter.1 hs
    obtain ⟨hreports, hfree'⟩ := h.outcome_spec ⟨_, _, hk, hpackage, hs⟩ houtcome hfree
      fun _ _ hsilent => hsilent
    refine ⟨count_eq_zero.1 (hreports.trans (if_neg ?_)), hfree'⟩
    -- what comes with a type is the type or a constant of it
    rintro ⟨rfl, hname⟩
    obtain rfl := h.names hk h.module
    cases hpackage.symm.trans h.loaded
    obtain rfl := h.sound.eq_of_name h.loaded hs h.const hname
    rw [comesWith, hlone, Bool.or_false, decide_eq_true_eq] at hcomes
    rw [← h.sound.eq_of_name h.loaded hs ht hcomes, Symbol.not_isType_of_isDropped h.dropped]
      at htype
    cases htype

end

end Unwritten

/-! ## Constants that come with a type -/

theorem isCompanion_unique {id id' : SymbolId}
    (h : isCompanion plan id c = true) (h' : isCompanion plan id' c = true) : id = id' := by
  rw [isCompanion] at h h'
  split at h
  · rename_i hbody
    rw [hbody] at h'
    simp only [Bool.and_eq_true, decide_eq_true_eq] at h h'
    exact h.1.symm.trans h'.1
  · cases h

/-- A type, and a constant without a literal that comes with it, in the module `k` of their
package. -/
structure Bound (plan : Plan) (path k : String) (package : Package) (t c : Symbol) : Prop extends
    plan.Unwritten path k package c where
  type : t ∈ package.writable
  isType : t.isType = true
  companion : isCompanion plan ⟨some path, t.name⟩ c = true

/-- The constants that come with a type, have a literal, and stand before the type. -/
def early (plan : Plan) (path name : String) (package : Package) : List Symbol :=
  (package.writable.takeWhile fun s => s.name ≠ name).filter fun s =>
    isCompanion plan ⟨some path, name⟩ s && s.isDefinable

/-- How many of them are not defined yet. -/
def waiting (plan : Plan) (path k name : String) (package : Package) (N : Texts) : Nat :=
  (plan.early path name package).countP fun a => !N.has k a.name

/-- What the references of a run bring, in reports of the constant `c` of the type `t`: none, unless
the type is defined on the way; then one, and one for each constant that had to wait. -/
structure Brings (plan : Plan) (path k : String) (package : Package) (t c : Symbol) (N : Texts)
    (reports : List Report) (N' : Texts) : Prop where
  within : N.Within N'
  free : N'.has k c.name = false
  still : N'.has k t.name = N.has k t.name → .dropped path c.name ∉ reports ∧
    (N.has k t.name = false → ∀ a ∈ plan.early path t.name package,
      N'.has k a.name = N.has k a.name)
  opened : N.has k t.name = false → N'.has k t.name = true →
    reports.count (.dropped path c.name) = plan.waiting path k t.name package N + 1 ∧
    ∀ a ∈ plan.early path t.name package, N'.has k a.name = true

theorem waiting_congr (h : ∀ a ∈ plan.early path name package, N'.has k a.name = N.has k a.name) :
    plan.waiting path k name package N' = plan.waiting path k name package N :=
  countP_congr fun a ha => by rw [h a ha]

namespace Brings

theorem refl (hfree : N.has k c.name = false) : plan.Brings path k package t c N [] N where
  within := .refl _
  free := hfree
  still _ := ⟨not_mem_nil, fun _ _ _ => rfl⟩
  opened ht ht' := by
    cases ht.symm.trans ht'

theorem trans (h : plan.Brings path k package t c N reports N₁)
    (h' : plan.Brings path k package t c N₁ reports' N₂) :
    plan.Brings path k package t c N (reports ++ reports') N₂ where
  within := h.within.trans h'.within
  free := h'.free
  still heq := by
    have heq₁ : N₁.has k t.name = N.has k t.name := by
      cases ht : N.has k t.name with
      | true => exact h.within _ _ ht
      | false => exact h'.within.free (heq.trans ht)
    obtain ⟨hreports, hearly⟩ := h.still heq₁
    obtain ⟨hreports', hearly'⟩ := h'.still (heq.trans heq₁.symm)
    refine ⟨fun hmem => (mem_append.1 hmem).elim hreports hreports', fun ht a ha => ?_⟩
    exact (hearly' (heq₁.trans ht) a ha).trans (hearly ht a ha)
  opened ht ht₂ := by
    rw [count_append]
    cases ht₁ : N₁.has k t.name with
    | false =>
      obtain ⟨hreports, hearly⟩ := h.still (ht₁.trans ht.symm)
      obtain ⟨hreports', hearly'⟩ := h'.opened ht₁ ht₂
      rw [count_eq_zero_of_not_mem hreports, hreports', Nat.zero_add,
        waiting_congr (hearly ht)]
      exact ⟨rfl, hearly'⟩
    | true =>
      obtain ⟨hreports, hearly⟩ := h.opened ht ht₁
      rw [hreports, count_eq_zero_of_not_mem (h'.still (ht₂.trans ht₁.symm)).1, Nat.add_zero]
      exact ⟨rfl, fun a ha => h'.within _ _ (hearly a ha)⟩

end Brings

/-! ### Constants that stand before their type -/

theorem mem_early :
    a ∈ plan.early path name package ↔ a ∈ package.writable.takeWhile (fun s => s.name ≠ name) ∧
      isCompanion plan ⟨some path, name⟩ a = true ∧ a.isDefinable = true := by
  rw [early, mem_filter, Bool.and_eq_true]

theorem mem_writable_of_early (ha : a ∈ plan.early path name package) : a ∈ package.writable :=
  (takeWhile_sublist _).subset (mem_early.1 ha).1

/-- A constant that stands before its type is written with it. -/
theorem cites_of_early (ha : a ∈ plan.early path name package) : plan.Cites a path name := by
  obtain ⟨-, hcompanion, hdefinable⟩ := mem_early.1 ha
  rw [isCompanion] at hcompanion
  split at hcompanion
  · rename_i value type args hbody
    simp only [Bool.and_eq_true, decide_eq_true_eq] at hcompanion
    obtain ⟨rfl, -⟩ := hcompanion
    refine ⟨.named ⟨some path, name⟩ args, ?_, _, .refl, args, .inl .refl⟩
    rw [Symbol.isDefinable, hbody] at hdefinable
    rw [rendered, hbody]
    cases value with
    | none => cases hdefinable
    | some value =>
      cases hliteral : value.literal? with
      | error f => simp [hliteral] at hdefinable
      | ok literal =>
        cases literal with
        | none => simp [hliteral] at hdefinable
        | some literal => simp [hliteral]
  · cases hcompanion

theorem waiting_eq_zero (h : ∀ a ∈ plan.early path name package, N.has k a.name = true) :
    plan.waiting path k name package N = 0 :=
  countP_eq_zero.2 fun a ha => by simp [h a ha]

theorem waiting_set (hsound : plan.program.Sound)
    (hpackage : plan.program.packages.get? path = some package)
    (ha : a ∈ plan.early path name package) (hfree : N.has k a.name = false) :
    plan.waiting path k name package (N.set k a.name text) + 1 =
      plan.waiting path k name package N := by
  have hnodup : ((plan.early path name package).map Symbol.name).Nodup :=
    (hsound.nodup_names hpackage).sublist
      ((filter_sublist.trans (takeWhile_sublist _)).map _)
  obtain ⟨before, after, heq⟩ := append_of_mem ha
  rw [heq, map_append, map_cons, nodup_append, nodup_cons] at hnodup
  -- the others have other names
  have hcount : ∀ l : List Symbol, (∀ b ∈ l, a.name ≠ b.name) →
      l.countP (fun b => !(N.set k a.name text).has k b.name) = l.countP fun b => !N.has k b.name :=
    fun l hl => countP_congr fun b hb => by
      rw [Texts.has_set_of_ne fun h => hl b hb h.2]
  rw [waiting, waiting, heq, countP_append, countP_append, countP_cons,
    countP_cons, hcount before fun b hb hname => ?_, hcount after fun b hb hname => ?_, hfree,
    Texts.has_set_self]
  · rfl
  · exact hnodup.2.1.1 (hname ▸ mem_map_of_mem hb)
  · exact hnodup.2.2 _ (mem_map_of_mem hb) _ mem_cons_self hname.symm

/-! ### Outcomes -/

namespace Bound

/-- A property of references that holds while nothing of the constant is written. -/
abbrev Law (plan : Plan) (path k : String) (package : Package) (t c : Symbol) (N : Texts)
    (reports : List Report) (N' : Texts) : Prop :=
  N.has k c.name = false → plan.Brings path k package t c N reports N'

theorem name_ne (h : plan.Bound path k package t c) : t.name ≠ c.name := by
  intro hname
  have htype := h.isType
  rw [h.sound.eq_of_name h.loaded h.type h.const hname,
    Symbol.not_isType_of_isDropped h.dropped] at htype
  cases htype

section

variable (h : plan.Bound path k package t c) (hs : plan.Place k' s)
  (houtcome : plan.Outcome (Law plan path k package t c) k' s N reports N')
  (hfree : N.has k c.name = false)

include h hs houtcome hfree

/-- Once the type is defined, the constant is reported when it is tried, and by nothing else. -/
theorem outcome_after (ht : N.has k t.name = true) :
    reports.count (.dropped path c.name) = (if k' = k ∧ s.name = c.name then 1 else 0) ∧
      N'.has k c.name = false := by
  refine h.outcome_spec hs houtcome hfree fun reports N' hlaw hfree' => ?_
  have hbrings := hlaw hfree'
  have ht' := Texts.Within.set N k' s.name .empty _ _ ht
  exact ⟨(hbrings.still ((hbrings.within _ _ ht').trans ht'.symm)).1, hbrings.free⟩

/-- A symbol that is tried before the type is defined: the type is not defined on the way, and
nothing is reported, or it is. -/
theorem outcome_before (ht : N.has k t.name = false)
    (hc : ¬ (k' = k ∧ s.name = c.name)) (hne : ¬ (k' = k ∧ s.name = t.name)) :
    N'.has k c.name = false ∧ (N'.has k t.name = false ∧ .dropped path c.name ∉ reports ∧
          (∀ a ∈ plan.early path t.name package, N'.has k a.name = N.has k a.name) ∨
        N'.has k t.name = true ∧ N.has k' s.name = false ∧ reports.count (.dropped path c.name) =
            plan.waiting path k t.name package (N.set k' s.name .empty) + 1 ∧
          ∀ a ∈ plan.early path t.name package, N'.has k a.name = true) := by
  cases houtcome with
  | taken => exact ⟨hfree, .inl ⟨ht, not_mem_nil, fun _ _ => rfl⟩⟩
  | dropped hpath _ _ =>
    refine ⟨hfree, .inl ⟨ht, fun hmem => hc ?_, fun _ _ => rfl⟩⟩
    exact (h.report_eq_iff hpath).1 (mem_singleton.1 hmem)
  | @made N₁ _ _ hfree' _ hreferences _ hcites =>
    have hbrings := hreferences (by rw [Texts.has_set_of_ne hc, hfree])
    have ht₀ : (N.set k' s.name .empty).has k t.name = false := by
      rw [Texts.has_set_of_ne hne, ht]
    rw [Texts.has_set_of_ne hc, Texts.has_set_of_ne hne]
    refine ⟨hbrings.free, ?_⟩
    cases ht₁ : N₁.has k t.name with
    | true =>
      obtain ⟨hreports, hearly⟩ := hbrings.opened ht₀ ht₁
      exact .inr ⟨rfl, hfree', hreports, fun a ha => Texts.Within.set _ _ _ _ _ _ (hearly a ha)⟩
    | false =>
      obtain ⟨hreports, hearly⟩ := hbrings.still (ht₁.trans ht₀.symm)
      refine .inl ⟨rfl, hreports, fun a ha => ?_⟩
      -- a constant that stands before the type would have brought it
      have hother : ¬ (k' = k ∧ s.name = a.name) := by
        rintro ⟨rfl, hname⟩
        obtain rfl : s = a := eq_of_place h.names h.sound.keyed
          ⟨_, _, h.module, h.loaded, mem_writable_of_early ha⟩ hs hname
        rw [hcites path t.name k' (cites_of_early ha) h.module] at ht₁
        cases ht₁
      rw [Texts.has_set_of_ne hother, hearly ht₀ a ha, Texts.has_set_of_ne hother]

/-- A symbol that neither is the type or the constant nor stands before the type brings what its
references bring. -/
theorem brings_of_outcome (hc : ¬ (k' = k ∧ s.name = c.name)) (hne : ¬ (k' = k ∧ s.name = t.name))
    (hearly : ∀ a ∈ plan.early path t.name package, ¬ (k' = k ∧ s.name = a.name)) :
    plan.Brings path k package t c N reports N' := by
  cases ht : N.has k t.name with
  | true =>
    obtain ⟨hreports, hfree'⟩ := h.outcome_after hs houtcome hfree ht
    rw [if_neg hc, count_eq_zero] at hreports
    refine ⟨houtcome.within, hfree', fun _ => ⟨hreports, fun ht' => ?_⟩, fun ht' => ?_⟩ <;>
      · cases ht.symm.trans ht'
  | false =>
    obtain ⟨hfree', ⟨ht', hreports, hsame⟩ | ⟨ht', -, hreports, htaken⟩⟩ :=
      h.outcome_before hs houtcome hfree ht hc hne
    · refine ⟨houtcome.within, hfree', fun _ => ⟨hreports, fun _ => hsame⟩, fun _ ht'' => ?_⟩
      cases ht'.symm.trans ht''
    · refine ⟨houtcome.within, hfree', fun heq => ?_, fun _ _ => ⟨?_, htaken⟩⟩
      · rw [ht, ht'] at heq
        cases heq
      · rw [hreports, waiting_congr fun a ha => Texts.has_set_of_ne (hearly a ha)]

end

theorem brings_set (hfree : N.has k c.name = false) (hne : k' ≠ k)
    (hreports : .dropped path c.name ∉ reports) :
    plan.Brings path k package t c N reports (N.set k' name' text) := by
  have hsame : ∀ n, (N.set k' name' text).has k n = N.has k n := fun n =>
    Texts.has_set_of_ne fun heq => hne heq.1
  refine ⟨.set _ _ _ _, (hsame _).trans hfree, fun _ => ⟨hreports, fun _ _ _ => hsame _⟩,
    fun ht ht' => ?_⟩
  rw [hsame, ht] at ht'
  cases ht'

/-! ### The type and its constants -/

section

variable (h : plan.Bound path k package t c)

include h

theorem outcomes_after
    (houtcomes : plan.Outcomes (Law plan path k package t c) k symbols N reports N')
    (hsymbols : ∀ s ∈ symbols, s ∈ package.writable) (hfree : N.has k c.name = false)
    (ht : N.has k t.name = true) :
    reports.count (.dropped path c.name) = symbols.countP (·.name = c.name) ∧
      N'.has k c.name = false := by
  induction houtcomes with
  | nil => exact ⟨rfl, hfree⟩
  | @cons s symbols N N₁ N₂ reports reports' first _ ih =>
    obtain ⟨hreports, hfree₁⟩ := h.outcome_after
      ⟨_, _, h.module, h.loaded, hsymbols s mem_cons_self⟩ first hfree ht
    obtain ⟨hreports', hfree₂⟩ := ih (fun s hs => hsymbols s (mem_cons_of_mem _ hs)) hfree₁
      (first.within _ _ ht)
    refine ⟨?_, hfree₂⟩
    rw [count_append, hreports, hreports', countP_cons, Nat.add_comm]
    simp

/-- Constants that stand before the type, tried one after the other.  The first that is not defined
and has a literal defines the type, and so all of them; the constants without a literal are reported
on the way. -/
theorem outcomes_before
    (houtcomes : plan.Outcomes (Law plan path k package t c) k symbols N reports N')
    (hsymbols : ∀ s ∈ symbols, s ∈ package.writable ∧ s.name ≠ t.name ∧
      (s.isDefinable = true → s ∈ plan.early path t.name package))
    (hfree : N.has k c.name = false) (ht : N.has k t.name = false)
    (hearly : ∀ a ∈ plan.early path t.name package, N.has k a.name = false → a ∈ symbols) :
    N'.has k c.name = false ∧ reports.count (.dropped path c.name) =
        symbols.countP (·.name = c.name) + plan.waiting path k t.name package N ∧
      ∀ a ∈ plan.early path t.name package, N'.has k a.name = true := by
  induction houtcomes with
  | @nil N =>
    have htaken : ∀ a ∈ plan.early path t.name package, N.has k a.name = true := fun a ha =>
      Bool.eq_true_of_not_eq_false fun hfree => absurd (hearly a ha hfree) not_mem_nil
    refine ⟨hfree, ?_, htaken⟩
    rw [waiting_eq_zero htaken]
    rfl
  | @cons s symbols N N₁ N₂ reports reports' first rest ih =>
    obtain ⟨hs, hne, hdefinable⟩ := hsymbols s mem_cons_self
    have hsymbols' := fun s hs => hsymbols s (mem_cons_of_mem _ hs)
    have houtcome := first
    cases first with
    | taken htaken =>
      have hname : s.name ≠ c.name := by
        intro hname
        rw [hname, hfree] at htaken
        cases htaken
      rw [countP_cons_of_neg (by simpa using hname)]
      refine ih hsymbols' hfree ht fun a ha hfree' => ?_
      refine (mem_cons.1 (hearly a ha hfree')).resolve_left ?_
      rintro rfl
      cases htaken.symm.trans hfree'
    | dropped hpath _ hdropped =>
      obtain ⟨hfree', hreports, htaken⟩ := ih hsymbols' hfree ht fun a ha hfree' => by
        refine (mem_cons.1 (hearly a ha hfree')).resolve_left ?_
        rintro rfl
        rw [Symbol.not_isDropped_of_isDefinable (mem_early.1 ha).2.2] at hdropped
        cases hdropped
      refine ⟨hfree', ?_, htaken⟩
      obtain rfl := h.names hpath h.module
      rw [count_append, hreports, count_singleton, countP_cons]
      by_cases hname : s.name = c.name
      · simp [hname]
        omega
      · simp [hname]
    | made hfree' hdefinable' _ _ _ =>
      have ha := hdefinable hdefinable'
      have hname := h.ne_of_isDefinable ⟨_, _, h.module, h.loaded, hs⟩ hdefinable'
      obtain ⟨hfree₁, ⟨-, -, hsame⟩ | ⟨ht₁, -, hreports, htaken⟩⟩ := h.outcome_before
        ⟨_, _, h.module, h.loaded, hs⟩ houtcome hfree ht hname fun heq => hne heq.2
      · have hdefined := houtcome.has hdefinable'
        rw [hsame s ha, hfree'] at hdefined
        cases hdefined
      · obtain ⟨hreports', hfree₂⟩ := h.outcomes_after rest (fun s hs => (hsymbols' s hs).1)
          hfree₁ ht₁
        refine ⟨hfree₂, ?_, fun a ha => rest.within _ _ (htaken a ha)⟩
        rw [count_append, hreports, hreports', waiting_set h.sound h.loaded ha hfree',
          countP_cons_of_neg (by simpa using hname), Nat.add_comm]

theorem outcome_type (houtcome : plan.Outcome (Law plan path k package t c) k t N reports N')
    (hfree : N.has k c.name = false) :
    .dropped path c.name ∉ reports ∧ N'.has k c.name = false := by
  have hne : ¬ (k = k ∧ t.name = c.name) := fun heq => h.name_ne heq.2
  cases houtcome with
  | taken => exact ⟨not_mem_nil, hfree⟩
  | dropped _ _ hdropped =>
    have htype := h.isType
    rw [Symbol.not_isType_of_isDropped hdropped] at htype
    cases htype
  | made _ _ hreferences _ _ =>
    have hbrings := hreferences (by rw [Texts.has_set_of_ne hne, hfree])
    rw [Texts.has_set_of_ne hne]
    refine ⟨(hbrings.still ?_).1, hbrings.free⟩
    rw [hbrings.within _ _ Texts.has_set_self, Texts.has_set_self]

/-- What comes with a type: what stands before it, the type, and what stands after it. -/
theorem exists_filter_eq : ∃ after, after ⊆ package.writable ∧
    package.writable.filter (comesWith plan ⟨some path, t.name⟩) =
      (package.writable.takeWhile (fun s => s.name ≠ t.name)).filter
        (comesWith plan ⟨some path, t.name⟩) ++ t :: after := by
  have hsplit := takeWhile_append_dropWhile (p := fun s : Symbol => s.name ≠ t.name)
    (l := package.writable)
  cases hrest : package.writable.dropWhile (fun s => s.name ≠ t.name) with
  | nil =>
    rw [dropWhile_eq_nil_iff] at hrest
    exact absurd (hrest t h.type) (by simp)
  | cons t' after =>
    rw [hrest] at hsplit
    have hafter : t' :: after ⊆ package.writable := fun s hs => by
      rw [← hsplit]
      exact mem_append_right _ hs
    have hname : t'.name = t.name := by
      have hhead := head?_dropWhile_not (fun s : Symbol => s.name ≠ t.name) package.writable
      rw [hrest] at hhead
      simpa using hhead
    obtain rfl : t' = t := h.sound.eq_of_name h.loaded (hafter mem_cons_self) h.type hname
    refine ⟨after.filter (comesWith plan ⟨some path, t'.name⟩), fun s hs =>
      hafter (mem_cons_of_mem _ (mem_of_mem_filter hs)), ?_⟩
    conv_lhs => rw [← hsplit]
    rw [filter_append, filter_cons_of_pos (by simp [comesWith])]

/-- Defining the type along with its constants brings one report, and one for each constant that
had to wait. -/
theorem brings_included (houtcomes : plan.Outcomes (Law plan path k package t c) k
      (package.writable.filter (comesWith plan ⟨some path, t.name⟩)) N reports N')
    (hfree : N.has k c.name = false) (ht : N.has k t.name = false) :
    plan.Brings path k package t c N reports N' := by
  set symbols := package.writable.filter (comesWith plan ⟨some path, t.name⟩)
    with hsymbols
  -- the constant is tried once
  have hcount : symbols.countP (·.name = c.name) = 1 := by
    have hnodup : (symbols.map Symbol.name).Nodup :=
      (h.sound.nodup_names h.loaded).sublist (filter_sublist.map _)
    have hmem : c ∈ symbols := mem_filter.2
      ⟨h.const, by rw [comesWith, h.companion, Bool.or_true]⟩
    simpa using countP_name_eq hnodup hmem fun _ => true
  obtain ⟨after, hafter, heq⟩ := h.exists_filter_eq
  have hwithin := houtcomes.within
  rw [← hsymbols] at heq
  rw [heq, countP_append, countP_cons_of_neg (by simpa using h.name_ne)] at hcount
  rw [heq] at houtcomes
  obtain ⟨reports₁, rest, N₁, rfl, hbefore, houtcomes⟩ := houtcomes.append
  cases houtcomes with
  | @cons _ _ _ N₂ _ reports₂ reports₃ htype houtcomes =>
    obtain ⟨hfree₁, hreports₁, hearly⟩ := h.outcomes_before hbefore (fun s hs => by
      obtain ⟨hs, hcomes⟩ := mem_filter.1 hs
      have hname : s.name ≠ t.name := by simpa using mem_takeWhile_imp hs
      refine ⟨(takeWhile_sublist _).subset hs, hname, fun hdefinable => ?_⟩
      refine mem_early.2 ⟨hs, ?_, hdefinable⟩
      rw [comesWith, Bool.or_eq_true, decide_eq_true_eq] at hcomes
      exact hcomes.resolve_left hname) hfree ht fun a ha _ => by
        refine mem_filter.2 ⟨(mem_early.1 ha).1, ?_⟩
        rw [comesWith, (mem_early.1 ha).2.1, Bool.or_true]
    obtain ⟨hreports₂, hfree₂⟩ := h.outcome_type htype hfree₁
    have ht₂ := htype.has (Symbol.isDefinable_of_isType h.isType)
    obtain ⟨hreports₃, hfree₃⟩ := h.outcomes_after houtcomes hafter hfree₂ ht₂
    refine ⟨hwithin, hfree₃, fun heq => ?_, fun _ _ => ⟨?_, fun a ha => ?_⟩⟩
    · rw [ht, houtcomes.within _ _ ht₂] at heq
      cases heq
    · rw [count_append, count_append, hreports₁,
        count_eq_zero_of_not_mem hreports₂, hreports₃]
      omega
    · exact houtcomes.within _ _ (htype.within _ _ (hearly a ha))

/-- A symbol comes with one type of its package only. -/
theorem eq_of_comesWith {t' : Symbol}
    (ht' : t' ∈ package.writable) (htype' : t'.isType = true) (hs : s ∈ package.writable)
    (hcomes : comesWith plan ⟨some path, t.name⟩ s = true)
    (hcomes' : comesWith plan ⟨some path, t'.name⟩ s = true) : t' = t := by
  have hconst : ∀ id, isCompanion plan id s = true → s.isType = false := by
    intro id hcompanion
    rw [isCompanion] at hcompanion
    split at hcompanion
    · rename_i hbody
      rw [Symbol.isType, hbody]
    · cases hcompanion
  rw [comesWith, Bool.or_eq_true, decide_eq_true_eq] at hcomes hcomes'
  rcases hcomes with hname | hcompanion
  · obtain rfl := h.sound.eq_of_name h.loaded hs h.type hname
    rcases hcomes' with hname' | hcompanion'
    · exact h.sound.eq_of_name h.loaded ht' h.type hname'.symm
    · have htype := h.isType
      rw [hconst _ hcompanion'] at htype
      cases htype
  · rcases hcomes' with hname' | hcompanion'
    · obtain rfl := h.sound.eq_of_name h.loaded hs ht' hname'
      rw [hconst _ hcompanion] at htype'
      cases htype'
    · refine h.sound.eq_of_name h.loaded ht' h.type ?_
      exact (SymbolId.mk.inj (isCompanion_unique hcompanion' hcompanion)).2

theorem tallies_law :
    plan.Tallies (Law plan path k package t c) where
  refl _ hfree := .refl hfree
  trans hfirst hsecond hfree := (hfirst hfree).trans (hsecond (hfirst hfree).free)
  replaced hk hmissing _ _ hfree :=
    brings_set hfree (h.module_ne hk hmissing) not_mem_nil
  degraded hk hmissing _ _ hfree := brings_set hfree (h.module_ne hk hmissing) (by simp)
  included {N reports N' path' k' package' t'} hk hpackage ht' htype' hfree' houtcomes hfree := by
    by_cases hsame : path' = path ∧ t'.name = t.name
    · obtain ⟨rfl, hname⟩ := hsame
      cases hk.symm.trans h.module
      cases hpackage.symm.trans h.loaded
      obtain rfl := h.sound.eq_of_name h.loaded ht' h.type hname
      exact h.brings_included houtcomes hfree hfree'
    · -- what comes with another type is not the type, and does not come with it
      have hother : ∀ s ∈ package'.writable.filter
          (comesWith plan ⟨some path', t'.name⟩), ∀ s' ∈ package.writable,
          comesWith plan ⟨some path, t.name⟩ s' = true →
          ¬ (k' = k ∧ s.name = s'.name) := by
        rintro s hs s' hs' hcomes' ⟨rfl, hname⟩
        obtain ⟨hs, hcomes⟩ := mem_filter.1 hs
        obtain rfl := h.names hk h.module
        cases hpackage.symm.trans h.loaded
        obtain rfl := h.sound.eq_of_name h.loaded hs hs' hname
        exact hsame ⟨rfl, congrArg Symbol.name (h.eq_of_comesWith ht' htype' hs hcomes' hcomes)⟩
      refine houtcomes.fold (P := Law plan path k package t c) (fun _ hfree => .refl hfree)
        (fun hfirst hsecond hfree => (hfirst hfree).trans (hsecond (hfirst hfree).free))
        (fun s hs N reports N' houtcome hfree => ?_) hfree
      refine h.brings_of_outcome ⟨_, _, hk, hpackage, mem_of_mem_filter hs⟩ houtcome hfree
        (hother s hs c h.const ?_) (hother s hs t h.type ?_) fun a ha =>
          hother s hs a (mem_writable_of_early ha) ?_
      · rw [comesWith, h.companion, Bool.or_true]
      · rw [comesWith, decide_eq_true rfl, Bool.true_or]
      · rw [comesWith, (mem_early.1 ha).2.1, Bool.or_true]

end

end Bound

end Plan

end DeclBridge
