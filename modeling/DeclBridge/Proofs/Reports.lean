import DeclBridge.Proofs.Origins

/-!
# What a run reports

A run warns of a type of a missing package that gets the fallback type, and of a constant that is
left out because its value has no literal.  `Report` names these two, and `Plan.Says` the
diagnostic of each.

What is reported depends on nothing but the names that are taken.  So a run is followed in terms of
its texts and its reports alone.  `Plan.Outcome` says what becomes of a symbol that is to be
defined, given what the references in its definition do, and `Plan.Tallies` lists what must be
proved of a property of references: that it holds where nothing is done, for one reference after
another, for an unknown type, and for a type that is defined along with its constants.  Whatever has
these closure properties holds of all references of a run (`define_tallies`), and with it comes the
list of the reports (`Plan.Adds`).
-/

namespace DeclBridge

open Emission List

variable {symbols : List Symbol} {k path : String} {s : Symbol} {plan : Plan}
  {reports : List Report} {text : Text} {Q : Texts → List Report → Texts → Prop} {e₀ : Emission}

inductive Report where
  /-- A type of a missing package has the fallback type. -/
  | degraded (path name : String)
  /-- A constant has no literal and is left out. -/
  | dropped (path name : String)
deriving DecidableEq, Repr

/-- Whether a symbol is a constant whose value has no literal. -/
def Symbol.isDropped (s : Symbol) : Bool :=
  match s.body with
  | .const (some value) _ =>
    match value.literal? with
    | .ok literal => literal.isNone
    | .error _ => false
  | _ => false

/-- Whether a symbol has a definition: it is a type, or a constant whose value has a literal. -/
def Symbol.isDefinable (s : Symbol) : Bool :=
  match s.body with
  | .const (some value) _ =>
    match value.literal? with
    | .ok literal => literal.isSome
    | .error _ => false
  | .const none _ => false
  | .type _ => true

namespace Symbol

theorem not_isDropped_of_isDefinable (h : s.isDefinable = true) : s.isDropped = false := by
  rw [isDefinable] at h
  split at h
  · rename_i hbody
    split at h
    · rename_i hliteral
      simp only [isDropped, hbody, hliteral, Option.isNone_eq_false_iff, h]
    · cases h
  · cases h
  · rename_i hbody
    simp only [isDropped, hbody]

theorem isDefinable_of_isType (h : s.isType = true) : s.isDefinable = true := by
  rw [isType] at h
  rw [isDefinable]
  cases hbody : s.body with
  | const value type =>
    rw [hbody] at h
    cases h
  | type info => rfl

theorem isDefinable_of_const {value : Constant} {type : Option Ty} {literal : Text}
    (hbody : s.body = .const (some value) type) (hliteral : value.literal? = .ok (some literal)) :
    s.isDefinable = true := by
  simp only [isDefinable, hbody, hliteral, Option.isSome_some]

end Symbol

def Diagnostic.warning (code message : String) (span : Span) : Diagnostic :=
  { message, code := some code, phase := some "transpile", severity := "warning", span }

namespace Plan

/-- The diagnostics that say what is reported. -/
inductive Says (plan : Plan) : Report → Diagnostic → Prop
  | degraded {path name reason : String} {why : LoadError}
      (hmissing : plan.program.package path = .error why)
      (hreason : Text.firstLine? why.text = some reason) :
      Says plan (.degraded path name) (.warning "unresolved-reference"
        ("reference to " ++ SymbolId.qualified ⟨some path, name⟩ ++ " degraded to " ++
          plan.options.fallback.shown ++ ": " ++ reason)
        (plan.program.spanOf ⟨some path, name⟩))
  | dropped {path cited : String} {package : Package} {c : Symbol} {value : Constant}
      {type : Option Ty} (hpackage : plan.program.packages.get? path = some package)
      (hc : c ∈ package.writable) (hbody : c.body = .const (some value) type)
      (hliteral : value.literal? = .ok none) (hcited : value.cited = .ok cited) :
      Says plan (.dropped path c.name) (.warning "unsupported-literal"
        ("constant " ++ c.id.qualified ++ " dropped: unsupported value " ++ cited) c.span)

/-- From one state to another, the diagnostics of the reports were added. -/
def Adds (plan : Plan) (e : Emission) (reports : List Report) (e' : Emission) : Prop :=
  ∃ diagnostics, List.Forall₂ plan.Says reports diagnostics ∧
    e'.diagnostics = e.diagnostics ++ diagnostics

variable {e e' e'' : Emission} {reports' : List Report}

theorem Adds.of_eq (h : e'.diagnostics = e.diagnostics) : plan.Adds e [] e' :=
  ⟨[], .nil, by rw [h, append_nil]⟩

theorem Adds.trans (h : plan.Adds e reports e') (h' : plan.Adds e' reports' e'') :
    plan.Adds e (reports ++ reports') e'' := by
  obtain ⟨diagnostics, hsays, heq⟩ := h
  obtain ⟨diagnostics', hsays', heq'⟩ := h'
  exact ⟨diagnostics ++ diagnostics', rel_append hsays hsays', by
    rw [heq', heq, append_assoc]⟩

theorem Adds.single {report : Report} {d : Diagnostic} (h : plan.Says report d)
    (heq : e'.diagnostics = e.diagnostics ++ [d]) : plan.Adds e [report] e' :=
  ⟨[d], .cons h .nil, heq⟩

theorem Adds.congr (h : plan.Adds e reports e') {e₁ e₂ : Emission}
    (h₁ : e₁.diagnostics = e.diagnostics) (h₂ : e₂.diagnostics = e'.diagnostics) :
    plan.Adds e₁ reports e₂ := by
  obtain ⟨diagnostics, hsays, heq⟩ := h
  exact ⟨diagnostics, hsays, by rw [h₂, heq, h₁]⟩

end Plan

/-! ## Texts -/

/-- The texts of the names in each module. -/
abbrev Texts := (module name : String) → Option Text

namespace Texts

variable {N N' N'' : Texts} {k' n n' : String}

def has (N : Texts) (k n : String) : Bool := (N k n).isSome

def set (N : Texts) (k n : String) (text : Text) : Texts :=
  fun k' n' => if k = k' ∧ n = n' then some text else N k' n'

/-- What is taken in the first is taken in the second. -/
def Within (N N' : Texts) : Prop := ∀ k n, N.has k n = true → N'.has k n = true

theorem has_set : (N.set k n text).has k' n' = true ↔ k = k' ∧ n = n' ∨ N.has k' n' = true := by
  rw [has, set]
  split
  · exact iff_of_true rfl (.inl ‹_›)
  · exact ⟨.inr, fun h => h.resolve_left ‹_›⟩

theorem has_set_self : (N.set k n text).has k n = true := has_set.2 (.inl ⟨rfl, rfl⟩)

theorem has_set_of_ne (hne : ¬ (k = k' ∧ n = n')) : (N.set k n text).has k' n' = N.has k' n' := by
  rw [has, has, set, if_neg hne]

theorem Within.refl (N : Texts) : N.Within N := fun _ _ h => h

theorem Within.trans (h : N.Within N') (h' : N'.Within N'') : N.Within N'' :=
  fun k n hn => h' k n (h k n hn)

theorem Within.set (N : Texts) (k n : String) (text : Text) : N.Within (N.set k n text) :=
  fun _ _ h => has_set.2 (.inr h)

theorem Within.free (h : N.Within N') (hfree : N'.has k n = false) : N.has k n = false := by
  by_contra htaken
  rw [h k n (Bool.eq_true_of_not_eq_false htaken)] at hfree
  cases hfree

end Texts

namespace Emission

variable {e e' : Emission} {n : String}

def written (e : Emission) : Texts := e.text?

theorem has_written : e.written.has k n = e.taken k n := (taken_eq_isSome).symm

theorem SameTexts.written_eq (h : e.SameTexts e') : e'.written = e.written :=
  funext fun k => funext fun n => h.texts k n

theorem written_withText (hk : (e.module? k).isSome) :
    (e.update k (·.withText n text)).written = e.written.set k n text :=
  funext fun k' => funext fun n' => text?_withText hk k' n'

theorem Extends.within (h : e.Extends e') : e.written.Within e'.written := by
  intro k n hn
  rw [has_written] at hn ⊢
  exact h.taken hn

end Emission

/-! ## Outcomes -/

namespace Plan

variable {Q' : Texts → List Report → Texts → Prop} {N N' : Texts}

/-- What becomes of a symbol that is to be defined in the module `k`, where `Q` holds of the
references in its definition. -/
inductive Outcome (plan : Plan) (Q : Texts → List Report → Texts → Prop) (k : String) (s : Symbol) :
    Texts → List Report → Texts → Prop
  /-- Its name is taken. -/
  | taken {N : Texts} (htaken : N.has k s.name = true) : Outcome plan Q k s N [] N
  /-- Its value has no literal. -/
  | dropped {N : Texts} {path : String} (hpath : plan.names.names.get? path = some k)
      (hfree : N.has k s.name = false) (hdropped : s.isDropped = true) :
      Outcome plan Q k s N [.dropped path s.name] N
  /-- Its name is reserved, its definition refers to all that it cites, and then it is written. -/
  | made {N N' : Texts} {reports : List Report} {text : Text} (hfree : N.has k s.name = false)
      (hdefinable : s.isDefinable = true) (hreferences : Q (N.set k s.name .empty) reports N')
      (hwithin : (N.set k s.name .empty).Within N')
      (hcites : ∀ path name k', plan.Cites s path name → plan.names.names.get? path = some k' →
        N'.has k' name = true) :
      Outcome plan Q k s N reports (N'.set k s.name text)

theorem Outcome.mono (h : plan.Outcome Q k s N reports N')
    (hQ : ∀ N reports N', Q N reports N' → Q' N reports N') : plan.Outcome Q' k s N reports N' := by
  cases h with
  | taken htaken => exact .taken htaken
  | dropped hpath hfree hdropped => exact .dropped hpath hfree hdropped
  | made hfree hdefinable hreferences hwithin hcites =>
    exact .made hfree hdefinable (hQ _ _ _ hreferences) hwithin hcites

theorem Outcome.within (h : plan.Outcome Q k s N reports N') : N.Within N' := by
  cases h with
  | taken | dropped => exact .refl _
  | made _ _ _ hwithin _ => exact ((Texts.Within.set _ _ _ _).trans hwithin).trans (.set _ _ _ _)

theorem Outcome.has (h : plan.Outcome Q k s N reports N') (hs : s.isDefinable = true) :
    N'.has k s.name = true := by
  cases h with
  | taken htaken => exact htaken
  | dropped _ _ hdropped =>
    rw [Symbol.not_isDropped_of_isDefinable hs] at hdropped
    cases hdropped
  | made => exact Texts.has_set_self

/-- What becomes of symbols that are defined one after the other. -/
inductive Outcomes (plan : Plan) (Q : Texts → List Report → Texts → Prop) (k : String) :
    List Symbol → Texts → List Report → Texts → Prop
  | nil {N : Texts} : Outcomes plan Q k [] N [] N
  | cons {s : Symbol} {symbols : List Symbol} {N N₁ N₂ : Texts} {reports reports' : List Report}
      (first : plan.Outcome Q k s N reports N₁) (rest : Outcomes plan Q k symbols N₁ reports' N₂) :
      Outcomes plan Q k (s :: symbols) N (reports ++ reports') N₂

theorem Outcomes.mono (h : plan.Outcomes Q k symbols N reports N')
    (hQ : ∀ N reports N', Q N reports N' → Q' N reports N') :
    plan.Outcomes Q' k symbols N reports N' := by
  induction h with
  | nil => exact .nil
  | cons first _ ih => exact .cons (first.mono hQ) ih

theorem Outcomes.within (h : plan.Outcomes Q k symbols N reports N') : N.Within N' := by
  induction h with
  | nil => exact .refl _
  | cons first _ ih => exact first.within.trans ih

theorem Outcomes.has (h : plan.Outcomes Q k symbols N reports N') (hs : s ∈ symbols)
    (hdefinable : s.isDefinable = true) : N'.has k s.name = true := by
  induction h with
  | nil => exact absurd hs not_mem_nil
  | cons first rest ih =>
    rcases mem_cons.1 hs with rfl | hs
    · exact rest.within _ _ (first.has hdefinable)
    · exact ih hs

theorem Outcomes.append {symbols₁ symbols₂ : List Symbol}
    (h : plan.Outcomes Q k (symbols₁ ++ symbols₂) N reports N') :
    ∃ reports₁ reports₂ N₁, reports = reports₁ ++ reports₂ ∧
      plan.Outcomes Q k symbols₁ N reports₁ N₁ ∧ plan.Outcomes Q k symbols₂ N₁ reports₂ N' := by
  induction symbols₁ generalizing N reports with
  | nil => exact ⟨[], reports, N, rfl, .nil, h⟩
  | cons s symbols₁ ih =>
    cases h with
    | cons first rest =>
      obtain ⟨reports₁, reports₂, N₁, rfl, h₁, h₂⟩ := ih rest
      exact ⟨_, reports₂, N₁, (append_assoc _ _ _).symm, .cons first h₁, h₂⟩

/-- What each outcome has, if it holds where nothing is done and for one after the other, holds of
the list. -/
theorem Outcomes.fold {P : Texts → List Report → Texts → Prop}
    (h : plan.Outcomes Q k symbols N reports N') (hrefl : ∀ N, P N [] N)
    (htrans : ∀ {N reports N₁ reports' N₂}, P N reports N₁ → P N₁ reports' N₂ →
      P N (reports ++ reports') N₂)
    (hstep : ∀ s ∈ symbols, ∀ N reports N', plan.Outcome Q k s N reports N' → P N reports N') :
    P N reports N' := by
  induction h with
  | nil => exact hrefl _
  | cons first _ ih =>
    exact htrans (hstep _ mem_cons_self _ _ _ first)
      (ih fun s hs => hstep s (mem_cons_of_mem _ hs))

/-- A property of references, from texts to texts with the reports on the way, that holds of all
references of a run if it holds of each kind. -/
structure Tallies (plan : Plan) (Q : Texts → List Report → Texts → Prop) : Prop where
  refl : ∀ N, Q N [] N
  trans : ∀ {N reports N₁ reports' N₂}, Q N reports N₁ → Q N₁ reports' N₂ →
    Q N (reports ++ reports') N₂
  /-- A type of a missing package has a replacement. -/
  replaced : ∀ {N path name k} {text : Text}, plan.names.names.get? path = some k →
    plan.program.packages.get? path = none → N.has k name = false →
    (plan.override? (plan.overrideName ⟨some path, name⟩)).isSome →
    Q N [] (N.set k name text)
  /-- A type of a missing package has none. -/
  degraded : ∀ {N path name k}, plan.names.names.get? path = some k →
    plan.program.packages.get? path = none → N.has k name = false →
    plan.override? (plan.overrideName ⟨some path, name⟩) = none →
    Q N [.degraded path name] (N.set k name ("export type " ++ name ++ " = " ++
      plan.options.fallback ++ " /* unresolved: " ++ path ++ " */"))
  /-- A type is defined along with its constants. -/
  included : ∀ {N reports N' path k package} {t : Symbol},
    plan.names.names.get? path = some k → plan.program.packages.get? path = some package →
    t ∈ package.writable → t.isType = true → N.has k t.name = false →
    plan.Outcomes Q k (package.writable.filter (Emitting.comesWith plan ⟨some path, t.name⟩)) N
      reports N' → Q N reports N'

theorem Tallies.trivial : plan.Tallies fun _ _ _ => True :=
  ⟨fun _ => .intro, fun _ _ => .intro, fun _ _ _ _ => .intro, fun _ _ _ _ => .intro,
    fun _ _ _ _ _ _ => .intro⟩

end Plan

namespace Emitting

/-- What is reported on the way from the state `e`, and that `Q` holds of it. -/
def Tallied (plan : Plan) (Q : Texts → List Report → Texts → Prop) (e e' : Emission) : Prop :=
  ∃ reports, plan.Adds e reports e' ∧ Q e.written reports e'.written

/-- What is reported while a place is defined. -/
def TalliesPlaces (plan : Plan) (Q : Texts → List Report → Texts → Prop)
    (define : Symbol → String → Emitting Unit) : Prop :=
  ∀ ⦃s k e⦄, plan.Place k s → e.Sound plan → (e.module? k).isSome →
    Triple (· = e) (define s k)
      (fun _ e' => (e'.Sound plan ∧ e.Grows e') ∧ Tallied plan (plan.Outcome Q k s) e e')
      (fun _ _ => True)

theorem Tallied.refl (h : plan.Tallies Q) (e : Emission) : Tallied plan Q e e :=
  ⟨[], .of_eq rfl, h.refl _⟩

theorem Tallied.trans (h : plan.Tallies Q) {e e' e'' : Emission} (hfirst : Tallied plan Q e e')
    (hsecond : Tallied plan Q e' e'') : Tallied plan Q e e'' := by
  obtain ⟨reports, hadds, hQ⟩ := hfirst
  obtain ⟨reports', hadds', hQ'⟩ := hsecond
  exact ⟨reports ++ reports', hadds.trans hadds', h.trans hQ hQ'⟩

theorem Tallied.congr {e e' e₁ e₂ : Emission} (h : Tallied plan Q e e')
    (htext : e₁.written = e.written) (hadds : e₁.diagnostics = e.diagnostics)
    (htext' : e₂.written = e'.written) (hadds' : e₂.diagnostics = e'.diagnostics) :
    Tallied plan Q e₁ e₂ := by
  obtain ⟨reports, hreports, hQ⟩ := h
  exact ⟨reports, hreports.congr hadds hadds', by rwa [htext, htext']⟩

/-! ## References -/

section References

variable {define : Symbol → String → Emitting Unit} {name owner : String}

/-- A type of a missing package is replaced, or reported. -/
theorem defineUnknown_tallies (h : plan.Tallies Q) {why : LoadError}
    (howner : plan.names.names.get? path = some owner)
    (hmissing : plan.program.package path = .error why) (h₀ : e₀.Sound plan)
    (hk : (e₀.module? owner).isSome) (hfree : e₀.taken owner name = false) :
    Triple (· = e₀) (defineUnknown plan ⟨some path, name⟩ path owner (some why))
      (fun _ e => Tallied plan Q e₀ e) (fun _ _ => True) := by
  have hpackage := package_eq_error hmissing
  have hset : ∀ text : Text, Triple (· = e₀) (setDefinition owner name text)
      (fun _ e => e = e₀.update owner (·.withText name text)) (fun _ _ => True) := fun text =>
    (setDefinition_spec h₀ hk (.inl hfree) fun _ => True).post
      (fun _ _ h => h.2)
  rw [← has_written] at hfree
  rw [defineUnknown]
  split
  · rename_i text hoverride
    refine (hset _).post ?_
    rintro _ e rfl
    refine ⟨[], .of_eq rfl, ?_⟩
    rw [written_withText hk]
    exact h.replaced howner hpackage hfree (by rw [hoverride, Option.isSome_some])
  · rename_i hoverride
    refine .bind (hset _) fun _ => ?_
    refine .result_bind (fun reason hreason => ?_) fun _ _ _ _ => trivial
    have hreason : Text.firstLine? why.text = some reason := by
      rw [unknownReason] at hreason
      split at hreason
      · cases hreason
        assumption
      · cases hreason
    refine .update ?_
    rintro _ rfl
    refine ⟨[.degraded path name], .single (.degraded hmissing hreason) rfl, ?_⟩
    have htext := h.degraded howner hpackage hfree hoverride
    rw [← written_withText hk] at htext
    exact htext

theorem forM_tallies (hdefine : TalliesPlaces plan Q define)
    (hplace : ∀ s ∈ symbols, plan.Place owner s) (h₀ : e₀.Sound plan)
    (hk : (e₀.module? owner).isSome) : Triple (· = e₀) (symbols.forM (define · owner))
      (fun _ e => Tallied plan (plan.Outcomes Q owner symbols) e₀ e) (fun _ _ => True) := by
  induction symbols generalizing e₀ with
  | nil =>
    refine .pure ?_
    rintro _ rfl
    exact ⟨[], .of_eq rfl, .nil⟩
  | cons s symbols ih =>
    show Triple (· = e₀) (define s owner >>= fun _ => symbols.forM (define · owner)) _ _
    refine .bind (hdefine (hplace s mem_cons_self) h₀ hk) fun _ =>
      Triple.assume fun e₁ h₁ => ?_
    obtain ⟨⟨hsound₁, hgrows₁⟩, reports, hadds, houtcome⟩ := h₁
    refine (ih (fun s hs => hplace s (mem_cons_of_mem _ hs)) hsound₁
      (hgrows₁.toExtends.module? hk)).post ?_
    rintro _ e₂ ⟨reports', hadds', houtcomes⟩
    exact ⟨reports ++ reports', hadds.trans hadds', .cons houtcome houtcomes⟩

section

variable (h : plan.Tallies Q) (hsound : plan.program.Sound) (htype : plan.program.TypeAt path name)
  (hdefine : TalliesPlaces plan Q define)

include h hsound htype hdefine

/-- A reference to a type that is not defined yet defines it. -/
theorem ensureType_tallies (howner : plan.names.names.get? path = some owner) (h₀ : e₀.Sound plan)
    (hk : (e₀.module? owner).isSome) :
    Triple (· = e₀) (ensureType plan define path name owner) (fun _ e => Tallied plan Q e₀ e)
      (fun _ _ => True) := by
  rw [ensureType]
  refine .bind isTaken_spec fun taken => .assume fun e h' => ?_
  obtain ⟨rfl, htaken⟩ := h'
  cases taken with
  | true => exact .pure fun _ heq => heq ▸ .refl h _
  | false =>
    simp only [Bool.not_false, if_true, includeType]
    split
    · rename_i why hwhy
      exact defineUnknown_tallies h howner hwhy h₀ hk htaken
    · rename_i package hpackage
      have hpackage := package_eq_ok hpackage
      obtain ⟨t, info, ht, hbody⟩ := htype package hpackage
      obtain rfl : t.name = name := ((hsound path package hpackage).symbol name t ht).1
      have hisType : t.isType = true := by rw [Symbol.isType, hbody]
      have hwritable : t ∈ package.writable := mem_filter.2
        ⟨mem_mergeSort.2 (Table.mem_values_of_get? ht), by rw [Symbol.isWritable, hbody]⟩
      refine .bind (forM_tallies hdefine (fun s hs => ?_) h₀ hk) fun _ => ?_
      · exact ⟨path, package, howner, hpackage, (mem_filter.1 hs).1⟩
      refine .bind isTaken_spec fun taken => .assume fun e' h' => ?_
      obtain ⟨⟨reports, hadds, houtcomes⟩, htaken'⟩ := h'
      -- the type is among the symbols that were defined
      have hcomes : comesWith plan ⟨some path, t.name⟩ t = true := by simp [comesWith]
      have hdefined := houtcomes.has (mem_filter.2 ⟨hwritable, hcomes⟩)
        (Symbol.isDefinable_of_isType hisType)
      rw [has_written, htaken'] at hdefined
      subst hdefined
      refine .pure ?_
      rintro _ rfl
      refine ⟨reports, hadds, h.included howner hpackage hwritable hisType ?_ houtcomes⟩
      rw [has_written, htaken]

theorem refer_tallies {module definition : String} (h₀ : e₀.Sound plan) :
    Triple (· = e₀) (refer plan define module definition path name)
      (fun _ e => Tallied plan Q e₀ e) (fun _ _ => True) := by
  refine .bind (moduleFor_spec h₀ (.inr trivial)) fun owner => .assume fun e₁ h₁ => ?_
  obtain ⟨hsound₁, -, howner, hmodule₁, rfl⟩ := h₁
  set e₁ : Emission := { e₀ with graph := e₀.graph.withModule owner path } with he₁
  obtain ⟨hsound₂, hgrows₂⟩ := addImport_spec (k := module) hsound₁ hmodule₁
  set e₂ := e₁.update module (·.addImport owner) with he₂
  refine .update_bind (.bind (ensureType_tallies h hsound htype hdefine howner hsound₂
    (hgrows₂.toExtends.module? hmodule₁)) fun _ => ?_)
  have htext : e₀.written = e₂.written :=
    ((sameTexts_withModule e₀ owner path).trans
      (sameTexts_addImport e₁ module owner)).written_eq.symm
  refine .bind (Q := fun _ e => Tallied plan Q e₀ e) (.update fun e he => ?_)
    fun _ => .pure fun _ he => he
  exact he.congr htext rfl rfl rfl

end

end References

/-! ## Definitions -/

/-- Where there is no text, that is reported; where there is one, the symbol has a definition. -/
theorem symbolText_reports {render : Ty → Emitting Text} {package : Package}
    (hpackage : plan.program.packages.get? path = some package) (hs : s ∈ package.writable) :
    Triple (· = e₀) (symbolText plan render s)
      (fun text e => text.elim (s.isDropped = true ∧ plan.Adds e₀ [.dropped path s.name] e)
        fun _ => s.isDefinable = true) (fun _ _ => True) := by
  have hwritable : s.isWritable = true := (mem_filter.1 hs).2
  rw [symbolText]
  rw [Symbol.isWritable] at hwritable
  cases hbody : s.body with
  | type info =>
    refine .bind ((Gives.unconditional _).pre fun _ _ => trivial) fun _ => .pure fun _ _ => ?_
    exact Symbol.isDefinable_of_isType (by rw [Symbol.isType, hbody])
  | const value type =>
    rw [hbody] at hwritable
    cases value with
    | none => cases hwritable
    | some value =>
      refine .result_bind (fun literal hliteral => ?_) fun _ _ _ _ => trivial
      cases literal with
      | none =>
        refine .result_bind (fun cited hcited => ?_) fun _ _ _ _ => trivial
        refine .bind (Q := fun _ e => plan.Adds e₀ [.dropped path s.name] e)
          (.update ?_) fun _ => .pure fun e he => ⟨?_, he⟩
        · rintro _ rfl
          exact .single (.dropped hpackage hs hbody hliteral hcited) rfl
        · simp only [Symbol.isDropped, hbody, hliteral, Option.isNone_none]
      | some literal =>
        have hdefinable := Symbol.isDefinable_of_const hbody hliteral
        dsimp only
        split
        · exact .bind ((Gives.unconditional _).pre fun _ _ => trivial) fun _ =>
            .pure fun _ _ => hdefinable
        · exact .pure fun _ _ => hdefinable

/-- What holds of each kind of reference holds of the references of every definition. -/
theorem define_tallies (h : plan.Tallies Q) (hsound : plan.program.Sound)
    (hrefers : plan.program.RefersToTypes) (limit count : Nat) :
    TalliesPlaces plan Q (define plan limit count) := by
  induction count with
  | zero => exact fun _ _ _ _ _ _ => .throw fun _ _ => trivial
  | succ count ih =>
    intro s k e hplace h₀ hk
    obtain ⟨path, package, hpath, hpackage, hs⟩ := id hplace
    have htext : (e.update k (·.withText s.name .empty)).written = e.written.set k s.name .empty :=
      written_withText hk
    refine define_steps (I := Tallied plan Q (e.update k (·.withText s.name .empty))) hplace h₀ hk
      (fun htaken => ⟨[], .of_eq rfl, .taken (has_written.trans htaken)⟩)
      (fun _ => .refl h _) (fun path name e' hcites hsound' _ htallied => ?_)
      (fun e' hfree _ hrun hagrees => ?_)
      fun text e' hfree hexplored hrun hsound' hgrows hk' _ htallied => ?_
    · -- what the definition refers to is a type
      exact (refer_tallies h hsound (hcites.typeAt hsound hrefers hplace) ih hsound').post
        (fun _ _ h' => htallied.trans h h')
    · have hreports := (symbolText_reports hpackage hs).ok rfl hrun
      refine ⟨[.dropped path s.name], hreports.2.congr rfl rfl, ?_⟩
      rw [hagrees.quiet.written_eq]
      exact .dropped hpath (has_written.trans hfree) hreports.1
    · obtain ⟨reports, hadds, hQ⟩ := htallied
      refine ⟨reports, hadds.congr rfl rfl, ?_⟩
      rw [written_withText hk']
      rw [htext] at hQ
      refine .made (has_written.trans hfree)
        ((symbolText_reports hpackage hs).ok rfl hrun) hQ (htext ▸ hgrows.toExtends.within) ?_
      rintro path' name k' ⟨t, ht, hmentions⟩ hk'
      -- what was cited is a reference, and references are settled
      obtain ⟨r, hr, rfl, rfl⟩ := (hexplored t ht).2 path' name hmentions
      obtain ⟨owner, target, -, howner, htarget, hname, -⟩ := hsound'.references r hr
      cases howner.symm.trans hk'
      rw [has_written]
      exact (Option.any_eq_true _ _).2 ⟨target, htarget, hname⟩

end Emitting

/-! ## Walks -/

namespace Emitting

variable {limit count : Nat} {requested : List (Selection × Package)}

/-- A walk gives the reports that its turns give. -/
theorem defineRequested_tallies (h : plan.Tallies Q) (hsound : plan.program.Sound)
    (hrefers : plan.program.RefersToTypes)
    (hrequested : ∀ r ∈ requested, plan.program.packages.get? r.2.path = some r.2)
    {I : List (String × Symbol) → List Report → Texts → Prop}
    (hturn : ∀ visits reports path package k s e reports' e',
      plan.Comes limit count requested e₀ k s e →
      (define plan limit count s k).run.run e = (.ok (), e') →
      plan.names.names.get? path = some k → plan.program.packages.get? path = some package →
      s ∈ package.writable → plan.Outcome Q k s e.written reports' e'.written →
      I visits reports e.written → I (visits ++ [(path, s)]) (reports ++ reports') e'.written)
    (h₀ : e₀.Sound plan) (hinv : I [] [] e₀.written) :
    Triple (· = e₀) (defineRequested plan limit count requested)
      (fun _ e => e.Sound plan ∧ Tallied plan (fun _ => I (plan.visits requested)) e₀ e)
      (fun _ _ => True) := by
  refine (defineRequested_turns (I := fun visits => Tallied plan (fun _ => I visits) e₀) hrequested
    (fun visits e e' k path _ heq he => ?_)
    (fun visits path package k s e hcomes hk hpackage hs hsound' hmodule he => ?_) h₀
    ⟨[], .of_eq rfl, hinv⟩).post (fun _ e he => ⟨he.1.1, he.2⟩)
  · obtain ⟨reports, hadds, hI⟩ := he
    refine ⟨reports, hadds.congr rfl (heq ▸ rfl), ?_⟩
    rw [heq, (sameTexts_withModule _ _ _).written_eq]
    exact hI
  · obtain ⟨reports, hadds, hI⟩ := he
    refine ((define_tallies h hsound hrefers limit count ⟨path, package, hk, hpackage, hs⟩ hsound'
      hmodule).and Triple.of_run).post (fun _ e' he' => ?_)
    obtain ⟨⟨hstate, reports', hadds', houtcome⟩, hdefine⟩ := he'
    exact ⟨hstate, reports ++ reports', hadds.trans hadds', hturn visits reports path package k s e
      reports' e' hcomes hdefine hk hpackage hs houtcome hI⟩

end Emitting

end DeclBridge
