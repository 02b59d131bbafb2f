import DeclBridge.Proofs.ReportLaws

/-!
# How often a run reports

A type of a missing package is reported once.  A constant without a literal is reported each time a
selection includes it, and each time its type is defined along with its constants; the latter happens
when the type is defined by a reference, and then once more for each constant that waits for the type
meanwhile.  `Program.emit_reports` counts the reports of a run.

Whether a type is defined by a reference depends on where the walk is when the type is defined.  The
turns of a walk are in order (`Emitting.comes_order`), so there is one turn in which this happens, its
opening.
-/

namespace DeclBridge

open Emission Emitting List

variable {plan : Plan} {e e₁ e₁' e₂ : Emission} {path k name k₁ : String} {z : Number.ComplexDouble}
  {request : Selection × Package} {s : Symbol} {package : Package} {p : Program}
  {reports : List Report} {requested : List (Selection × Package)}

/-! ## The order of a walk -/

theorem append_cons_cases {α : Type} {l₁ l₂ m₁ m₂ : List α} {a b : α}
    (h : l₁ ++ a :: l₂ = m₁ ++ b :: m₂) :
    (l₁ = m₁ ∧ a = b ∧ l₂ = m₂) ∨ (∃ l, m₁ = l₁ ++ a :: l) ∨ ∃ l, l₁ = m₁ ++ b :: l := by
  rcases append_eq_append_iff.1 h with ⟨_ | ⟨x, l⟩, rfl, hl⟩ | ⟨_ | ⟨x, l⟩, rfl, hl⟩ <;>
    obtain ⟨rfl, rfl⟩ := cons.inj hl
  · exact .inl ⟨(append_nil _).symm, rfl, rfl⟩
  · exact .inr (.inl ⟨l, rfl⟩)
  · exact .inl ⟨append_nil _, rfl, rfl⟩
  · exact .inr (.inr ⟨l, rfl⟩)

namespace Emitting

variable {limit count : Nat} {e₀ e e' : Emission} {k k' : String} {s' : Symbol}

theorem define_grows (hplace : plan.Place k s) (hsound : e.Sound plan) (hk : (e.module? k).isSome) :
    Triple (· = e) (define plan limit count s k) (fun _ e' => e'.Sound plan ∧ e.Grows e')
      (fun _ _ => True) :=
  define_spec (F := fun _ => True) (fun _ _ => trivial) (fun _ h => Program.admits_of_mem plan h)
    (.inr trivial) (mem_symbols_of_place hplace) hsound hk (.inl trivial)

theorem forM_grows {symbols : List Symbol} (hplace : ∀ s ∈ symbols, plan.Place k s)
    (hsound : e.Sound plan) (hk : (e.module? k).isSome)
    (hmade : (symbols.forM (define plan limit count · k)).run.run e = (.ok (), e')) :
    e'.Sound plan ∧ e.Grows e' := by
  refine (Triple.forM (I := fun e' => e'.Sound plan ∧ e.Grows e') (F := fun _ _ => True)
    fun s hs => Triple.assume fun e₁ h₁ => ?_).ok ⟨hsound, .refl _⟩ hmade
  exact (define_grows (hplace s hs) h₁.1 (h₁.2.toExtends.module? hk)).post
    (fun _ _ h => ⟨h.1, h₁.2.trans h.2⟩)

theorem requests_of_get? (h : plan.program.packages.get? request.2.path = some request.2) :
    Requests plan (fun _ => True) (· ∈ plan.program.symbols) request.1 request.2 :=
  ⟨.inr trivial, fun _ hs _ => mem_flatMap.2
    ⟨_, Table.mem_values_of_get? h, mem_values_of_writable hs⟩⟩

/-- A turn of a walk precedes a state: what its definition has made is there. -/
def Precedes (plan : Plan) (limit count : Nat) (k : String) (s : Symbol) (e e' : Emission) : Prop :=
  ∃ e₁, (define plan limit count s k).run.run e = (.ok (), e₁) ∧ e₁.written.Within e'.written

/-- The turn of a walk in which it comes to a symbol: what was done before the package of the symbol,
and what was done for the package before the symbol. -/
structure Turn (plan : Plan) (limit count : Nat) (requested : List (Selection × Package))
    (e₀ : Emission) (before : List (Selection × Package)) (request : Selection × Package)
    (passed : List Symbol) (k : String) (s : Symbol) (e₁ e₂ e : Emission) : Prop where
  divides : ∃ after, requested = before ++ request :: after
  selects : ∃ left, request.2.writable.filter
    (request.1.includes plan.options.includeUnexported) = passed ++ s :: left
  start : (defineRequested plan limit count before).run.run e₀ = (.ok (), e₁)
  enter : (moduleFor plan request.2.path).run.run e₁ = (.ok k, e₂)
  pass : (passed.forM (define plan limit count · k)).run.run e₂ = (.ok (), e)

theorem exists_turn (h : plan.Comes limit count requested e₀ k s e) : ∃ before request passed e₁ e₂,
      Turn plan limit count requested e₀ before request passed k s e₁ e₂ e := by
  obtain ⟨before, request, after, passed, left, e₁, e₂, heq, hfilter, hbefore, hmodule, hpassed⟩ := h
  exact ⟨before, request, passed, e₁, e₂, ⟨after, heq⟩, ⟨left, hfilter⟩, hbefore, hmodule, hpassed⟩

section Order

variable {before before' : List (Selection × Package)} {request' : Selection × Package}
  {passed passed' : List Symbol} {e₂' : Emission}
  (hrequested : ∀ r ∈ requested, plan.program.packages.get? r.2.path = some r.2)
  (h₀ : e₀.Sound plan)

include hrequested h₀

/-- A walk comes to places, in sound states in which their modules are there, and in which is what
was made before. -/
theorem Turn.spec (h : Turn plan limit count requested e₀ before request passed k s e₁ e₂ e) :
    (e.Sound plan ∧ e₁.Grows e) ∧ (e.module? k).isSome ∧ ∀ s' ∈ s :: passed, plan.Place k s' := by
  obtain ⟨after, hdivides⟩ := h.divides
  obtain ⟨left, hselects⟩ := h.selects
  obtain ⟨hsound₁, -⟩ := (defineRequested_spec (F := fun _ => True) (fun _ _ => trivial)
    (fun _ h => Program.admits_of_mem plan h) (.inr trivial) (.inr trivial) (.inr trivial)
    (fun r hr => requests_of_get? (hrequested r (hdivides ▸ mem_append_left _ hr))) h₀).ok rfl
    h.start
  obtain ⟨hsound₂, hgrows₂, hk, hmodule₂, -⟩ :=
    (moduleFor_spec (F := fun _ => True) hsound₁ (.inr trivial)).ok rfl h.enter
  have hplace : ∀ s' ∈ s :: passed, plan.Place k s' := by
    intro s' hs'
    have hs' : s' ∈ passed ++ s :: left := by
      rcases mem_cons.1 hs' with rfl | hs'
      · exact mem_append_cons_self
      · exact mem_append_left _ hs'
    rw [← hselects] at hs'
    exact ⟨_, _, hk, hrequested request (hdivides ▸ mem_append_cons_self),
      mem_of_mem_filter hs'⟩
  obtain ⟨hsound, hgrows⟩ := forM_grows (fun s hs => hplace s (mem_cons_of_mem _ hs)) hsound₂
    hmodule₂ h.pass
  exact ⟨⟨hsound, hgrows₂.trans hgrows⟩, hgrows.toExtends.module? hmodule₂, hplace⟩

theorem comes_spec (h : plan.Comes limit count requested e₀ k s e) :
    e.Sound plan ∧ (e.module? k).isSome ∧ plan.Place k s := by
  obtain ⟨before, request, passed, e₁, e₂, hturn⟩ := exists_turn h
  obtain ⟨⟨hsound, -⟩, hk, hplace⟩ := hturn.spec hrequested h₀
  exact ⟨hsound, hk, hplace s mem_cons_self⟩

theorem precedes_of_comes (h : plan.Comes limit count requested e₀ k s e)
    (hmade : (defineRequested plan limit count requested).run.run e₀ = (.ok (), e')) :
    Precedes plan limit count k s e e' := by
  obtain ⟨hsound, hk, hplace⟩ := comes_spec hrequested h₀ h
  obtain ⟨request, left, after, e₁, e₂, hrequest, hafter, hleft, hname, hdefine, hrest, hrests⟩ :=
    exists_rest_of_comes h hmade
  obtain ⟨hsound₁, hgrows₁⟩ := (define_grows hplace hsound hk).ok rfl hdefine
  obtain ⟨hsound₂, hgrows₂⟩ := forM_grows (fun s hs => ⟨_, _, hname, hrequested request hrequest,
    mem_of_mem_filter (hleft hs)⟩) hsound₁ (hgrows₁.toExtends.module? hk) hrest
  have hgrows₃ := (Triple.forM (I := fun e => e.Sound plan ∧ e₂.Grows e)
    fun r hr => definePackage_keeps (fun _ _ => trivial)
      (fun _ h => Program.admits_of_mem plan h) (.inr trivial) (.inr trivial)
      (requests_of_get? (hrequested r (hafter hr)))).ok ⟨hsound₂, .refl _⟩ hrests
  exact ⟨e₁, hdefine, (hgrows₂.trans hgrows₃.2).toExtends.within⟩

theorem Turn.precedes_of_package
    (h : Turn plan limit count requested e₀ before request passed k s e₁ e₂ e)
    (h' : Turn plan limit count requested e₀ before' request' passed' k' s' e₁' e₂' e')
    (hbefore : ∃ after, before' = before ++ request :: after) :
    Precedes plan limit count k s e e' := by
  obtain ⟨after, rfl⟩ := hbefore
  obtain ⟨after', hdivides⟩ := h'.divides
  obtain ⟨left, hselects⟩ := h.selects
  obtain ⟨e₃, hdefine, hwithin⟩ := precedes_of_comes
    (fun r hr => hrequested r (hdivides ▸ mem_append_left _ hr)) h₀
    ⟨before, request, after, passed, left, e₁, e₂, rfl, hselects, h.start, h.enter, h.pass⟩ h'.start
  exact ⟨e₃, hdefine, hwithin.trans (h'.spec hrequested h₀).1.2.toExtends.within⟩

theorem Turn.precedes_of_symbol
    (h : Turn plan limit count requested e₀ before request passed k s e₁ e₂ e)
    (h' : Turn plan limit count requested e₀ before request passed' k s' e₁ e₂ e')
    (hpassed : ∃ left, passed' = passed ++ s :: left) : Precedes plan limit count k s e e' := by
  obtain ⟨left, rfl⟩ := hpassed
  obtain ⟨e₃, hpass, hrest⟩ := Computation.forM_append_eq_ok h'.pass
  cases h.pass.symm.trans hpass
  obtain ⟨_, e₄, hdefine, hleft⟩ := Computation.bind_eq_ok hrest
  obtain ⟨⟨hsound, -⟩, hk, hplace⟩ := h.spec hrequested h₀
  obtain ⟨hsound₄, hgrows₄⟩ :=
    (define_grows (hplace s mem_cons_self) hsound hk).ok rfl hdefine
  have hplace' := (h'.spec hrequested h₀).2.2
  have hgrows := (forM_grows (fun s hs => hplace' s (mem_cons_of_mem _
    (mem_append_right _ (mem_cons_of_mem _ hs)))) hsound₄ (hgrows₄.toExtends.module? hk)
    hleft).2
  exact ⟨e₄, hdefine, hgrows.toExtends.within⟩

/-- Of two turns of a walk one precedes the other, or they are the same. -/
theorem comes_order (h : plan.Comes limit count requested e₀ k s e)
    (h' : plan.Comes limit count requested e₀ k' s' e') :
    (k = k' ∧ s = s' ∧ e = e') ∨ Precedes plan limit count k s e e' ∨
      Precedes plan limit count k' s' e' e := by
  obtain ⟨before, request, passed, e₁, e₂, hturn⟩ := exists_turn h
  obtain ⟨before', request', passed', e₁', e₂', hturn'⟩ := exists_turn h'
  obtain ⟨after, hdivides⟩ := hturn.divides
  obtain ⟨after', hdivides'⟩ := hturn'.divides
  rcases append_cons_cases (hdivides.symm.trans hdivides') with ⟨rfl, rfl, -⟩ | hlater | hearlier
  · cases hturn.start.symm.trans hturn'.start
    cases hturn.enter.symm.trans hturn'.enter
    obtain ⟨left, hselects⟩ := hturn.selects
    obtain ⟨left', hselects'⟩ := hturn'.selects
    rcases append_cons_cases (hselects.symm.trans hselects') with ⟨rfl, rfl, -⟩ | hlater | hearlier
    · cases hturn.pass.symm.trans hturn'.pass
      exact .inl ⟨rfl, rfl, rfl⟩
    · exact .inr (.inl (hturn.precedes_of_symbol hrequested h₀ hturn' hlater))
    · exact .inr (.inr (hturn'.precedes_of_symbol hrequested h₀ hturn hearlier))
  · exact .inr (.inl (hturn.precedes_of_package hrequested h₀ hturn' hlater))
  · exact .inr (.inr (hturn'.precedes_of_package hrequested h₀ hturn hearlier))

end Order

/-! ## Openings -/

/-- A name of the module `k` is taken in the turn of a walk for a symbol that was not defined. -/
structure Opens (plan : Plan) (limit count : Nat) (requested : List (Selection × Package))
    (e₀ : Emission) (k name : String) (k₁ : String) (s : Symbol) (e e' : Emission) : Prop where
  comes : plan.Comes limit count requested e₀ k₁ s e
  defines : (define plan limit count s k₁).run.run e = (.ok (), e')
  fresh : e.taken k₁ s.name = false
  free : e.taken k name = false
  taken : e'.taken k name = true

theorem Precedes.taken (h : Precedes plan limit count k s e e')
    (hdefines : (define plan limit count s k).run.run e = (.ok (), e₁)) {k₂ : String}
    (htaken : e₁.taken k₂ name = true) : e'.taken k₂ name = true := by
  obtain ⟨e₂, hdefines', hwithin⟩ := h
  cases hdefines.symm.trans hdefines'
  rw [← has_written] at htaken ⊢
  exact hwithin _ _ htaken

/-- A name is taken in one turn only. -/
theorem Opens.unique (hrequested : ∀ r ∈ requested, plan.program.packages.get? r.2.path = some r.2)
    (h₀ : e₀.Sound plan) {k₂ : String} {e₂' : Emission} {s₁ s₂ : Symbol}
    (h : Opens plan limit count requested e₀ k name k₁ s₁ e₁ e₁')
    (h' : Opens plan limit count requested e₀ k name k₂ s₂ e₂ e₂') : k₁ = k₂ ∧ s₁ = s₂ := by
  rcases comes_order hrequested h₀ h.comes h'.comes with ⟨hk, hs, -⟩ | hprecedes | hprecedes
  · exact ⟨hk, hs⟩
  · have htaken := hprecedes.taken h.defines h.taken
    cases h'.free.symm.trans htaken
  · have htaken := hprecedes.taken h'.defines h'.taken
    cases h.free.symm.trans htaken

end Emitting

namespace Plan

variable {limit count : Nat} {e₀ e e' : Emission} {path' k k' : String} {t c : Symbol}
  {visits : List (String × Symbol)} {reports' : List Report} {N : Texts}

/-- How often a walk comes to a symbol of a package. -/
def tries (visits : List (String × Symbol)) (path name : String) : Nat :=
  visits.countP fun v => v.1 = path ∧ v.2.name = name

/-- What a constant without a literal costs when its type is defined in the turn of a symbol. -/
def price (plan : Plan) (path k name : String) (package : Package) (k' : String) (s : Symbol) :
    Nat :=
  if k' = k ∧ s.name = name then 0
  else (plan.early path name package).countP (fun a => ¬ (k' = k ∧ s.name = a.name)) + 1

/-- The reports of a constant at a point of a walk: one for each try, and the price of its type once
the type is defined. -/
structure Counted (plan : Plan) (limit count : Nat) (requested : List (Selection × Package))
    (e₀ : Emission) (path k : String) (package : Package) (t c : Symbol)
    (visits : List (String × Symbol)) (reports : List Report) (N : Texts) : Prop where
  free : N.has k c.name = false
  before : N.has k t.name = false →
    reports.count (.dropped path c.name) = tries visits path c.name ∧
    ∀ a ∈ plan.early path t.name package, N.has k a.name = false
  after : N.has k t.name = true → ∃ k' s e e',
    Emitting.Opens plan limit count requested e₀ k t.name k' s e e' ∧
    reports.count (.dropped path c.name) =
      tries visits path c.name + plan.price path k t.name package k' s ∧
    (¬ (k' = k ∧ s.name = t.name) → ∀ a ∈ plan.early path t.name package,
      e'.taken k a.name = true)

theorem tries_append (visits : List (String × Symbol)) (path path' name : String) (s : Symbol) :
    tries (visits ++ [(path', s)]) path name =
      tries visits path name + if path' = path ∧ s.name = name then 1 else 0 := by
  rw [tries, tries, countP_append, countP_singleton]
  simp only [decide_eq_true_eq]

theorem tries_turn (hinj : NameTable.Injective plan.names.names)
    (hk : plan.names.names.get? path = some k) (hk' : plan.names.names.get? path' = some k')
    (name : String) : tries (visits ++ [(path', s)]) path name =
      tries visits path name + if k' = k ∧ s.name = name then 1 else 0 := by
  have hiff : path' = path ↔ k' = k :=
    ⟨fun heq => Option.some.inj (hk'.symm.trans (heq ▸ hk)), fun heq => hinj hk' (heq ▸ hk)⟩
  rw [tries_append]
  simp only [hiff]

namespace Bound

theorem outcome_const (h : plan.Bound path k package t c) {N' : Texts}
    {Q : Texts → List Report → Texts → Prop} (houtcome : plan.Outcome Q k c N reports N')
    (hfree : N.has k c.name = false) : reports = [.dropped path c.name] ∧ N' = N := by
  cases houtcome with
  | taken htaken =>
    cases hfree.symm.trans htaken
  | dropped hpath _ _ => exact ⟨by rw [h.names hpath h.module], rfl⟩
  | made _ hdefinable _ _ _ =>
    exact absurd ⟨rfl, rfl⟩
      (h.ne_of_isDefinable ⟨_, _, h.module, h.loaded, h.const⟩ hdefinable)

section Turns

variable (h : plan.Bound path k package t c)
  (hcomes : plan.Comes limit count requested e₀ k' s e)
  (hdefines : (define plan limit count s k').run.run e = (.ok (), e'))
  (hk' : plan.names.names.get? path' = some k') (hplace : plan.Place k' s)
  (houtcome : plan.Outcome (Law plan path k package t c) k' s e.written reports' e'.written)
  (hcounted : plan.Counted limit count requested e₀ path k package t c visits reports e.written)

include h hk' hplace houtcome hcounted

theorem counted_turn_after (ht : e.written.has k t.name = true) :
    plan.Counted limit count requested e₀ path k package t c (visits ++ [(path', s)])
      (reports ++ reports') e'.written := by
  obtain ⟨hreports, hfree'⟩ := h.outcome_after hplace houtcome hcounted.free ht
  refine ⟨hfree', fun ht' => ?_, fun _ => ?_⟩
  · rw [houtcome.within _ _ ht] at ht'
    cases ht'
  · obtain ⟨k₁, s₁, e₁, e₁', hopens, hcount, hearly⟩ := hcounted.after ht
    refine ⟨k₁, s₁, e₁, e₁', hopens, ?_, hearly⟩
    rw [count_append, hcount, hreports, tries_turn h.names h.module hk']
    omega

/-- The constant itself is tried, before its type is defined. -/
theorem counted_turn_const (ht : e.written.has k t.name = false) (hc : k' = k ∧ s.name = c.name) :
    plan.Counted limit count requested e₀ path k package t c (visits ++ [(path', s)])
      (reports ++ reports') e'.written := by
  obtain ⟨hcount, hearly⟩ := hcounted.before ht
  obtain ⟨rfl, hname⟩ := hc
  obtain rfl : s = c := eq_of_place h.names h.sound.keyed
    ⟨_, _, h.module, h.loaded, h.const⟩ hplace hname
  obtain ⟨rfl, hwritten⟩ := h.outcome_const houtcome hcounted.free
  rw [hwritten]
  refine ⟨hcounted.free, fun _ => ⟨?_, hearly⟩, fun ht' => ?_⟩
  · rw [count_append, hcount, tries_turn h.names h.module hk', if_pos ⟨rfl, rfl⟩,
      count_singleton_self]
  · cases ht.symm.trans ht'

include hcomes hdefines

/-- The walk comes to the type first. -/
theorem counted_turn_type (ht : e.written.has k t.name = false) (hname : k' = k ∧ s.name = t.name) :
    plan.Counted limit count requested e₀ path k package t c (visits ++ [(path', s)])
      (reports ++ reports') e'.written := by
  obtain ⟨rfl, hname⟩ := hname
  obtain rfl : s = t := eq_of_place h.names h.sound.keyed
    ⟨_, _, h.module, h.loaded, h.type⟩ hplace hname
  obtain ⟨hreports, hfree'⟩ := h.outcome_type houtcome hcounted.free
  have ht' := houtcome.has (Symbol.isDefinable_of_isType h.isType)
  have hfree : e.taken k' s.name = false := has_written.symm.trans ht
  refine ⟨hfree', fun ht'' => ?_, fun _ => ⟨k', s, e, e', ⟨hcomes, hdefines, hfree, hfree,
    has_written.symm.trans ht'⟩, ?_, fun hother => absurd ⟨rfl, rfl⟩ hother⟩⟩
  · cases ht'.symm.trans ht''
  · rw [count_append, (hcounted.before ht).1, tries_turn h.names h.module hk',
      if_neg fun hc => h.name_ne hc.2, count_eq_zero_of_not_mem hreports, price,
      if_pos ⟨rfl, rfl⟩]

/-- The walk comes to another symbol, whose definition may come to the type. -/
theorem counted_turn_other (ht : e.written.has k t.name = false)
    (hc : ¬ (k' = k ∧ s.name = c.name)) (hne : ¬ (k' = k ∧ s.name = t.name)) :
    plan.Counted limit count requested e₀ path k package t c (visits ++ [(path', s)])
      (reports ++ reports') e'.written := by
  obtain ⟨hcount, hearly⟩ := hcounted.before ht
  have htries : tries (visits ++ [(path', s)]) path c.name = tries visits path c.name := by
    rw [tries_turn h.names h.module hk', if_neg hc, Nat.add_zero]
  obtain ⟨hfree', ⟨ht', hreports, hsame⟩ | ⟨ht', hfresh, hreports, htaken⟩⟩ :=
    h.outcome_before hplace houtcome hcounted.free ht hc hne
  · refine ⟨hfree', fun _ => ⟨?_, fun a ha => (hsame a ha).trans (hearly a ha)⟩, fun ht'' => ?_⟩
    · rw [count_append, hcount, htries, count_eq_zero_of_not_mem hreports, Nat.add_zero]
    · cases ht'.symm.trans ht''
  · -- none of the constants before the type is defined, but for the symbol itself
    have hprice : plan.waiting path k t.name package (e.written.set k' s.name .empty) + 1 =
        plan.price path k t.name package k' s := by
      rw [price, if_neg hne, waiting]
      refine congrArg (· + 1) (countP_congr fun a ha => ?_)
      rw [Bool.not_eq_true', ← Bool.not_eq_true, Texts.has_set, hearly a ha, decide_eq_true_eq]
      simp only [Bool.false_eq_true, or_false]
    refine ⟨hfree', fun ht'' => ?_, fun _ => ⟨k', s, e, e', ⟨hcomes, hdefines,
      has_written.symm.trans hfresh, has_written.symm.trans ht,
      has_written.symm.trans ht'⟩, ?_, fun _ a ha =>
        has_written.symm.trans (htaken a ha)⟩⟩
    · cases ht'.symm.trans ht''
    · rw [count_append, hcount, htries, hreports, hprice]

theorem counted_turn : plan.Counted limit count requested e₀ path k package t c
    (visits ++ [(path', s)]) (reports ++ reports') e'.written := by
  cases ht : e.written.has k t.name with
  | true => exact h.counted_turn_after hk' hplace houtcome hcounted ht
  | false =>
    by_cases hc : k' = k ∧ s.name = c.name
    · exact h.counted_turn_const hk' hplace houtcome hcounted ht hc
    by_cases hne : k' = k ∧ s.name = t.name
    · exact h.counted_turn_type hcomes hdefines hk' hplace houtcome hcounted ht hne
    · exact h.counted_turn_other hcomes hdefines hk' hplace houtcome hcounted ht hc hne

end Turns

end Bound

/-! ## Meetings -/

/-- A walk comes to a symbol of the module `k` that is not defined. -/
def Meets (plan : Plan) (limit count : Nat) (requested : List (Selection × Package)) (e₀ : Emission)
    (k name : String) : Prop :=
  ∃ s e, s.name = name ∧ plan.Comes limit count requested e₀ k s e ∧ e.taken k name = false

section Meetings

variable {s₁ a : Symbol}
  (hrequested : ∀ r ∈ requested, plan.program.packages.get? r.2.path = some r.2)
  (h₀ : e₀.Sound plan) (hrefers : plan.program.RefersToTypes)
  (hmade : (defineRequested plan limit count requested).run.run e₀ = (.ok (), e₂))

include hrequested h₀ hrefers hmade

/-- What a walk comes to is defined in its turn, if it can be, and so is what it cites. -/
theorem exists_outcome_of_comes (hsound : plan.program.Sound)
    (hcomes : plan.Comes limit count requested e₀ k s e) : ∃ e' reports,
    (define plan limit count s k).run.run e = (.ok (), e') ∧
      plan.Outcome (fun _ _ _ => True) k s e.written reports e'.written := by
  obtain ⟨e', hdefines, -⟩ := precedes_of_comes hrequested h₀ hcomes hmade
  obtain ⟨he, hk, hplace⟩ := comes_spec hrequested h₀ hcomes
  obtain ⟨-, reports, -, houtcome⟩ :=
    (define_tallies .trivial hsound hrefers limit count hplace he hk).ok rfl hdefines
  exact ⟨e', reports, hdefines, houtcome⟩

namespace Bound

/-- The walk comes to the type first if the type is defined in its own turn. -/
theorem meets_type_iff (h : plan.Bound path k package t c)
    (hopens : Emitting.Opens plan limit count requested e₀ k t.name k₁ s₁ e₁ e₁') :
    plan.Meets limit count requested e₀ k t.name ↔ k₁ = k ∧ s₁.name = t.name := by
  constructor
  · rintro ⟨s, e, hname, hcomes, hfree⟩
    obtain ⟨-, -, hplace⟩ := comes_spec hrequested h₀ hcomes
    obtain rfl : s = t := eq_of_place h.names h.sound.keyed
      ⟨_, _, h.module, h.loaded, h.type⟩ hplace hname
    obtain ⟨e', reports, hdefines, houtcome⟩ :=
      exists_outcome_of_comes hrequested h₀ hrefers hmade h.sound hcomes
    have htaken := houtcome.has (Symbol.isDefinable_of_isType h.isType)
    rw [has_written] at htaken
    obtain ⟨hk, hs⟩ := hopens.unique hrequested h₀ ⟨hcomes, hdefines, hfree, hfree, htaken⟩
    exact ⟨hk, congrArg Symbol.name hs⟩
  · rintro ⟨rfl, hname⟩
    exact ⟨s₁, e₁, hname, hopens.comes, hopens.free⟩

/-- Where the type is defined in the turn of another symbol, the walk comes to a constant that stands
before the type if that is the turn of the constant. -/
theorem meets_early_iff (h : plan.Bound path k package t c)
    (hopens : Emitting.Opens plan limit count requested e₀ k t.name k₁ s₁ e₁ e₁')
    (hearly : ∀ a ∈ plan.early path t.name package, e₁'.taken k a.name = true)
    (ha : a ∈ plan.early path t.name package) :
    plan.Meets limit count requested e₀ k a.name ↔ k₁ = k ∧ s₁.name = a.name := by
  constructor
  · rintro ⟨s, e, hname, hcomes, hfree⟩
    rcases comes_order hrequested h₀ hopens.comes hcomes with
      ⟨hk, rfl, -⟩ | hprecedes | hprecedes
    · exact ⟨hk, hname⟩
    · rw [hprecedes.taken hopens.defines (hearly a ha)] at hfree
      cases hfree
    · -- the constant would have brought the type
      obtain ⟨-, -, hplace⟩ := comes_spec hrequested h₀ hcomes
      obtain rfl : s = a := eq_of_place h.names h.sound.keyed
        ⟨_, _, h.module, h.loaded, mem_writable_of_early ha⟩ hplace hname
      obtain ⟨e', reports, hdefines, houtcome⟩ :=
        exists_outcome_of_comes hrequested h₀ hrefers hmade h.sound hcomes
      have htaken : e'.written.has k t.name = true := by
        rw [← has_written] at hfree
        generalize e'.written = N' at houtcome
        cases houtcome with
        | taken htaken =>
          cases hfree.symm.trans htaken
        | dropped _ _ hdropped =>
          rw [Symbol.not_isDropped_of_isDefinable (mem_early.1 ha).2.2] at hdropped
          cases hdropped
        | made _ _ _ _ hcites =>
          exact Texts.Within.set _ _ _ _ _ _ (hcites _ _ _ (cites_of_early ha) h.module)
      rw [has_written] at htaken
      have hopened := hprecedes.taken hdefines htaken
      cases hopens.free.symm.trans hopened
  · rintro ⟨rfl, hname⟩
    exact ⟨s₁, e₁, hname, hopens.comes, hname ▸ hopens.fresh⟩

open Classical in
/-- What the reports of a constant come to at the end of a walk. -/
theorem count_of_counted (h : plan.Bound path k package t c)
    (hcounted : plan.Counted limit count requested e₀ path k package t c visits reports N) :
    reports.count (.dropped path c.name) = tries visits path c.name +
      if N.has k t.name = true ∧ ¬ plan.Meets limit count requested e₀ k t.name then
        (plan.early path t.name package).countP
          (fun a => ¬ plan.Meets limit count requested e₀ k a.name) + 1 else 0 := by
  cases ht : N.has k t.name with
  | false =>
    rw [(hcounted.before ht).1, if_neg fun hand => Bool.false_ne_true hand.1, Nat.add_zero]
  | true =>
    obtain ⟨k₁, s₁, e₁, e₁', hopens, hcount, hearly⟩ := hcounted.after ht
    rw [hcount, price]
    refine congrArg (tries visits path c.name + ·) ?_
    by_cases hmeets : k₁ = k ∧ s₁.name = t.name
    · rw [if_pos hmeets, if_neg fun hand =>
        hand.2 ((h.meets_type_iff hrequested h₀ hrefers hmade hopens).2 hmeets)]
    · rw [if_neg hmeets, if_pos ⟨rfl, fun hmet =>
        hmeets ((h.meets_type_iff hrequested h₀ hrefers hmade hopens).1 hmet)⟩]
      refine congrArg (· + 1) (countP_congr fun a ha => ?_)
      rw [decide_eq_true_eq, decide_eq_true_eq,
        h.meets_early_iff hrequested h₀ hrefers hmade hopens (hearly hmeets) ha]

end Bound

end Meetings

/-! ## Walks -/

/-- What the references of a run have by all laws. -/
def Lawful (plan : Plan) (N : Texts) (reports : List Report) (N' : Texts) : Prop :=
  ∀ Q, plan.Tallies Q → Q N reports N'

theorem tallies_lawful : plan.Tallies plan.Lawful where
  refl N _ h := h.refl N
  trans hfirst hsecond Q h := h.trans (hfirst Q h) (hsecond Q h)
  replaced hk hmissing hfree hoverride _ h := h.replaced hk hmissing hfree hoverride
  degraded hk hmissing hfree hoverride _ h := h.degraded hk hmissing hfree hoverride
  included hk hpackage ht htype hfree houtcomes Q h :=
    h.included hk hpackage ht htype hfree (houtcomes.mono fun _ _ _ hlawful => hlawful Q h)

/-- What is known of texts and reports at a point of a walk. -/
structure Ledger (plan : Plan) (limit count : Nat) (requested : List (Selection × Package))
    (e₀ : Emission) (visits : List (String × Symbol)) (reports : List Report) (N : Texts) : Prop where
  degraded : ∀ path name, reports.count (.degraded path name) = plan.fallbacks path name N
  falls : ∀ path name, plan.isUnknown path name = true → plan.Falls path name N
  homed : plan.Homed reports
  visited : ∀ v ∈ visits, ∃ k, plan.names.names.get? v.1 = some k
  tried : ∀ path k package c, plan.Unwritten path k package c →
    (∀ name, isCompanion plan ⟨some path, name⟩ c = false) →
    reports.count (.dropped path c.name) = tries visits path c.name ∧ N.has k c.name = false
  counted : ∀ path k package t c, plan.Bound path k package t c →
    plan.Counted limit count requested e₀ path k package t c visits reports N

theorem ledger_turn (hinj : NameTable.Injective plan.names.names)
    (hcomes : plan.Comes limit count requested e₀ k' s e)
    (hdefines : (define plan limit count s k').run.run e = (.ok (), e'))
    (hk' : plan.names.names.get? path' = some k')
    (hpackage : plan.program.packages.get? path' = some package) (hs : s ∈ package.writable)
    (houtcome : plan.Outcome plan.Lawful k' s e.written reports' e'.written)
    (h : plan.Ledger limit count requested e₀ visits reports e.written) :
    plan.Ledger limit count requested e₀ (visits ++ [(path', s)]) (reports ++ reports')
      e'.written where
  degraded path name := by
    have hcharges := Charges.of_outcome hinj hk' hpackage
      (houtcome.mono fun _ _ _ hlawful => hlawful _ (tallies_charges hinj path name))
    rw [Charges] at hcharges
    rw [count_append, h.degraded]
    omega
  falls path name hunknown :=
    .of_outcome hinj hunknown hk' hpackage
      (houtcome.mono fun _ _ _ hlawful => hlawful _ (tallies_falls hinj hunknown))
      (h.falls path name hunknown)
  homed := h.homed.append (.of_outcome (houtcome.mono fun _ _ _ hlawful => hlawful _ tallies_homed))
  visited v hv := by
    rcases mem_append.1 hv with hv | hv
    · exact h.visited v hv
    · rw [mem_singleton.1 hv]
      exact ⟨k', hk'⟩
  tried path k package' c hunwritten hlone := by
    obtain ⟨hcount, hfree⟩ := h.tried path k package' c hunwritten hlone
    obtain ⟨hreports, hfree'⟩ := hunwritten.outcome_spec ⟨_, _, hk', hpackage, hs⟩ houtcome hfree
      fun _ _ hlawful => hlawful _ (hunwritten.tallies_silent hlone)
    refine ⟨?_, hfree'⟩
    rw [count_append, hcount, hreports, tries_turn hinj hunwritten.module hk']
  counted path k package' t c hbound :=
    hbound.counted_turn hcomes hdefines hk' ⟨_, _, hk', hpackage, hs⟩
      (houtcome.mono fun _ _ _ hlawful => hlawful _ hbound.tallies_law)
      (h.counted path k package' t c hbound)

theorem ledger_start (plan : Plan) :
    plan.Ledger limit count requested plan.start [] [] plan.start.written where
  degraded path name := by
    rw [fallbacks]
    cases plan.names.names.get? path with
    | none => rw [Option.any_none, Bool.and_false]; rfl
    | some k => rw [Option.any_some, show plan.start.written.has k name = false from rfl,
        Bool.and_false]; rfl
  falls _ _ _ _ _ := .inl rfl
  homed _ _ hmem := absurd hmem not_mem_nil
  visited := forall_mem_nil _
  tried _ _ _ _ _ _ := ⟨rfl, rfl⟩
  counted _ _ _ _ _ _ := ⟨rfl, fun _ => ⟨rfl, fun _ _ => rfl⟩, fun ht => Bool.noConfusion ht⟩

/-- A walk comes to a symbol once for each selection that includes it. -/
theorem tries_visits (hsound : plan.program.Sound)
    (hpackage : plan.program.packages.get? path = some package) (hc : c ∈ package.writable)
    (selections : List Selection) :
    tries (plan.visits (plan.program.requested selections)) path c.name =
      selections.countP fun selection => selection.path = path ∧
        selection.includes plan.options.includeUnexported c = true := by
  induction selections with
  | nil => rfl
  | cons selection selections ih =>
    rw [countP_cons, ← ih]
    cases hget : plan.program.packages.get? selection.path with
    | none =>
      have hne : selection.path ≠ path := by
        rintro rfl
        cases hpackage.symm.trans hget
      simp [Program.requested, hget, hne]
    | some package' =>
      have hrequested : plan.program.requested (selection :: selections) =
          (selection, package') :: plan.program.requested selections := by
        simp [Program.requested, hget]
      rw [hrequested, visits, flatMap_cons, tries, countP_append, Nat.add_comm]
      refine congrArg₂ (· + ·) rfl ?_
      rw [countP_map, countP_filter, (hsound _ _ hget).path_eq]
      by_cases hpath : selection.path = path
      · obtain rfl := hpath
        cases hpackage.symm.trans hget
        have hone := countP_name_eq (hsound.nodup_names hpackage) hc
          (selection.includes plan.options.includeUnexported)
        simpa [Function.comp_def] using hone
      · simp [hpath]

end Plan

/-! ## Runs -/

theorem Symbol.isWritable_of_isDropped (h : s.isDropped = true) : s.isWritable = true := by
  rw [isDropped] at h
  rw [isWritable]
  split at h
  · rename_i hbody
    rw [hbody]
    rfl
  · cases h

theorem Emission.Sound.defines_iff_exists (h : e.Sound plan)
    (hinj : NameTable.Injective plan.names.names) : (Run.ofEmission plan e).Defines path name ↔
      ∃ k, plan.names.names.get? path = some k ∧ e.taken k name = true := by
  constructor
  · rintro ⟨m, hm, rfl, hname⟩
    have hk := (h.modules m.name m (h.module?_name hm)).path
    exact ⟨m.name, hk, (h.defines_iff hinj hk).1 ⟨m, hm, rfl, hname⟩⟩
  · rintro ⟨k, hk, htaken⟩
    exact (h.defines_iff hinj hk).2 htaken

/-- A type counts as one with the fallback type if that is its definition. -/
theorem Emission.Sound.fallbacks_pos_iff (h : e.Sound plan)
    (hinj : NameTable.Injective plan.names.names)
    (hfalls : ∀ path name, plan.isUnknown path name = true → plan.Falls path name e.written) :
    0 < plan.fallbacks path name e.written ↔ plan.isUnknown path name = true ∧
      ∃ m ∈ (Run.ofEmission plan e).graph.modules.values, m.packagePath = path ∧
        m.definitions.get? name = some (plan.fallbackText path name) := by
  have hpos : ∀ b : Bool, 0 < b.toNat ↔ b = true := by decide
  rw [Plan.fallbacks, hpos, Bool.and_eq_true, and_congr_right_iff]
  intro hunknown
  constructor
  · intro hany
    obtain ⟨k, hk, hhas⟩ := (Option.any_eq_true _ _).1 hany
    have htext : e.written k name = some (plan.fallbackText path name) := by
      refine (hfalls path name hunknown k hk).resolve_left fun hnone => ?_
      rw [Texts.has, hnone] at hhas
      cases hhas
    obtain ⟨m, hm, htext⟩ := Option.bind_eq_some_iff.1 htext
    exact ⟨m, Table.mem_values_of_get? hm, hinj (h.modules k m hm).path hk, htext⟩
  · rintro ⟨m, hm, rfl, htext⟩
    have hmodule := h.module?_name hm
    refine (Option.any_eq_true _ _).2 ⟨m.name, (h.modules m.name m hmodule).path, ?_⟩
    rw [Texts.has, written, text?, hmodule, Option.bind_some, htext,
      Option.isSome_some]

/-- A constant of a sound program that comes with a type comes with one of its package. -/
theorem Plan.Unwritten.bound {c : Symbol}
    (h : plan.Unwritten path k package c) (hrefers : plan.program.RefersToTypes)
    (hcompanion : isCompanion plan ⟨some path, name⟩ c = true) :
    ∃ t, t.name = name ∧ plan.Bound path k package t c := by
  have hc := h.sound.get?_of_mem h.loaded (mem_values_of_writable h.const)
  have htype : plan.program.TypeAt path name := by
    have hcompanion' := hcompanion
    rw [isCompanion] at hcompanion'
    split at hcompanion'
    · rename_i args hbody
      simp only [Bool.and_eq_true, decide_eq_true_eq] at hcompanion'
      obtain ⟨rfl, -⟩ := hcompanion'
      have hmem : Ty.named ⟨some path, name⟩ args ∈ c.types := by
        rw [Symbol.types, hbody]
        exact mem_singleton.2 rfl
      exact (Ty.refers_named.1 (hrefers path package c.name c h.loaded hc _ hmem)).1.typeAt
    · cases hcompanion'
  obtain ⟨t, info, ht, hbody⟩ := htype package h.loaded
  obtain rfl : t.name = name := ((h.sound path package h.loaded).symbol name t ht).1
  refine ⟨t, rfl, h, mem_filter.2 ⟨mem_mergeSort.2 (Table.mem_values_of_get? ht), ?_⟩, ?_,
    hcompanion⟩
  · rw [Symbol.isWritable, hbody]
  · rw [Symbol.isType, hbody]

/-- How often selections include a symbol of a package. -/
def Options.inclusions (options : Options) (selections : List Selection) (path : String)
    (s : Symbol) : Nat :=
  selections.countP fun selection => selection.path = path ∧
    selection.includes options.includeUnexported s = true

namespace Program

variable {sources : Sources} {patterns : List String} {log : List LogLine}
  {primary : Selection} {others : List Selection} {options : Options}

open Classical in
/-- How often a run defines a type along with its constants: not at all if the walk comes to the type
first; otherwise once, and once more for each constant with a literal that stands before the type,
but for one that the walk comes to first. -/
noncomputable def openings (p : Program) (primary : Selection) (others : List Selection)
    (options : Options) (run : Run) (path name : String) (package : Package) : Nat :=
  if run.Defines path name ∧ ¬ p.MeetsFirst primary others options path name then
    ((Plan.ofRequest p primary others options).early path name package).countP
      (fun a => ¬ p.MeetsFirst primary others options path a.name) + 1
  else 0

section

variable (hplan : plan = Plan.ofRequest p primary others options)

include hplan

theorem meets_iff_meetsFirst (hk : plan.names.names.get? path = some k) :
    plan.Meets p.typeParts.length (p.symbolCount + 2) (p.requested (primary :: others)) plan.start
        k name ↔ p.MeetsFirst primary others options path name := by
  subst hplan
  constructor
  · rintro ⟨s, e, hname, hcomes, hfree⟩
    exact ⟨k, s, e, hname, hk, hcomes, hfree⟩
  · rintro ⟨k', s, e, hname, hk', hcomes, hfree⟩
    cases hk.symm.trans hk'
    exact ⟨s, e, hname, hcomes, hfree⟩

open Classical in
theorem openings_eq (h : e.Sound plan)
    (hinj : NameTable.Injective plan.names.names) (hk : plan.names.names.get? path = some k) :
    p.openings primary others options (Run.ofEmission plan e) path name package =
      if e.written.has k name = true ∧ ¬ plan.Meets p.typeParts.length (p.symbolCount + 2)
          (p.requested (primary :: others)) plan.start k name then
        (plan.early path name package).countP
          (fun a => ¬ plan.Meets p.typeParts.length (p.symbolCount + 2)
            (p.requested (primary :: others)) plan.start k a.name) + 1 else 0 := by
  simp only [openings, has_written, h.defines_iff hinj hk, meets_iff_meetsFirst hplan hk,
    ← hplan]

end

/-- The diagnostics of a run, one for one.  A type of a missing package that gets the fallback type is
reported once.  A constant without a literal is reported each time a selection includes it, and each
time its type is defined along with its constants. -/
theorem emit_reports (hload : Program.load sources patterns = (.ok p, log)) {run : Run}
    (hrun : p.emit primary others options = .ok run) : ∃ reports : List Report,
      List.Forall₂ (Plan.ofRequest p primary others options).Says reports run.diagnostics ∧
      (∀ path name, reports.count (.degraded path name) ≤ 1 ∧ (.degraded path name ∈ reports ↔
          (Plan.ofRequest p primary others options).isUnknown path name = true ∧
            ∃ m ∈ run.graph.modules.values, m.packagePath = path ∧ m.definitions.get? name =
              some ((Plan.ofRequest p primary others options).fallbackText path name))) ∧
      ∀ path package c, p.packages.get? path = some package →
        package.symbols.get? c.name = some c → c.isDropped = true →
        ((∀ name, isCompanion (Plan.ofRequest p primary others options)
            ⟨some path, name⟩ c = false) →
          reports.count (.dropped path c.name) = options.inclusions (primary :: others) path c) ∧
        ∀ name, isCompanion (Plan.ofRequest p primary others options) ⟨some path, name⟩ c = true →
          reports.count (.dropped path c.name) = options.inclusions (primary :: others) path c +
            p.openings primary others options run path name package := by
  have hsound := load_sound hload
  have hrefers := load_refersToTypes hload
  obtain ⟨e, hmade, rfl⟩ := exists_walk hrun
  set plan := Plan.ofRequest p primary others options with hplan
  have hinj : NameTable.Injective plan.names.names := NameTable.build_injective _ _ _
  have hrequested : ∀ request ∈ p.requested (primary :: others),
      plan.program.packages.get? request.2.path = some request.2 := fun _ hrequest =>
    hsound.get?_requested hrequest
  obtain ⟨hsound', reports, ⟨diagnostics, hsays, hdiagnostics⟩, hledger⟩ :=
    (defineRequested_tallies Plan.tallies_lawful hsound hrefers hrequested
      (fun _ _ _ _ _ _ _ _ _ hcomes hdefines hk hpackage hs houtcome h =>
        Plan.ledger_turn hinj hcomes hdefines hk hpackage hs houtcome h)
      plan.start_sound plan.ledger_start).ok rfl hmade
  refine ⟨reports, ?_, fun path name => ?_, fun path package c hpackage hc hdropped => ?_⟩
  · rw [show (Run.ofEmission plan e).diagnostics = diagnostics from hdiagnostics]
    exact hsays
  · have hcount := hledger.degraded path name
    refine ⟨hcount ▸ Bool.toNat_le _, ?_⟩
    rw [← count_pos_iff, hcount]
    exact hsound'.fallbacks_pos_iff hinj hledger.falls
  · have hwritable : c ∈ package.writable := mem_filter.2
      ⟨mem_mergeSort.2 (Table.mem_values_of_get? hc), Symbol.isWritable_of_isDropped hdropped⟩
    have htries : Plan.tries (plan.visits (p.requested (primary :: others))) path c.name =
        options.inclusions (primary :: others) path c :=
      Plan.tries_visits hsound hpackage hwritable _
    rw [← htries]
    cases hk : plan.names.names.get? path with
    | none =>
      -- a package without a module is neither walked through nor defined
      have hreports : reports.count (.dropped path c.name) = 0 := by
        refine count_eq_zero.2 fun hmem => ?_
        obtain ⟨k, hk'⟩ := hledger.homed path c.name hmem
        cases hk.symm.trans hk'
      have hvisits : Plan.tries (plan.visits (p.requested (primary :: others))) path c.name = 0 := by
        refine countP_eq_zero.2 fun v hv heq => ?_
        obtain ⟨k, hk'⟩ := hledger.visited v hv
        rw [(of_decide_eq_true heq).1, hk] at hk'
        cases hk'
      refine ⟨fun _ => hreports.trans hvisits.symm, fun name _ => ?_⟩
      rw [hreports, hvisits, openings, if_neg]
      rintro ⟨hdefines, -⟩
      obtain ⟨k, hk', -⟩ := (hsound'.defines_iff_exists hinj).1 hdefines
      cases hk.symm.trans hk'
    | some k =>
      have hunwritten : plan.Unwritten path k package c :=
        ⟨hinj, hsound, hk, hpackage, hwritable, hdropped⟩
      refine ⟨fun hlone => (hledger.tried path k package c hunwritten hlone).1,
        fun name hcompanion => ?_⟩
      obtain ⟨t, rfl, hbound⟩ := hunwritten.bound hrefers hcompanion
      rw [hbound.count_of_counted hrequested plan.start_sound hrefers hmade
        (hledger.counted path k package t c hbound), openings_eq hplan hsound' hinj hk]

/-- A type with a constant that has no literal, and a type that refers to it. -/
def waveSources : SourceTable where
  packages := ⟨[("p", ⟨[("p.go", "package p\ntype Z complex128\nconst I Z = 1i\n" ++
    "type A struct { F Z }\n")]⟩)]⟩

/-- In a program with one constant, reports of constants that are left out are about that one. -/
theorem reports_of_codes {plan : Plan} {path name : String} {diagnostics : List Diagnostic}
    (hkeys : plan.program.packages.keys = [path])
    (honly : ∀ package ∈ plan.program.packages.get? path, ∀ c ∈ package.symbols.values,
      c.isType = false → c.name = name)
    (h : List.Forall₂ plan.Says reports diagnostics)
    (hcodes : ∀ d ∈ diagnostics, d.code = some "unsupported-literal") :
    reports = replicate diagnostics.length (.dropped path name) := by
  induction h with
  | nil => rfl
  | cons hsays _ ih =>
    obtain ⟨hcode, hcodes⟩ := forall_mem_cons.1 hcodes
    rw [ih hcodes, length_cons, replicate_succ]
    cases hsays with
    | degraded => simp [Diagnostic.warning] at hcode
    | dropped hpackage hc hbody =>
      obtain rfl := mem_singleton.1 (hkeys ▸ Table.mem_keys_iff.2 (Table.contains_of_get? hpackage))
      rw [honly _ hpackage _ (mem_values_of_writable hc) (by rw [Symbol.isType, hbody])]

/-- Whether a program is the one that is loaded.  The value of the constant is left open, as doubles
are not evaluated. -/
def isWaveProgram : Program → Bool
  | ⟨⟨[("p", ⟨"p", "p", ⟨[
      ("Z", ⟨"Z", some "p", ⟨some "p.go", some 2, some 6⟩,
        .type ⟨some (.basic .complex128), [], false, none⟩⟩),
      ("A", ⟨"A", some "p", ⟨some "p.go", some 4, some 6⟩, .type ⟨some (.struct
        [⟨"F", .named ⟨some "p", "Z"⟩ [], "", false, true,
          ⟨some "p.go", some 4, some 17⟩⟩]), [], false, none⟩⟩),
      ("I", ⟨"I", some "p", ⟨some "p.go", some 3, some 7⟩,
        .const (some (.complex _)) (some (.named ⟨some "p", "Z"⟩ []))⟩)]⟩,
      [], ["p.go"]⟩)]⟩, ⟨[]⟩⟩ => true
  | _ => false

theorem facts_of_isWaveProgram (h : isWaveProgram p = true) : p.packages.keys = ["p"] ∧
    (∀ package ∈ p.packages.get? "p", ∀ s ∈ package.symbols.values,
      s.isType = false → s.name = "I") ∧
    ((p.emit ⟨"p", []⟩ [] {}).toOption.any fun run =>
      run.diagnostics.map (·.code) = replicate 2 (some "unsupported-literal")) ∧
    ∃ package ∈ p.packages.get? "p", ∃ c ∈ package.symbols.get? "I", c.name = "I" ∧
      c.isDropped = true ∧
      isCompanion (Plan.ofRequest p ⟨"p", []⟩ [] {}) ⟨some "p", "Z"⟩ c = true ∧
      ({} : Options).inclusions [⟨"p", []⟩] "p" c = 1 := by
  unfold isWaveProgram at h
  split at h
  · exact of_decide_eq_true (by cbv)
  · cases h

/-- The constant is reported twice: the package is requested, and `A` refers to the type before the
walk comes to it. -/
theorem emit_reports_wave : ∃ p log run package c,
    Program.load waveSources.sources ["p"] = (.ok p, log) ∧ p.emit ⟨"p", []⟩ [] {} = .ok run ∧
    p.packages.get? "p" = some package ∧ package.symbols.get? "I" = some c ∧
    List.Forall₂ (Plan.ofRequest p ⟨"p", []⟩ [] {}).Says
      [.dropped "p" "I", .dropped "p" "I"] run.diagnostics ∧
    ({} : Options).inclusions [⟨"p", []⟩] "p" c = 1 ∧
    p.openings ⟨"p", []⟩ [] {} run "p" "Z" package = 1 := by
  obtain ⟨p, log, hload, hwave⟩ := exists_load (P := (isWaveProgram · = true))
    (show (load waveSources.sources ["p"]).1.toOption.any _ = true by decide +kernel)
  obtain ⟨hkeys, honly, hfacts, package, hpackage, c, hc, hname, hdropped, hcompanion,
    hinclusions⟩ := facts_of_isWaveProgram hwave
  obtain ⟨run, hrun, hcodes⟩ := exists_ok_of_any hfacts
  obtain ⟨reports, hsays, -, hcounts⟩ := emit_reports hload hrun
  have hlength : run.diagnostics.length = 2 := by
    rw [← length_map (f := Diagnostic.code), hcodes, length_replicate]
  have hreports : reports = replicate 2 (.dropped "p" "I") := by
    rw [← hlength]
    exact reports_of_codes hkeys honly hsays fun d hd =>
      eq_of_mem_replicate (hcodes ▸ mem_map_of_mem hd)
  have hcount := (hcounts "p" package c hpackage (hname.symm ▸ hc) hdropped).2 "Z" hcompanion
  rw [hreports, hinclusions, hname, count_replicate_self] at hcount
  rw [hreports] at hsays
  exact ⟨p, log, run, package, c, hload, hrun, hpackage, hc, hsays, hinclusions, by omega⟩

end Program

end DeclBridge
