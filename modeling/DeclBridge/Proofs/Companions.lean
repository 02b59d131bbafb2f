import DeclBridge.Proofs.Origins

/-!
# Constants and their types

When a definition refers to a type that is not defined yet, the constants of the type are defined
along with it.  When the walk through the requested symbols comes to the type first, they are not,
and a reference that comes later finds the type defined and brings nothing.  So it is a matter of
order whether a constant that is not requested itself travels with its type.

`Program.emit_companion_iff` says when it does.  Three invariants of a run carry the two directions:
where the type is, the constant is or will be (`Plan.Joined` with the names one way), the constant is
nowhere without its type (the other way), and a constant that was left behind stays behind
(`Plan.LeftBehind`).
-/

namespace DeclBridge

open Emitting Emission List

variable {e e' : Emission} {plan : Plan} {k path : String} {r : Reference} {package : Package}
  {c s : Symbol} {text : Text}

namespace Emission

variable {k' n n' : String}

theorem taken_withText_iff (hk : (e.module? k).isSome) :
    (e.update k (·.withText n text)).taken k' n' = true ↔
      k = k' ∧ n = n' ∨ e.taken k' n' = true := by
  by_cases h : k = k' ∧ n = n'
  · obtain ⟨rfl, rfl⟩ := h
    exact iff_of_true (taken_withText hk) (.inl ⟨rfl, rfl⟩)
  · rw [taken_withText_of_ne h]
    exact ⟨.inr, fun h' => h'.resolve_left h⟩

theorem taken_of_reserved (h : e.reserved k n = true) : e.taken k n = true := by
  by_contra hfree
  rw [not_reserved_of_not_taken (Bool.eq_false_of_not_eq_true hfree)] at h
  cases h

end Emission

/-! ## A type and its constant -/

namespace Plan

variable {t : Symbol}

/-- A type and a constant of that type that is written along with it, in the module `k` of their
package. -/
structure Companion (plan : Plan) (path k : String) (t c : Symbol) : Prop where
  names : NameTable.Injective plan.names.names
  sound : plan.program.Sound
  refers : plan.program.RefersToTypes
  module : plan.names.names.get? path = some k
  type : plan.Place k t
  isType : t.isType = true
  const : plan.Place k c
  isCompanion : Emitting.isCompanion plan ⟨some path, t.name⟩ c = true
  literal : plan.rendered c ≠ []

/-- A reference leads to the type. -/
def LeadsTo (path name : String) (r : Reference) : Prop := r.path = path ∧ r.name = name

namespace Companion

section

variable (h : plan.Companion path k t c)

include h

theorem isType_const : c.isType = false := by
  have hcompanion := h.isCompanion
  rw [Emitting.isCompanion] at hcompanion
  rw [Symbol.isType]
  cases hbody : c.body with
  | const value type => rfl
  | type info =>
    rw [hbody] at hcompanion
    cases hcompanion

theorem eq_of_place {s' : Symbol} (hs : plan.Place k s)
    (hs' : plan.Place k s') (hname : s'.name = s.name) : s' = s :=
  Emitting.eq_of_place h.names h.sound.keyed hs hs' hname

theorem name_ne : t.name ≠ c.name := by
  intro hname
  have htype := h.isType
  rw [h.eq_of_place h.const h.type hname, h.isType_const] at htype
  cases htype

theorem not_leadsTo_const (hraises : plan.Raises e r) : ¬ LeadsTo path c.name r := by
  rintro ⟨rfl, hname⟩
  obtain ⟨s, hplace, -, hcites⟩ := hraises.cited
  obtain ⟨package, hpackage, hc⟩ := mem_writable_of_place h.names h.module h.const
  obtain ⟨s', info, hs', hbody⟩ := hcites.typeAt h.sound h.refers hplace package hpackage
  rw [hname, h.sound.get?_of_mem hpackage (mem_values_of_writable hc)] at hs'
  have hconst := h.isType_const
  rw [Option.some.inj hs', Symbol.isType, hbody] at hconst
  cases hconst

/-- The constant comes with the type only. -/
theorem leadsTo_of_comesWith (hraises : plan.Raises e r)
    (hr : plan.names.names.get? r.path = some k)
    (hcomes : comesWith plan ⟨some r.path, r.name⟩ c = true) : LeadsTo path t.name r := by
  have hpath : r.path = path := h.names hr h.module
  rw [comesWith, Bool.or_eq_true, decide_eq_true_eq] at hcomes
  rcases hcomes with hname | hcompanion
  · exact absurd ⟨hpath, hname.symm⟩ (h.not_leadsTo_const hraises)
  · have hcompanion' := h.isCompanion
    rw [Emitting.isCompanion] at hcompanion hcompanion'
    split at hcompanion
    · rename_i hbody
      rw [hbody] at hcompanion'
      simp only [Bool.and_eq_true, decide_eq_true_eq] at hcompanion hcompanion'
      have hid := hcompanion.1.symm.trans hcompanion'.1
      exact ⟨hpath, (SymbolId.mk.inj hid).2⟩
    · cases hcompanion

theorem leadsTo_of_comesWith_type (hr : plan.names.names.get? r.path = some k)
    (hcomes : comesWith plan ⟨some r.path, r.name⟩ t = true) : LeadsTo path t.name r := by
  rw [comesWith, Bool.or_eq_true, decide_eq_true_eq] at hcomes
  refine ⟨h.names hr h.module, ?_⟩
  rcases hcomes with hname | hcompanion
  · exact hname.symm
  · have htype := h.isType
    rw [Emitting.isCompanion] at hcompanion
    split at hcompanion
    · rename_i hbody
      rw [Symbol.isType, hbody] at htype
      cases htype
    · cases hcompanion

end

end Companion

/-! ## Invariants -/

/-- Where the name `n` is taken, `m` is, or a reference to the type has begun. -/
def Joined (path type k n m : String) (pending : List Reference) (e : Emission) : Prop :=
  e.taken k n = true → e.taken k m = true ∨ ∃ r ∈ pending, LeadsTo path type r

/-- The type is defined and the constant is not, and no reference to the type has begun. -/
structure LeftBehind (path type k const : String) (pending : List Reference) (e : Emission) :
    Prop where
  present : e.taken k type = true
  absent : e.taken k const = false
  pending : ∀ r ∈ pending, ¬ LeadsTo path type r

variable {type n m n' k' const : String} {P : List Reference}

theorem Joined.sameTexts (h : Joined path type k n m P e) (hsame : e.SameTexts e') :
    Joined path type k n m P e' := by
  rw [Joined, hsame.taken, hsame.taken]
  exact h

theorem Joined.cons (h : Joined path type k n m P e) : Joined path type k n m (r :: P) e := by
  intro hn
  refine (h hn).imp_right ?_
  rintro ⟨r', hr', hleads⟩
  exact ⟨r', mem_cons_of_mem _ hr', hleads⟩

theorem Joined.withText (h : Joined path type k n m P e) (hk : (e.module? k').isSome)
    (hnew : k' = k → n' = n → e.taken k n = true ∨ ∃ r ∈ P, LeadsTo path type r) :
    Joined path type k n m P (e.update k' (·.withText n' text)) := by
  have hext : e.Extends (e.update k' (·.withText n' text)) :=
    extends_update fun _ _ => Module.extends_withText
  intro hn
  have hn : e.taken k n = true ∨ ∃ r ∈ P, LeadsTo path type r := by
    rcases (taken_withText_iff hk).1 hn with ⟨hk', hn'⟩ | hn
    · exact hnew hk' hn'
    · exact .inl hn
  rcases hn with hn | hpending
  · exact (h hn).imp_left hext.taken
  · exact .inr hpending

/-- A reference that is noted is not needed any more, if the name that it was to bring is there. -/
theorem Joined.note (h : Joined path type k n m (r :: P) e)
    (hdone : LeadsTo path type r → e.taken k m = true) : Joined path type k n m P (e.note r) := by
  intro hn
  rcases h hn with hm | ⟨r', hr', hleads⟩
  · exact .inl hm
  · rcases mem_cons.1 hr' with rfl | hr'
    · exact .inl (hdone hleads)
    · exact .inr ⟨r', hr', hleads⟩

theorem LeftBehind.withText (h : LeftBehind path type k const P e) (hk : (e.module? k').isSome)
    (hne : ¬ (k' = k ∧ n' = const)) :
    LeftBehind path type k const P (e.update k' (·.withText n' text)) where
  present := (taken_withText_iff hk).2 (.inr h.present)
  absent := by rw [taken_withText_of_ne hne, h.absent]
  pending := h.pending

theorem LeftBehind.sameTexts (h : LeftBehind path type k const P e)
    (hsame : e.SameTexts e') : LeftBehind path type k const P e' :=
  ⟨by rw [hsame.taken, h.present], by rw [hsame.taken, h.absent], h.pending⟩

namespace Companion

/-- Where the type is, its constant is or will be. -/
theorem maintains_joined (h : plan.Companion path k t c) :
    plan.Maintains (Joined path t.name k t.name c.name) where
  same hquiet hinv := hinv.sameTexts hquiet.toSameTexts
  imported _ hinv := hinv.sameTexts (sameTexts_addImport _ _ _)
  opened _ _ _ hinv := hinv.cons
  reserve {_ _ r _ s} hr _ hplace hcomes hk _ hinv := by
    refine hinv.withText hk ?_
    rintro rfl hname
    rw [h.eq_of_place h.type hplace hname] at hcomes
    exact .inr ⟨r, mem_cons_self, h.leadsTo_of_comesWith_type hr hcomes⟩
  write _ hk hreserved _ _ hinv := by
    refine hinv.withText hk ?_
    rintro rfl hname
    exact .inl (hname ▸ taken_of_reserved hreserved)
  unknown {_ _ r _} _ _ hr _ hk _ _ hinv := by
    refine hinv.withText hk ?_
    rintro rfl hname
    exact .inr ⟨r, mem_cons_self, h.names hr h.module, hname⟩
  closed {_ _ r _} hr _ _ htried hinv := by
    refine hinv.note ?_
    rintro ⟨rfl, hname⟩
    cases hr.symm.trans h.module
    refine (htried c h.const ?_).resolve_right h.literal
    rw [comesWith, hname, h.isCompanion, Bool.or_true]
  noted _ _ _ hinv := hinv

/-- The constant is nowhere without its type. -/
theorem maintains_joined_const (h : plan.Companion path k t c) :
    plan.Maintains (Joined path t.name k c.name t.name) where
  same hquiet hinv := hinv.sameTexts hquiet.toSameTexts
  imported _ hinv := hinv.sameTexts (sameTexts_addImport _ _ _)
  opened _ _ _ hinv := hinv.cons
  reserve {_ _ r _ s} hr hraises hplace hcomes hk _ hinv := by
    refine hinv.withText hk ?_
    rintro rfl hname
    rw [h.eq_of_place h.const hplace hname] at hcomes
    exact .inr ⟨r, mem_cons_self, h.leadsTo_of_comesWith hraises hr hcomes⟩
  write _ hk hreserved _ _ hinv := by
    refine hinv.withText hk ?_
    rintro rfl hname
    exact .inl (hname ▸ taken_of_reserved hreserved)
  unknown {_ _ r _} _ _ hr hraises hk _ _ hinv := by
    refine hinv.withText hk ?_
    rintro rfl hname
    exact absurd ⟨h.names hr h.module, hname⟩ (h.not_leadsTo_const hraises)
  closed {_ _ r _} hr _ htaken _ hinv := by
    refine hinv.note ?_
    rintro ⟨rfl, hname⟩
    cases hr.symm.trans h.module
    exact hname ▸ htaken
  noted _ _ _ hinv := hinv

/-- A constant that was left behind stays behind. -/
theorem maintains_leftBehind (h : plan.Companion path k t c) :
    plan.Maintains (LeftBehind path t.name k c.name) where
  same hquiet hinv := hinv.sameTexts hquiet.toSameTexts
  imported _ hinv := hinv.sameTexts (sameTexts_addImport _ _ _)
  opened {_ _ r _} hr _ hfree hinv := by
    refine ⟨hinv.present, hinv.absent, forall_mem_cons.2 ⟨?_, hinv.pending⟩⟩
    rintro ⟨rfl, hname⟩
    cases hr.symm.trans h.module
    rw [hname, hinv.present] at hfree
    cases hfree
  reserve {_ _ r _ s} hr hraises hplace hcomes hk _ hinv := by
    refine hinv.withText hk ?_
    rintro ⟨rfl, hname⟩
    rw [h.eq_of_place h.const hplace hname] at hcomes
    exact hinv.pending r mem_cons_self (h.leadsTo_of_comesWith hraises hr hcomes)
  write _ hk hreserved _ _ hinv := by
    refine hinv.withText hk ?_
    rintro ⟨rfl, hname⟩
    have htaken := taken_of_reserved hreserved
    rw [hname, hinv.absent] at htaken
    cases htaken
  unknown {_ _ r _} _ _ hr hraises hk _ _ hinv := by
    refine hinv.withText hk ?_
    rintro ⟨rfl, hname⟩
    exact h.not_leadsTo_const hraises ⟨h.names hr h.module, hname⟩
  closed _ _ _ _ hinv :=
    ⟨hinv.present, hinv.absent, fun r hr => hinv.pending r (mem_cons_of_mem _ hr)⟩
  noted _ _ _ hinv := ⟨hinv.present, hinv.absent, hinv.pending⟩

end Companion

end Plan

/-! ## Walks -/

namespace Emitting

variable {Inv : List Reference → Emission → Prop} {limit count : Nat}
  {requested : List (Selection × Package)} {e₀ : Emission} {t : Symbol}

/-- The definitions of a requested package keep what the steps and the reservation of what is
selected keep. -/
theorem definePackage_maintains (hinj : NameTable.Injective plan.names.names)
    (h : plan.Maintains Inv) {request : Selection × Package}
    (hpackage : plan.program.packages.get? request.2.path = some request.2)
    (hselected : ∀ k s e, plan.names.names.get? request.2.path = some k →
      s ∈ request.2.writable → request.1.includes plan.options.includeUnexported s = true →
      (e.module? k).isSome → Inv [] e → Inv [] (e.update k (·.withText s.name .empty))) :
    Keeps (fun e => e.Sound plan ∧ Inv [] e) (fun _ => True)
      (definePackage plan limit count request.1 request.2) := by
  refine Triple.assume fun e he => ?_
  refine Triple.bind (moduleFor_spec he.1 (.inr trivial)) fun k => Triple.assume fun e₁ h₁ => ?_
  obtain ⟨hsound₁, -, hk, hmodule₁, heq₁⟩ := h₁
  have hinv₁ : Inv [] e₁ := heq₁ ▸ h.same (quiet_withModule _ _ _) he.2
  refine (forM_maintains (define_maintains hinj h limit count)
    (fun s hs => ⟨request.2.path, request.2, hk, hpackage, (mem_filter.1 hs).1⟩)
    (fun s hs e' hext _ hinv => ?_) hsound₁ hinv₁ hmodule₁).post
    (fun _ _ h => ⟨h.1.1.1, h.1.2⟩)
  obtain ⟨hs, hincluded⟩ := mem_filter.1 hs
  exact hselected k s e' hk hs hincluded (hext.module? hmodule₁) hinv

theorem exists_rest_of_comes (h : plan.Comes limit count requested e₀ k s e)
    (hmade : (defineRequested plan limit count requested).run.run e₀ = (.ok (), e')) :
    ∃ request left after e₁ e₂, request ∈ requested ∧ after ⊆ requested ∧
      left ⊆ request.2.writable.filter (request.1.includes plan.options.includeUnexported) ∧
      plan.names.names.get? request.2.path = some k ∧
      (define plan limit count s k).run.run e = (.ok (), e₁) ∧
      (left.forM (define plan limit count · k)).run.run e₁ = (.ok (), e₂) ∧
      (after.forM fun r => definePackage plan limit count r.1 r.2).run.run e₂ = (.ok (), e') := by
  obtain ⟨before, request, after, passed, left, e₁, e₂, rfl, hfilter, hbefore, hmodule, hpassed⟩ := h
  rw [defineRequested] at hmade hbefore
  obtain ⟨k₀, e₃, hprimary, hmade⟩ := Computation.bind_eq_ok hmade
  rw [Computation.run_bind_ok hprimary] at hbefore
  obtain ⟨e₄, hbefore', hmade⟩ := Computation.forM_append_eq_ok hmade
  cases hbefore.symm.trans hbefore'
  obtain ⟨_, e₅, hrequest, hafter⟩ := Computation.bind_eq_ok hmade
  have hrequest : (definePackage plan limit count request.1 request.2).run.run e₁ = (.ok (), e₅) :=
    hrequest
  rw [definePackage, Computation.run_bind_ok hmodule, hfilter] at hrequest
  obtain ⟨e₆, hpassed', hrequest⟩ := Computation.forM_append_eq_ok hrequest
  cases hpassed.symm.trans hpassed'
  obtain ⟨_, e₇, hdefine, hleft⟩ := Computation.bind_eq_ok hrequest
  refine ⟨request, left, after, e₇, e₅, mem_append_cons_self, ?_, ?_,
    moduleFor_eq_ok hmodule, hdefine, hleft, hafter⟩
  · exact fun r hr => mem_append_right _ (mem_cons_of_mem _ hr)
  · rw [hfilter]
    exact fun s hs => mem_append_right _ (mem_cons_of_mem _ hs)

/-- What a run keeps holds where its walk comes to a symbol. -/
theorem comes_maintains (hinj : NameTable.Injective plan.names.names) (h : plan.Maintains Inv)
    (hrequested : ∀ r ∈ requested, plan.program.packages.get? r.2.path = some r.2)
    (hselected : ∀ r ∈ requested, ∀ k s e, plan.names.names.get? r.2.path = some k →
      s ∈ r.2.writable → r.1.includes plan.options.includeUnexported s = true →
      (e.module? k).isSome → Inv [] e → Inv [] (e.update k (·.withText s.name .empty)))
    (h₀ : e₀.Sound plan) (hinv : Inv [] e₀) (hcomes : plan.Comes limit count requested e₀ k s e) :
    e.Sound plan ∧ (e.module? k).isSome ∧ Inv [] e := by
  obtain ⟨before, request, after, passed, left, e₁, e₂, rfl, hfilter, hbefore, hmodule, hpassed⟩ :=
    hcomes
  have hsub : ∀ r ∈ before, r ∈ before ++ request :: after := fun r hr =>
    mem_append_left _ hr
  have hrequest : request ∈ before ++ request :: after :=
    mem_append_cons_self
  obtain ⟨⟨⟨hsound₁, -⟩, hinv₁⟩, -⟩ := (defineRequested_maintains hinj h
    (fun r hr => hrequested r (hsub r hr)) (fun k s e hcomes hk _ hinv => by
      obtain ⟨r, hr, hname, hs, hincluded⟩ := exists_request_of_comes hcomes
      exact hselected r (hsub r hr) k s e hname hs hincluded hk hinv) h₀ hinv).ok rfl hbefore
  obtain ⟨hsound₂, -, hk, hmodule₂, heq₂⟩ :=
    (moduleFor_spec (F := fun _ => True) hsound₁ (.inr trivial)).ok rfl hmodule
  have hinv₂ : Inv [] e₂ := heq₂ ▸ h.same (quiet_withModule _ _ _) hinv₁
  have hmem : ∀ s ∈ passed, s ∈ request.2.writable ∧
      request.1.includes plan.options.includeUnexported s = true := by
    intro s hs
    rw [← mem_filter, hfilter]
    exact mem_append_left _ hs
  obtain ⟨⟨⟨hsound, hgrows⟩, hinv⟩, -⟩ := (forM_maintains (define_maintains hinj h limit count)
    (fun s hs => ⟨_, _, hk, hrequested request hrequest, (hmem s hs).1⟩)
    (fun s hs e hext _ hinv => hselected request hrequest k s e hk (hmem s hs).1 (hmem s hs).2
      (hext.module? hmodule₂) hinv) hsound₂ hinv₂ hmodule₂).ok rfl hpassed
  exact ⟨hsound, hgrows.toExtends.module? hmodule₂, hinv⟩

/-- A constant that is not selected is not defined, if the walk comes to its type first. -/
theorem not_taken_of_comes (h : plan.Companion path k t c)
    (hrequested : ∀ r ∈ requested, plan.program.packages.get? r.2.path = some r.2)
    (hunselected : ∀ r ∈ requested, c ∈ r.2.writable → plan.names.names.get? r.2.path = some k →
      r.1.includes plan.options.includeUnexported c ≠ true)
    (hcomes : plan.Comes limit count requested plan.start k t e) (hfree : e.taken k t.name = false)
    (hmade : (defineRequested plan limit count requested).run.run plan.start = (.ok (), e')) :
    e'.taken k c.name = false := by
  -- what is selected is not the constant
  have hother : ∀ r ∈ requested, ∀ k' s, plan.names.names.get? r.2.path = some k' →
      s ∈ r.2.writable → r.1.includes plan.options.includeUnexported s = true →
      ¬ (k' = k ∧ s.name = c.name) := by
    rintro r hr k' s hk' hs hincluded ⟨rfl, hname⟩
    obtain rfl : s = c := h.eq_of_place h.const ⟨_, _, hk', hrequested r hr, hs⟩ hname
    exact hunselected r hr hs hk' hincluded
  have hstart : Plan.Joined path t.name k c.name t.name [] plan.start := by
    intro htaken
    cases htaken
  obtain ⟨hsound, hmodule, hjoined⟩ := comes_maintains h.names h.maintains_joined_const hrequested
    (fun r hr k' s e hk' hs hincluded hmodule hinv => hinv.withText hmodule fun heq hname =>
      absurd ⟨heq, hname⟩ (hother r hr k' s hk' hs hincluded)) plan.start_sound hstart hcomes
  obtain ⟨request, left, after, e₁, e₂, hrequest, hafter, hleft, hk, hdefine, hrest, hrests⟩ :=
    exists_rest_of_comes hcomes hmade
  -- the constant is not there either when the walk comes to the type
  have hnone : e.taken k c.name = false := by
    by_contra htaken
    rcases hjoined (Bool.eq_true_of_not_eq_false htaken) with ht | ⟨r, hr, -⟩
    · cases hfree.symm.trans ht
    · exact absurd hr not_mem_nil
  have hreserve : Plan.LeftBehind path t.name k c.name [] (e.update k (·.withText t.name .empty)) := by
    refine ⟨taken_withText hmodule, ?_, forall_mem_nil _⟩
    rw [taken_withText_of_ne fun heq => h.name_ne heq.2, hnone]
  have hplaces := define_maintains h.names h.maintains_leftBehind limit count
  obtain ⟨⟨hsound₁, hgrows₁⟩, hleft₁, -⟩ := (hplaces h.type hsound hmodule (fun htype => by
    rw [hfree, h.isType] at htype
    rcases htype with htype | htype <;> cases htype) fun _ => hreserve).ok rfl hdefine
  have hmodule₁ := hgrows₁.toExtends.module? hmodule
  obtain ⟨⟨⟨hsound₂, -⟩, hleft₂⟩, -⟩ := (forM_maintains hplaces
    (fun s hs => ⟨_, _, hk, hrequested request hrequest, (mem_filter.1 (hleft hs)).1⟩)
    (fun s hs e hext _ hinv => by
      obtain ⟨hs, hincluded⟩ := mem_filter.1 (hleft hs)
      exact hinv.withText (hext.module? hmodule₁) (hother request hrequest k s hk hs hincluded))
    hsound₁ hleft₁ hmodule₁).ok rfl hrest
  obtain ⟨-, hleft'⟩ := (Triple.forM fun r hr => definePackage_maintains h.names
    h.maintains_leftBehind (hrequested r (hafter hr)) fun k' s e hk' hs hincluded hmodule hinv =>
      hinv.withText hmodule (hother r (hafter hr) k' s hk' hs hincluded)).ok
    (And.intro hsound₂ hleft₂) hrests
  exact hleft'.absent

/-- A constant is defined with its type, if the walk never comes to the type first. -/
theorem taken_of_forall_comes (h : plan.Companion path k t c)
    (hrequested : ∀ r ∈ requested, plan.program.packages.get? r.2.path = some r.2)
    (hcomes : ∀ e, plan.Comes limit count requested plan.start k t e → e.taken k t.name = true)
    (hmade : (defineRequested plan limit count requested).run.run plan.start = (.ok (), e'))
    (ht : e'.taken k t.name = true) : e'.taken k c.name = true := by
  have hstart : Plan.Joined path t.name k t.name c.name [] plan.start := by
    intro htaken
    cases htaken
  have hturn : ∀ k' s e, plan.Comes limit count requested plan.start k' s e → k' = k →
      s.name = t.name → e.taken k t.name = true := by
    rintro k' s e hturn rfl hname
    obtain ⟨r, hr, hk, hs, -⟩ := exists_request_of_comes hturn
    obtain rfl : s = t := h.eq_of_place h.type ⟨_, _, hk, hrequested r hr, hs⟩ hname
    exact hcomes e hturn
  obtain ⟨⟨-, hjoined⟩, -⟩ := (defineRequested_maintains h.names h.maintains_joined hrequested
    (fun k' s e hcomes hmodule _ hinv => hinv.withText hmodule fun hk hname =>
      .inl (hturn k' s e hcomes hk hname)) plan.start_sound hstart).ok rfl hmade
  rcases hjoined ht with hc | ⟨r, hr, -⟩
  · exact hc
  · exact absurd hr not_mem_nil

end Emitting

/-! ## Runs -/

/-- A definition stands in the module of a package. -/
def Run.Defines (run : Run) (path name : String) : Prop :=
  ∃ m ∈ run.graph.modules.values, m.packagePath = path ∧ m.has name = true

theorem Emission.Sound.defines_iff (h : e.Sound plan)
    (hinj : NameTable.Injective plan.names.names) {name : String}
    (hk : plan.names.names.get? path = some k) :
    (Run.ofEmission plan e).Defines path name ↔ e.taken k name = true := by
  constructor
  · rintro ⟨m, hm, rfl, hname⟩
    have hget := h.module?_name hm
    cases hk.symm.trans (h.modules m.name m hget).path
    rw [taken, hget]
    exact hname
  · intro htaken
    obtain ⟨m, hm, hname⟩ := (Option.any_eq_true _ _).1 htaken
    have hpath : m.packagePath = path := hinj (h.modules k m hm).path hk
    exact ⟨m, Table.mem_values_of_get? hm, hpath, hname⟩

namespace Program

/-- The walk of a run comes to a symbol of a package while its name is free: no definition before
it has referred to the symbol. -/
def MeetsFirst (p : Program) (primary : Selection) (others : List Selection) (options : Options)
    (path name : String) : Prop :=
  ∃ k s e, s.name = name ∧ (Plan.ofRequest p primary others options).names.names.get? path = some k ∧
    (Plan.ofRequest p primary others options).Comes p.typeParts.length (p.symbolCount + 2)
      (p.requested (primary :: others)) (Plan.ofRequest p primary others options).start k s e ∧
    e.taken k name = false

variable {sources : Sources} {patterns : List String} {p : Program} {log : List LogLine}
  {primary : Selection} {others : List Selection} {options : Options}

/-- A type of a sound program that a definition refers to, and a constant that comes with it. -/
theorem exists_companion (hinj : NameTable.Injective plan.names.names) (hsound : plan.program.Sound)
    (hrefers : plan.program.RefersToTypes) (hk : plan.names.names.get? r.path = some k)
    (hraises : plan.Raises e r) (hpackage : plan.program.packages.get? r.path = some package)
    (hc : package.symbols.get? c.name = some c) {value : Constant} {args : List Ty} {literal : Text}
    (hbody : c.body = .const (some value) (some (.named ⟨some r.path, r.name⟩ args)))
    (hvisible : c.exported = true ∨ plan.options.includeUnexported = true)
    (hliteral : value.literal? = .ok (some literal)) :
    ∃ t, t.name = r.name ∧ plan.Companion r.path k t c := by
  obtain ⟨s, hplace, -, hcites⟩ := hraises.cited
  obtain ⟨t, info, ht, htype⟩ := hcites.typeAt hsound hrefers hplace package hpackage
  have hname : t.name = r.name := ((hsound r.path package hpackage).symbol r.name t ht).1
  have hwritable : ∀ s, package.symbols.get? s.name = some s → s.isWritable = true →
      plan.Place k s := fun s hs hwritable =>
    ⟨r.path, package, hk, hpackage, mem_filter.2
      ⟨mem_mergeSort.2 (Table.mem_values_of_get? hs), hwritable⟩⟩
  refine ⟨t, hname, hinj, hsound, hrefers, hk, hwritable t (hname ▸ ht) ?_, ?_, hwritable c hc ?_,
    ?_, ?_⟩
  · rw [Symbol.isWritable, htype]
  · rw [Symbol.isType, htype]
  · rw [Symbol.isWritable, hbody]
    rfl
  · rw [isCompanion, hbody]
    simp only [hname, decide_true, Bool.true_and, Bool.or_eq_true]
    exact hvisible
  · simp [Plan.rendered, hbody, hliteral]

/-- A constant that is selected is defined once its package is written. -/
theorem taken_of_written {t : Symbol} (h : plan.Companion path k t c)
    (hpackage : plan.program.packages.get? path = some package) {selection : Selection}
    (hwritten : Emitting.Written plan (selection, package) e)
    (hincluded : selection.includes plan.options.includeUnexported c = true) :
    e.taken k c.name = true := by
  obtain ⟨package', hpackage', hmem⟩ := mem_writable_of_place h.names h.module h.const
  cases hpackage.symm.trans hpackage'
  obtain ⟨k', hk', htaken⟩ := hwritten c (mem_filter.2 ⟨hmem, hincluded⟩)
  rw [(h.sound _ _ hpackage).path_eq] at hk'
  cases h.module.symm.trans hk'
  exact htaken.resolve_right h.literal

/-- What the walk of a run comes to in a package is included by a selection of the package. -/
theorem exists_selection_of_comes (hsound : p.Sound)
    (hplan : plan = Plan.ofRequest p primary others options) {limit count : Nat}
    (hk : plan.names.names.get? path = some k)
    (hcomes : plan.Comes limit count (p.requested (primary :: others)) plan.start k s e) :
    ∃ selection ∈ primary :: others, selection.path = path ∧
      selection.includes options.includeUnexported s = true := by
  subst hplan
  obtain ⟨request, hrequest, hk', -, hincluded⟩ := exists_request_of_comes hcomes
  obtain ⟨hselection, hfound⟩ := mem_requested.1 hrequest
  refine ⟨request.1, hselection, ?_, hincluded⟩
  rw [← (hsound _ _ hfound).path_eq]
  exact NameTable.build_injective _ _ _ hk' hk

/-- A run covers what its definitions refer to, and its selections are written. -/
theorem walk_covers (hsound : p.Sound)
    (hplan : plan = Plan.ofRequest p primary others options) {limit count : Nat}
    (hmade : (defineRequested plan limit count
      (p.requested (primary :: others))).run.run plan.start = (.ok (), e)) :
    ((e.Sound plan ∧ plan.start.Grows e) ∧ plan.Covers e) ∧
      ∀ r ∈ p.requested (primary :: others), Emitting.Written plan r e := by
  subst hplan
  exact (defineRequested_covers (NameTable.build_injective _ _ _) hsound.keyed
    (fun _ hr => hsound.get?_requested hr) (Plan.start_sound _) (Plan.start_covers _)).ok rfl hmade

/-- A constant whose type is referred to is defined with its type exactly if it is selected itself or
the walk does not come to the type before all references.  So it is if no selection names the type.
-/
theorem emit_companion_iff (hload : Program.load sources patterns = (.ok p, log)) {run : Run}
    (hrun : p.emit primary others options = .ok run) {r : Reference} (hr : r ∈ run.references)
    {package : Package} (hpackage : p.packages.get? r.path = some package) {c : Symbol}
    (hc : package.symbols.get? c.name = some c) {value : Constant} {args : List Ty} {literal : Text}
    (hbody : c.body = .const (some value) (some (.named ⟨some r.path, r.name⟩ args)))
    (hvisible : c.exported = true ∨ options.includeUnexported = true)
    (hliteral : value.literal? = .ok (some literal)) : (run.Defines r.path c.name ↔
      (∃ selection ∈ primary :: others, selection.path = r.path ∧
        selection.includes options.includeUnexported c = true) ∨
      ¬ p.MeetsFirst primary others options r.path r.name) ∧
    ((∀ selection ∈ primary :: others, selection.path = r.path → r.name ∉ selection.names) →
      run.Defines r.path c.name) := by
  have hsound := load_sound hload
  obtain ⟨e, hmade, rfl⟩ := exists_walk hrun
  set plan := Plan.ofRequest p primary others options
  have hinj : NameTable.Injective plan.names.names := NameTable.build_injective _ _ _
  have hrequested : ∀ request ∈ p.requested (primary :: others),
      plan.program.packages.get? request.2.path = some request.2 := fun _ hrequest =>
    hsound.get?_requested hrequest
  obtain ⟨⟨⟨hsound', -⟩, -⟩, hwritten⟩ := walk_covers hsound rfl hmade
  have hraises := walk_raises hsound rfl hmade
  obtain ⟨k, target, -, hk, htarget, htype, -⟩ := hsound'.references r hr
  have htaken : e.taken k r.name = true := (Option.any_eq_true _ _).2 ⟨target, htarget, htype⟩
  obtain ⟨t, hname, hcompanion⟩ := exists_companion hinj hsound (load_refersToTypes hload) hk
    (hraises r hr) hpackage hc hbody hvisible hliteral
  rw [← hname] at htaken
  -- the packages of the selections, by the names of their modules
  have hpath : ∀ request ∈ p.requested (primary :: others),
      plan.names.names.get? request.2.path = some k → request.1.path = r.path := by
    intro request hrequest hk'
    rw [← (hsound _ _ (mem_requested.1 hrequest).2).path_eq]
    exact hinj hk' hk
  have hiff : (Run.ofEmission plan e).Defines r.path c.name ↔
      (∃ selection ∈ primary :: others, selection.path = r.path ∧
        selection.includes options.includeUnexported c = true) ∨
      ¬ p.MeetsFirst primary others options r.path r.name := by
    rw [hsound'.defines_iff hinj hk]
    constructor
    · intro hdefined
      by_contra hneither
      obtain ⟨hunselected, hmeets⟩ := not_or.1 hneither
      obtain ⟨k', s, e₁, hs, hk', hcomes, hfree⟩ := not_not.1 hmeets
      cases hk.symm.trans hk'
      obtain ⟨request, hrequest, hk', hmem, -⟩ := exists_request_of_comes hcomes
      obtain rfl : s = t := hcompanion.eq_of_place hcompanion.type
        ⟨_, _, hk', hrequested request hrequest, hmem⟩ (hs.trans hname.symm)
      rw [not_taken_of_comes hcompanion hrequested (fun request hrequest _ hk' hincluded =>
        hunselected ⟨request.1, (mem_requested.1 hrequest).1, hpath request hrequest hk', hincluded⟩)
        hcomes (hname ▸ hfree) hmade] at hdefined
      cases hdefined
    · rintro (⟨selection, hselection, hpath, hincluded⟩ | hmeets)
      · exact taken_of_written hcompanion hpackage (hwritten (selection, package)
          (mem_requested.2 ⟨hselection, hpath ▸ hpackage⟩)) hincluded
      · refine taken_of_forall_comes hcompanion hrequested (fun e₁ hcomes => ?_) hmade
          htaken
        by_contra hfree
        exact hmeets ⟨k, t, e₁, hname, hk, hcomes, hname ▸ Bool.eq_false_of_not_eq_true hfree⟩
  refine ⟨hiff, fun hunnamed => hiff.2 ?_⟩
  by_cases hall : ∃ selection ∈ primary :: others, selection.path = r.path ∧ selection.names = []
  · obtain ⟨selection, hselection, hpath, hnames⟩ := hall
    refine .inl ⟨selection, hselection, hpath, Selection.includes_iff.2 ?_⟩
    rw [if_pos hnames]
    exact hvisible
  · right
    rintro ⟨k', s, e₁, hs, hk', hcomes, -⟩
    obtain ⟨selection, hselection, hpath, hincluded⟩ :=
      exists_selection_of_comes hsound rfl hk' hcomes
    have hincluded := Selection.includes_iff.1 hincluded
    rw [if_neg fun hnames => hall ⟨selection, hselection, hpath, hnames⟩, hs] at hincluded
    exact hunnamed selection hselection hpath hincluded

/-- With both types selected the walk comes to `Color` first, and its constant is left behind though
`Pen` refers to `Color`. -/
theorem emit_companion_iff_pen : ∃ log run,
    Program.load penSources.sources ["p"] = (.ok penProgram, log) ∧
    penProgram.emit ⟨"p", ["Color", "Pen"]⟩ [] {} = .ok run ∧
    (∃ r ∈ run.references, r.definition = "Pen" ∧ r.path = "p" ∧ r.name = "Color") ∧
    ¬ run.Defines "p" "Red" ∧ penProgram.MeetsFirst ⟨"p", ["Color", "Pen"]⟩ [] {} "p" "Color" := by
  obtain ⟨log, hload⟩ := load_penSources
  have hfacts : (penProgram.emit ⟨"p", ["Color", "Pen"]⟩ [] {}).toOption.map (fun run =>
      (run.references.map fun r => (r.definition, r.path, r.name),
        run.graph.modules.values.map fun m => m.definitions.keys)) =
      some ([("Pen", "p", "Color")], [["Color", "Pen"]]) := by cbv
  obtain ⟨run, hok, hfacts⟩ := Option.map_eq_some_iff.1 hfacts
  have hrun := eq_ok_of_toOption hok
  obtain ⟨hreferences, hkeys⟩ := Prod.mk.inj hfacts
  obtain ⟨r, hr, heq⟩ : ∃ r ∈ run.references,
      (r.definition, r.path, r.name) = ("Pen", "p", "Color") := by
    rw [← mem_map, hreferences]
    exact mem_singleton.2 rfl
  obtain ⟨hdefinition, hpath, hname⟩ : r.definition = "Pen" ∧ r.path = "p" ∧ r.name = "Color" := by
    simpa using heq
  have hnot : ¬ run.Defines "p" "Red" := by
    rintro ⟨m, hm, -, hred⟩
    have hmem : m.definitions.keys ∈ [["Color", "Pen"]] := hkeys ▸ mem_map_of_mem hm
    rw [Module.has, ← Table.mem_keys_iff, mem_singleton.1 hmem] at hred
    simp at hred
  obtain ⟨hiff, -⟩ := emit_companion_iff hload hrun hr (c := ⟨"Red", some "p",
    ⟨some "p.go", some 3, some 7⟩, .const (some (.str "red")) (some (.named ⟨some "p", "Color"⟩ []))⟩)
    (by rw [hpath]; rfl) rfl (by rw [hpath, hname]) (.inl (by decide)) rfl
  rw [hpath, hname] at hiff
  refine ⟨log, run, hload, hrun, ⟨r, hr, hdefinition, hpath, hname⟩, hnot, ?_⟩
  by_contra hmeets
  exact hnot (hiff.2 (.inr hmeets))

end Program

end DeclBridge
