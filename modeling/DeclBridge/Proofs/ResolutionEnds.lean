import DeclBridge.Proofs.AliasLimit
import DeclBridge.Proofs.Lockstep
import Mathlib.Order.WellFounded

/-!
# When the resolution of a package ends

Symbols are resolved one within the other, and each nested resolution tries a symbol that was not
tried before, so the nesting is bounded by the number of symbols.  Expressions and types are finite.
What is left is a chain of aliases that does not end: an alias that stands for itself, directly or
through others, is reported when it is resolved, but it keeps what it stands for, and a later
declaration that follows it runs in a circle.

So with a limit that is high enough a resolution ends, unless there is an endless chain of aliases
(`Outline.resolveAll_ends`).  A declaration that follows such a chain after it was tried is beyond
any limit (`Outline.RunsOn.endless`).
-/

namespace DeclBridge

open Resolving Store

variable {body : SymbolBody} {decl : TypeDecl} {mark : Progress} {r : Except Failure Unit}
  {chain : Nat → Ty} {target : String} {count : Nat} {n : Nat} {name : String} {S : Store}
  {C : Prop} {o : Outline} {p : Program}

/-- A fault that resolution may end with. -/
def Fault.OfResolution (f : Fault) : Prop := Failure.OfResolution (.fault f)

/-! ## Stores -/

namespace Store

/-- The aliases of a store stand for what they can be resolved to, and fewer than `count` names are
still to be tried. -/
def Sized (o : Outline) (p : Program) (count : Nat) (S : Store) : Prop :=
  S.Traced o p ∧ S.untried o < count

theorem Traced.withBody (h : S.Traced o p)
    (hbody : ∀ info t, body = .type info → info.rhs = some t →
      o.StandsFor p name (info.params.map (·.name)) t) : (S.withBody name body).Traced o p := by
  intro name' s info t hs hinfo ht
  obtain ⟨s₀, hs₀, -, ⟨rfl, heq⟩ | ⟨-, rfl⟩⟩ := get?_withBody hs
  · exact hbody info t (heq.symm.trans hinfo) ht
  · exact h name' s info t hs₀ hinfo ht

theorem Sized.withBody (h : S.Sized o p count)
    (hbody : ∀ info t, body = .type info → info.rhs = some t →
      o.StandsFor p name (info.params.map (·.name)) t) : (S.withBody name body).Sized o p count :=
  ⟨h.1.withBody hbody, h.2⟩

theorem Sized.withMark (h : S.Sized o p count) : (S.withMark name mark).Sized o p count := by
  refine ⟨h.1, Nat.lt_of_le_of_lt (List.countP_mono_left fun name' _ hnone => ?_) h.2⟩
  rw [Store.withMark, Table.get?_insert] at hnone
  split at hnone
  · cases hnone
  · exact hnone

theorem Sized.succ (h : S.Sized o p count) : S.Sized o p (count + 1) :=
  ⟨h.1, Nat.lt_succ_of_lt h.2⟩

theorem start_sized (ho : o.Sound) : (start o).Sized o p (o.symbols.size + 1) := by
  refine ⟨fun name s info t hs hinfo ht => ?_, untried_lt o _⟩
  have htypes := ho.body name s hs
  rw [Symbol.types, hinfo] at htypes
  simp [ht] at htypes

end Store

namespace Resolving

/-! ## Symbols -/

section

variable (hC : C → o.AliasesEnd p) (hresolve : ∀ name, Stable C (Store.Sized o p count) fun n =>
    resolveSymbol ⟨o, p, n⟩ count name)

include hC hresolve

theorem resolveType_stable (hdecl : o.types.get? name = some decl) :
    Stable C (Store.Sized o p count) fun n =>
      resolveType ⟨o, p, n⟩ (resolveSymbol ⟨o, p, n⟩ count) name decl := by
  have hJ : ∀ S, Store.Sized o p count S → S.Traced o p := fun _ hS => hS.1
  have hset (info : TypeInfo) (hinfo : ∀ t, info.rhs = some t →
      o.StandsFor p name (info.params.map (·.name)) t) :
      Stable C (Store.Sized o p count) fun _ => setBody name (.type info) :=
    .update fun S hS => hS.withBody fun info' t h ht => by
      cases h
      exact hinfo t ht
  refine (paramsOf_stable hresolve hJ hC _ _ _).bind_of (fun n => paramsOf_names _)
    fun params hparams => (hset _ (by simp)).bind fun _ => ?_
  -- what the type is written as is, for an alias, what it stands for
  refine (typeOf_stable hresolve hJ hC _ _ _).bind_of
    (Q := fun t => decl.spec.isAlias = true → o.StandsFor p name (params.map (·.name)) t)
    (fun n S _ => ?_) fun t ht => ?_
  · rcases hrun : (typeOf ⟨o, p, n⟩ (resolveSymbol ⟨o, p, n⟩ count) decl.scope
      (paramTypes decl.spec.params) decl.spec.type).run.run S with ⟨_ | t, S'⟩
    · trivial
    · exact fun halias => ⟨decl, hdecl, halias, hparams, n, count, S, S', hrun⟩
  · dsimp only
    split
    · rename_i halias
      refine (hset _ fun u hu => Option.some.inj hu ▸ ht halias).bind fun _ =>
        (underlying_stable hresolve hJ hC t).bind fun behind => hset _ ?_
      exact fun u hu => Option.some.inj hu ▸ ht halias
    · exact (hset _ (by simp)).bind fun _ =>
        (underlying_stable hresolve hJ hC t).bind fun behind => hset _ (by simp)

theorem resolveConst_stable (decl : ConstDecl) : Stable C (Store.Sized o p count) fun n =>
      resolveConst ⟨o, p, n⟩ (resolveSymbol ⟨o, p, n⟩ count) name decl := by
  have hset (value : Option Constant) (type : Option Ty) : Stable C (Store.Sized o p count)
      fun _ => setBody name ((SymbolBody.const value type).moved .stay) :=
    .update fun S hS => hS.withBody fun _ _ h => by cases h
  have hconst := (looks_stable hresolve (fun _ hS => hS.1) hC).resolveConst name
    (imports_stable decl.scope) trivial (fun _ _ => .all _)
    (fun _ _ _ _ => .all _) fun value type _ => (hset value type).judged
  simp only [Judgement.stable, ConstDecl.moved_stay] at hconst
  exact hconst.1

theorem resolveBody_stable (name : String) : Stable C (Store.Sized o p count) fun n =>
      resolveBody ⟨o, p, n⟩ (resolveSymbol ⟨o, p, n⟩ count) name := by
  simp only [resolveBody]
  split
  · exact .fixed (.throw fun _ hS => ⟨hS, trivial⟩)
  · split
    · split
      · exact resolveType_stable hC hresolve ‹_›
      · exact .pure _
    · split
      · exact resolveConst_stable hC hresolve _
      · exact .pure _

end

/-- The resolution of a symbol does not depend on the limit, or it is that of a declaration, with
one name less to try. -/
theorem resolveSymbol_cases (hS : S.Sized o p (count + 1)) (name : String) :
    (∃ r S', S'.Sized o p (count + 1) ∧ (∀ e, r = .error e → e.Ordinary) ∧
      ∀ n, (resolveSymbol ⟨o, p, n⟩ (count + 1) name).run.run S = (r, S')) ∨
    (S.withMark name .started).Sized o p count ∧
      ∀ n, (resolveSymbol ⟨o, p, n⟩ (count + 1) name).run.run S =
        let run := (resolveBody ⟨o, p, n⟩ (resolveSymbol ⟨o, p, n⟩ count) name).run.run
          (S.withMark name .started)
        (run.1, run.2.withMark name (match run.1 with | .ok _ => .done | .error _ => .failed)) := by
  cases hmark : S.progress.get? name with
  | some mark =>
    by_cases hstarted : mark = .started
    · subst hstarted
      refine .inl ⟨.error (.problem (.recursive name) (o.placeOf name)), S, hS, fun e he => ?_,
        fun n => resolveSymbol_started hmark⟩
      cases he
      trivial
    · exact .inl ⟨.ok (), S, hS, nofun, fun n => resolveSymbol_tried hmark hstarted⟩
  | none =>
    by_cases hname : name ∈ o.symbols.keys
    · have huntried : (S.withMark name .started).untried o < count :=
        Nat.lt_of_lt_of_le (untried_withMark_lt hname hmark) (Nat.le_of_lt_succ hS.2)
      exact .inr ⟨⟨hS.1, huntried⟩, fun n => resolveSymbol_fresh hmark⟩
    · -- a name that is not declared is a fault
      have hnone : o.symbols.get? name = none := by
        rw [Table.mem_keys_iff, Table.contains, Bool.not_eq_true, Option.isSome_eq_false_iff,
          Option.isNone_iff_eq_none] at hname
        exact hname
      refine .inl ⟨.error (.fault (.undeclared name)),
        (S.withMark name .started).withMark name .failed, hS.withMark.withMark, fun e he => ?_,
        fun n => ?_⟩
      · cases he
        trivial
      rw [resolveSymbol_fresh hmark]
      simp only [resolveBody, hnone]
      rfl

theorem resolveSymbol_stable (hC : C → o.AliasesEnd p) (count : Nat) (name : String) :
    Stable C (Store.Sized o p count) fun n => resolveSymbol ⟨o, p, n⟩ count name := by
  induction count generalizing name with
  | zero =>
    -- there is always a name less to try than the depth that is left
    have hnone {Q : Prop} (S : Store) (hS : S.Sized o p 0) : Q := absurd hS.2 (Nat.not_lt_zero _)
    exact ⟨fun _ S hS => hnone S hS, fun _ S hS => hnone S hS, fun _ S hS => hnone S hS⟩
  | succ count ih =>
    have hbody := resolveBody_stable hC ih name
    refine ⟨fun {m n} hmn S hS => ?_, fun n S hS => ?_, fun hc S hS => ?_⟩
    · obtain ⟨r, S', -, -, hrun⟩ | ⟨hstarted, hrun⟩ := resolveSymbol_cases hS name
      · exact .inr ((hrun n).trans (hrun m).symm)
      · rw [hrun m, hrun n]
        rcases hbody.mono hmn _ hstarted with hexhausted | hsame
        · exact .inl hexhausted
        · rw [hsame]
          exact .inr rfl
    · obtain ⟨r, S', hS', hr, hrun⟩ | ⟨hstarted, hrun⟩ := resolveSymbol_cases hS name
      · rw [hrun n]
        cases r with
        | error e => exact ⟨hS', .inr (hr e rfl)⟩
        | ok => exact hS'
      · rw [hrun n]
        have hkeeps := hbody.keeps n _ hstarted
        rcases hend : (resolveBody ⟨o, p, n⟩ (resolveSymbol ⟨o, p, n⟩ count) name).run.run
          (S.withMark name .started) with ⟨e | _, S'⟩ <;> rw [hend] at hkeeps
        · exact ⟨hkeeps.1.succ.withMark, hkeeps.2⟩
        · exact hkeeps.succ.withMark
    · obtain ⟨r, S', -, hr, hrun⟩ | ⟨hstarted, hrun⟩ := resolveSymbol_cases hS name
      · refine ⟨0, fun hexhausted => ?_⟩
        rw [hrun 0] at hexhausted
        exact hr _ hexhausted
      · obtain ⟨n, hn⟩ := hbody.ends hc _ hstarted
        refine ⟨n, ?_⟩
        rw [hrun n]
        exact hn

/-! ## Chains without an end -/

/-- What an alias leads to in a store: an alias of the package that was tried, or one of another
package. -/
inductive Leads (o : Outline) (p : Program) (S : Store) : Ty → Ty → Prop
  | own {name : String} {mark : Progress} {s : Symbol} {info : TypeInfo} {args : List Ty} {t : Ty} :
    S.progress.get? name = some mark → mark ≠ .started → S.symbols.get? name = some s →
    s.body = .type info → info.rhs = some t →
    Leads o p S (.aliased ⟨some o.path, name⟩ args) (instantiate info.params args t)
  | imported {path name : String} {args : List Ty} {t : Ty} : path ≠ o.path →
    (p.typeInfo ⟨some path, name⟩).rhs = some t →
    Leads o p S (.aliased ⟨some path, name⟩ args)
      (instantiate (p.typeInfo ⟨some path, name⟩).params args t)

section

variable {t u : Ty} {n : Nat}

theorem Leads.withMark (h : Leads o p S t u) (hfree : S.progress.get? name = none) : Leads o p
    (S.withMark name mark) t u := by
  cases h with
  | own hmark hne hs hbody hrhs =>
    refine .own ?_ hne hs hbody hrhs
    rw [withMark, Table.get?_insert_of_ne]
    · exact hmark
    · rintro rfl
      cases hfree.symm.trans hmark
  | imported hpath hrhs => exact .imported hpath hrhs

theorem Leads.withBody (h : Leads o p S t u) (hstarted : S.progress.get? name = some .started) :
    Leads o p (S.withBody name body) t u := by
  cases h with
  | own hmark hne hs hbody hrhs =>
    refine .own hmark hne ?_ hbody hrhs
    rw [withBody, Table.get?_modify_of_ne]
    · exact hs
    · rintro rfl
      cases hstarted.symm.trans hmark
      exact hne rfl
  | imported hpath hrhs => exact .imported hpath hrhs

/-- A symbol that was tried is looked up and not resolved again. -/
theorem lookUp_tried (hmark : S.progress.get? name = some mark) (hne : mark ≠ .started) :
    (lookUp (resolveSymbol ⟨o, p, n⟩ (count + 1)) name).run.run S =
      (.ok (S.symbols.get? name), S) := by
  rw [lookUp, Computation.run_bind_ok (resolveSymbol_tried hmark hne)]
  rfl

theorem follow_leads {id : SymbolId} {args : List Ty} (h : Leads o p S (.aliased id args) u) :
    (follow ⟨o, p, n⟩ (resolveSymbol ⟨o, p, n⟩ (count + 1)) (·.rhs) id args).run.run S =
      (.ok (some u), S) := by
  cases h with
  | own hmark hne hs hbody hrhs =>
    rw [follow_own ⟨o, p, n⟩ rfl, Computation.run_bind_ok (lookUp_tried hmark hne), hs,
      Option.bind_some, Symbol.typeInfo?, hbody]
    dsimp only [Option.getD_some]
    rw [hrhs]
    rfl
  | imported hpath hrhs =>
    rw [follow_other ⟨o, p, n⟩ rfl hpath]
    dsimp only
    rw [hrhs]
    rfl

/-- A chain that does not end is longer than any limit. -/
theorem underlyingWithin_leads (h : ∀ i, Leads o p S (chain i) (chain (i + 1))) (k i : Nat) :
    (underlyingWithin ⟨o, p, n⟩ (resolveSymbol ⟨o, p, n⟩ (count + 1)) k (chain i)).run.run S =
      (.error (.fault .endlessType), S) := by
  induction k generalizing i with
  | zero => rfl
  | succ k ih =>
    have hstep := h i
    generalize hu : chain (i + 1) = u at hstep
    obtain ⟨id, args, hchain⟩ : ∃ id args, chain i = .aliased id args := by
      cases hchain : chain i with
      | aliased id args => exact ⟨id, args, rfl⟩
      | _ =>
        rw [hchain] at hstep
        cases hstep
    rw [hchain] at hstep ⊢
    simp only [underlyingWithin]
    rw [Computation.run_bind_ok (follow_leads hstep), ← hu]
    exact ih (i + 1)

end

/-- A declaration gives to an alias of the package another name. -/
structure Renames (o : Outline) (name target : String) (decl : TypeDecl) : Prop where
  declared : o.DeclaresType name
  lines : o.types.get? name = some decl
  noParams : decl.spec.params = []
  written : ∃ pos, decl.spec.type = .ref pos none target []
  known : o.DeclaresType target
  isAlias : (o.types.get? target).any (·.spec.isAlias) = true

theorem typeOf_renamed (ho : o.Sound)
    {resolve : String → Resolving Unit} (h : Renames o name target decl) :
    typeOf ⟨o, p, n⟩ resolve decl.scope (paramTypes decl.spec.params) decl.spec.type =
      pure (.aliased ⟨some o.path, target⟩ []) := by
  obtain ⟨pos, hwritten⟩ := h.written
  obtain ⟨s, info, hs, hbody⟩ := h.known
  obtain ⟨hname, hpackage⟩ := ho.symbol target s hs
  have hid : s.id = ⟨some o.path, target⟩ := by
    rw [Symbol.id, hname, hpackage]
  have hparam : (paramTypes []).get? target = none := rfl
  rw [hwritten, h.noParams]
  simp only [typeOf, typesOf, pure_bind, typeNamed, hparam, hs, hbody, h.isAlias, reference, hid,
    if_true]

/-- A declared type that is another name of an alias which leads on without an end. -/
theorem resolveSymbol_leads (ho : o.Sound) (hrenames : Renames o name target decl)
    (hfree : S.progress.get? name = none) (hstart : chain 0 = .aliased ⟨some o.path, target⟩ [])
    (hchain : ∀ i, Leads o p S (chain i) (chain (i + 1))) (n count : Nat) :
    Exhausted ((resolveSymbol ⟨o, p, n⟩ (count + 2) name).run.run S) := by
  obtain ⟨s, info, hs, hbody⟩ := hrenames.declared
  have hset (S : Store) (body : SymbolBody) :
      (setBody name body).run.run S = (.ok (), S.withBody name body) := rfl
  have hstarted : (S.withMark name .started).progress.get? name = some .started :=
    Table.get?_insert_self _ _ _
  rw [resolveSymbol_fresh hfree]
  simp only [resolveBody, hs, hbody, hrenames.lines, resolveType]
  rw [typeOf_renamed ho hrenames, hrenames.noParams, paramsOf]
  simp only [pure_bind]
  rw [Computation.run_bind_ok (hset _ _), Computation.run_bind_ok (hset _ _), ← hstart, underlying,
    Computation.run_bind_error (underlyingWithin_leads (fun i => ?_) _ 0)]
  · rfl
  · exact (((hchain i).withMark hfree).withBody hstarted).withBody hstarted

end Resolving

namespace Outline

/-! ## Packages -/

/-- What is reported of a symbol when its resolution has ended. -/
def report (o : Outline) (name : String) : Except Failure Unit → Except Fault (List Diagnostic)
  | .ok _ => .ok []
  | .error (.problem why pos) => (why.diagnostic (o.fileOf name) pos).map ([·])
  | .error (.fault why) => .error why

theorem resolveAll_cons (env : Surroundings) (S : Store) (name : String) (names : List String) :
    resolveAll env S (name :: names) = do
      let run := (resolveSymbol env (env.outline.symbols.size + 1) name).run.run S
      let reported ← env.outline.report name run.1
      let (S', more) ← resolveAll env run.2 names
      return (S', reported ++ more) := by
  rw [resolveAll]
  rcases (resolveSymbol env (env.outline.symbols.size + 1) name).run.run S with
    ⟨(⟨why, pos⟩ | why) | ⟨⟩, S₁⟩
  · simp only [report]
    cases why.diagnostic (env.outline.fileOf name) pos <;> rfl
  · rfl
  · rfl

theorem report_failsOnly
    (hr : ∀ e, r = .error e → e.OfResolution) : FailsOnly Fault.OfResolution (o.report name r) := by
  rcases r with (⟨why, pos⟩ | why) | ⟨⟩
  · exact ⟨fun f hf => .inr (Failure.OfValue.ordinary (e := .fault f)
      ((why.diagnostic_failsOnly (o.fileOf name) pos).map.of_error f hf))⟩
  · exact .error (hr _ rfl)
  · exact .ok _

/-- Names that are declared again are reported whatever the limit. -/
theorem redeclarations_failsOnly (o : Outline) : FailsOnly Fault.OfValue o.redeclarations := by
  rw [redeclarations]
  exact .mapM fun found _ => found.1.diagnostic_failsOnly _ _

section

variable (names : List String)

section

variable (hS : S.Sized o p (o.symbols.size + 1))

include hS

theorem resolveSymbol_run {S₁ : Store}
    (hrun : (resolveSymbol ⟨o, p, n⟩ (o.symbols.size + 1) name).run.run S = (r, S₁)) :
    S₁.Sized o p (o.symbols.size + 1) ∧ ∀ e, r = .error e → e.OfResolution := by
  have hkeeps := (resolveSymbol_stable (C := False) (o := o) (p := p) False.elim
    (o.symbols.size + 1) name).keeps n S hS
  rw [hrun] at hkeeps
  cases r with
  | error e =>
    refine ⟨hkeeps.1, fun e' he' => ?_⟩
    cases he'
    exact hkeeps.2
  | ok => exact ⟨hkeeps, fun _ h => nomatch h⟩

theorem resolveAll_failsOnly (n : Nat) :
    FailsOnly Fault.OfResolution (resolveAll ⟨o, p, n⟩ S names) := by
  induction names generalizing S with
  | nil => exact .ok _
  | cons name names ih =>
    rw [resolveAll_cons]
    rcases hrun : (resolveSymbol ⟨o, p, n⟩ (o.symbols.size + 1) name).run.run S with
      ⟨r, S₁⟩
    obtain ⟨hS₁, hr⟩ := resolveSymbol_run hS hrun
    exact (report_failsOnly hr).bind fun _ => (ih hS₁).bind fun _ => .ok _

/-- A higher limit gives the same result, unless the lower one was exceeded. -/
theorem resolveAll_mono {m n : Nat} (hmn : m ≤ n) :
    resolveAll ⟨o, p, m⟩ S names = .error .endlessType ∨
      resolveAll ⟨o, p, n⟩ S names = resolveAll ⟨o, p, m⟩ S names := by
  induction names generalizing S with
  | nil => exact .inr rfl
  | cons name names ih =>
    have hsymbol := resolveSymbol_stable (C := False) (o := o) (p := p) False.elim
      (o.symbols.size + 1) name
    rw [resolveAll_cons, resolveAll_cons]
    rcases hsymbol.mono hmn S hS with hexhausted | hsame
    · left
      dsimp only
      rw [hexhausted]
      rfl
    · dsimp only
      rw [hsame]
      rcases hrun : (resolveSymbol ⟨o, p, m⟩ (o.symbols.size + 1) name).run.run S with
        ⟨r, S₁⟩
      cases o.report name r with
      | error f => exact .inr (Eq.trans (b := .error f) rfl rfl)
      | ok reported =>
        rcases ih (resolveSymbol_run hS hrun).1 with hexhausted | hrest
        · left
          rw [hexhausted]
          rfl
        · right
          rw [hrest]

end

theorem resolveAll_append (env : Surroundings) (S : Store) (names names' : List String) :
    resolveAll env S (names ++ names') = do
      let (S₁, reported) ← resolveAll env S names
      let (S', more) ← resolveAll env S₁ names'
      return (S', reported ++ more) := by
  induction names generalizing S with
  | nil =>
    simp only [List.nil_append, resolveAll, bind, Except.bind]
    cases resolveAll env S names' <;> rfl
  | cons name names ih =>
    rw [List.cons_append, resolveAll_cons, resolveAll_cons]
    dsimp only
    rw [ih]
    generalize (resolveSymbol env (env.outline.symbols.size + 1) name).run.run S = run
    cases env.outline.report name run.1 with
    | error f => rfl
    | ok reported =>
      cases resolveAll env run.2 names with
      | error f => rfl
      | ok found =>
        simp only [bind, Except.bind, pure, Except.pure]
        cases resolveAll env found.1 names' with
        | error f => rfl
        | ok found' => simp only [List.append_assoc]

end

/-! ## Beyond every limit -/

/-- A declaration that gives another name to an alias which was tried before and leads on without an
end. -/
def RunsOn (o : Outline) (p : Program) (name : String) : Prop :=
  ∃ before after limit S reported target decl, ∃ chain : Nat → Ty,
    o.symbols.keys = before ++ name :: after ∧ (∃ ds, o.redeclarations = .ok ds) ∧
    resolveAll ⟨o, p, limit⟩ (start o) before = .ok (S, reported) ∧
    S.progress.get? name = none ∧ Resolving.Renames o name target decl ∧
    chain 0 = .aliased ⟨some o.path, target⟩ [] ∧
    ∀ i, Resolving.Leads o p S (chain i) (chain (i + 1))

/-- With such a declaration no limit is high enough. -/
theorem RunsOn.endless (ho : o.Sound) (h : o.RunsOn p name) (n : Nat) :
    o.resolveWithin n p = .error (.fault .endlessType) := by
  obtain ⟨before, after, limit, S, reported, target, decl, chain, hkeys, ⟨ds, hds⟩, hbefore, hfree,
    hrenames, hstart, hchain⟩ := h
  have hsized := start_sized (p := p) ho
  have hall : resolveAll ⟨o, p, n⟩ (start o) o.symbols.keys = .error .endlessType := by
    -- whatever the limit, it is exceeded before the declaration or there
    have hreached : resolveAll ⟨o, p, n⟩ (start o) before = .error .endlessType ∨
        resolveAll ⟨o, p, n⟩ (start o) before = .ok (S, reported) := by
      rcases Nat.le_total n limit with hle | hle
      · rcases resolveAll_mono before hsized hle with hexhausted | hsame
        · exact .inl hexhausted
        · exact .inr (hsame.symm.trans hbefore)
      · refine .inr (((resolveAll_mono before hsized hle).resolve_left ?_).trans hbefore)
        rw [hbefore]
        exact nofun
    rw [hkeys, resolveAll_append]
    rcases hreached with hexhausted | hok
    · rw [hexhausted]
      rfl
    · have hsize : o.symbols.size = (before.length + after.length) + 1 := by
        have hlength := congrArg List.length hkeys
        rw [Table.keys, List.length_map, List.length_append, List.length_cons] at hlength
        exact hlength
      have hexhausted := resolveSymbol_leads ho hrenames hfree hstart hchain n
        (before.length + after.length)
      rw [hok]
      dsimp only [bind, Except.bind]
      rw [resolveAll_cons]
      dsimp only
      rw [hsize, hexhausted]
      rfl
  rw [start] at hall
  rw [resolveWithin, hds, hall]
  rfl

end Outline

end DeclBridge
