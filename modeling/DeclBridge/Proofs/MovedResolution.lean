import DeclBridge.Proofs.ResolvedPackage

/-!
# Resolution apart from places

The same declarations are resolved twice: where they stand, and with their places moved, in a
package that has them in another order.  Both resolutions go through the same steps, since what a
name means is looked up and not searched for, and places only go into problems and into the fields
of structs. So the two end alike, step by step (`Parallel`): both with a problem, or both with a
result, and the second result is the first with its places moved.

The packages around the two agree on a set `R` that the types in question cannot leave.
-/

namespace DeclBridge

/-! ## Two resolutions -/

/-- The same store with places moved. -/
structure Store.Moves (m : Move) (S S' : Store) : Prop where
  progress : S'.progress = S.progress
  symbols : ∀ name, S'.symbols.get? name = (S.symbols.get? name).map (Symbol.moved m)

/-- The same surroundings with places moved, where the packages in `R` are concerned. -/
structure Surroundings.Moves (m : Move) (R : String → Prop) (env env' : Surroundings) : Prop where
  outline : env.outline.Moves m env'.outline
  limit : env'.limit = env.limit
  packages : ∀ path, R path →
    Option.Rel (Package.Moves m) (env.program.packages.get? path) (env'.program.packages.get? path)

namespace Resolving

/-- Two resolutions end alike, from stores that are the same but for their places. -/
abbrev Pairs {α β : Type} (m : Move) (J : Store → Prop) (u : α → β) (x : Resolving α)
    (x' : Resolving β) : Prop :=
  Parallel (fun S S' => J S ∧ S.Moves m S') (fun _ _ => True) u x x'

/-- What the functions of the two resolutions need to end alike: surroundings that are the same, and
ways to resolve another symbol that end alike. -/
structure Paired (m : Move) (R : String → Prop) (J : Store → Prop) (env env' : Surroundings)
    (resolve resolve' : String → Resolving Unit) : Prop where
  confined : Confined R env resolve J
  env : env.Moves m R env'
  resolve : ∀ name, Pairs m J id (resolve name) (resolve' name)

variable {m : Move} {R : String → Prop} {J : Store → Prop} {env env' : Surroundings}
  {resolve resolve' : String → Resolving Unit} {α β γ δ : Type}

/-- Problems may be reported at different places. -/
theorem problem_pairs {u : α → β} {why why' : Problem} {pos pos' : Position} :
    Pairs m J u (problem why pos) (problem why' pos') :=
  .throw trivial

/-- The declarations where they stand, and with their places moved by `m`: both resolutions end
alike, and the first gives results in `Q`. -/
def Judgement.paired (m : Move) (J : Store → Prop) : Judgement Bool where
  move moved := cond moved m .stay
  place _ := True
  Holds u x Q := Pairs m J (u m) (x false) (x true) ∧ Gives J (x false) Q
  pure {_ u _ _ x} a ha hQ := by
    have hstay : x false = a := (ha false).trans (Stays.stay (u := u) a)
    exact ⟨Parallel.pure (hstay ▸ ha true), Returns.pure (hstay ▸ hQ)⟩
  bind {_ _ u _ _ _ _ _ _} hx hf := by
    refine ⟨Parallel.bind_gives hx.1 hx.2 (fun _ _ hS => hS.1) fun a ha => ?_,
      hx.2.bind fun a ha => ?_⟩
    · have hfa := (hf a ha).1
      simp only [cond_false, Stays.stay (u := u)] at hfa
      exact hfa
    · have hfa := (hf a ha).2
      simp only [cond_false, Stays.stay (u := u)] at hfa
      exact hfa
  mono hx hR := ⟨hx.1, hx.2.mono hR⟩
  problem _ := ⟨problem_pairs, problem_gives⟩
  surrogate := ⟨Parallel.throw trivial, Gives.throw⟩
  value {_ r pos} _ _ hsame := by
    refine ⟨Parallel.result (fun a ha => ?_) fun e he => ?_, Gives.result fun _ _ => trivial⟩
    · have h := hsame pos (m.position pos)
      rw [show r pos = .ok a from ha] at h
      exact eq_ok_of_toOption h
    · have h := hsame pos (m.position pos)
      rw [show r pos = .error e from he] at h
      cases hr : r (m.position pos) with
      | error e' => exact ⟨e', hr, trivial⟩
      | ok a =>
        rw [hr] at h
        cases h

/-! ## References -/

section

variable (h : Paired m R J env env' resolve resolve')

include h

/-- What is known of a declared type is moved with it. -/
theorem typeInfo_pairs {id : SymbolId} (hid : ∀ path, id.package = some path → R path) :
    Pairs m J (TypeInfo.moved m) (typeInfo env id) (typeInfo env' id) := by
  unfold typeInfo
  rw [h.env.outline.path]
  split
  · refine .get_bind fun S S' hS => ?_
    refine Parallel.pure ?_ S S' hS
    rw [hS.2.symbols, getD_typeInfo?_moved]
  · exact .pure (Program.typeInfo_moved fun path hpath =>
      h.env.packages path (hid path hpath))

/-- References lead to types that differ in their places only. -/
theorem Paired.leads : (Judgement.paired m J).Leads (cond · env' env) (cond · resolve' resolve)
    env.outline (fun _ => True) (Ty.Within R) env.limit where
  outline moved := by
    cases moved
    · exact env.outline.moves_stay
    · exact h.env.outline
  made := h.confined.leads.made
  predeclared := h.confined.leads.predeclared
  own := h.confined.leads.own
  info isAlias {id args} ht := ⟨typeInfo_pairs h (within_reference.1 ht).1, typeInfo_gives id⟩
  look name _ := by
    refine ⟨(h.resolve name).bind fun _ => .get_bind fun S S' hS => ?_,
      h.confined.lookUp_gives name⟩
    exact Parallel.pure (hS.2.symbols name) S S' hS
  limit moved := by
    cases moved
    · rfl
    · exact h.env.limit
  args := h.confined.leads.args
  subst := h.confined.leads.subst
  name _ _ := trivial
  other {isAlias id args} ht hid := by
    obtain ⟨hpackage, -⟩ := within_reference.1 ht
    have hinfo := h.confined.typeInfo_within hpackage
    refine ⟨env.program.typeInfo id, fun moved => ?_,
      fun t ht => ht.elim (hinfo.underlying t) (hinfo.rhs t)⟩
    cases moved
    · exact (TypeInfo.moved_stay _).symm
    · exact Program.typeInfo_moved fun path hpath => h.env.packages path (hpackage path hpath)
  endless := ⟨Parallel.throw trivial, Gives.throw⟩

/-- Imported symbols differ in their places only. -/
theorem Paired.imports {scope : Scope} (hscope : scope.Within R) :
    (Judgement.paired m J).Imports (cond · env' env) scope (Ty.Within R) := by
  intro package name pos hpos
  have hgives := h.confined.imports hscope package name pos hpos
  refine ⟨((Judgement.paired m J).holds_imported (cond · env' env) scope package name
    (Q := fun _ => True) hpos fun path hpath => ⟨(env.program.packages.get? path).map
      (·.symbols.get? name), fun moved => ?_, fun _ => trivial, fun _ _ => trivial⟩).1, hgives⟩
  cases moved with
  | false => exact (looked_stay _).symm
  | true =>
    have hpackages := h.env.packages path (hscope package path hpath)
    simp only [Judgement.paired, cond_true]
    generalize env.program.packages.get? path = found, env'.program.packages.get? path = found'
      at hpackages
    cases hpackages with
    | none => rfl
    | some hp => simp only [Option.map_some, hp.symbols]

end

/-! ## Declarations -/

section Declarations

variable {name : String} {S₀ : Store}

theorem moves_withBody {S S' : Store} (h : S.Moves m S') (name : String) (body : SymbolBody) :
    (S.withBody name body).Moves m (S'.withBody name (body.moved m)) where
  progress := h.progress
  symbols name' := by
    rw [Store.withBody, Store.withBody, Table.get?_modify, Table.get?_modify, h.symbols]
    split
    · cases S.symbols.get? name' <;> rfl
    · rfl

theorem moves_withMark {S S' : Store} (h : S.Moves m S') (name : String) (mark : Progress) :
    (S.withMark name mark).Moves m (S'.withMark name mark) where
  progress := congrArg (Table.insert · name mark) h.progress
  symbols := h.symbols

/-- The stores stay alike when a symbol gets its meaning. -/
theorem setBody_pairs {body : SymbolBody} (hJ : ∀ S, J S → J (S.withBody name body)) :
    Pairs m J id (setBody name body) (setBody name (body.moved m)) :=
  .update fun S _ hS => ⟨hJ S hS.1, moves_withBody hS.2 name body⟩

/-- One symbol is resolved alike if those that it needs are. -/
theorem resolveBody_pairs (hready : Ready R env)
    (h : Paired m R (Store.SoundFrom R env.outline S₀) env env' resolve resolve')
    (hstarted : S₀.progress.get? name = some .started) :
    Pairs m (Store.SoundFrom R env.outline S₀) id (resolveBody env resolve name)
      (resolveBody env' resolve' name) := by
  have hset (body : SymbolBody) (hstay : body.moved .stay = body)
      (hbody : ∀ s : Symbol, s.body = body → s.Within R)
      (hdeclared : ∀ info, body = .type info → env.outline.DeclaresType name) :
      (Judgement.paired m (Store.SoundFrom R env.outline S₀)).Holds (fun _ a => a)
        (fun moved => setBody name (body.moved (cond moved m .stay))) fun _ => True := by
    simp only [Judgement.paired, cond_false, cond_true, hstay]
    exact ⟨setBody_pairs fun S hS => ⟨hS.1.withBody hbody hdeclared (hS.2 name _ hstarted),
      hS.2.withBody⟩, setBody_gives hbody hdeclared hstarted⟩
  have hlooks := h.leads.looks
  refine (hlooks.resolveBody name (fun _ => ⟨.throw trivial, .throw⟩)
    (fun s info decl hs hbody hdecl => ?_) fun decl hdecl => ?_).1
  · refine hlooks.resolveType name (h.imports (hready.scope (hready.outline.typeScope name decl
      hdecl))) (fun _ _ => .all _) fun info' hparams htypes => ?_
    refine hset (.type info') ?_ (fun s hs => (Symbol.within_type hs).2 ?_)
      fun _ _ => ⟨s, info, hs, hbody⟩
    · rw [SymbolBody.moved, TypeInfo.moved_stay]
    · exact ⟨hparams, fun t ht => htypes t (.inr ht), fun t ht => htypes t (.inl ht)⟩
  · refine hlooks.resolveConst name (h.imports (hready.scope (hready.outline.constScope name decl
      hdecl))) trivial (fun _ _ => .all _)
      (fun _ _ _ _ => .all _) fun value type htype => ?_
    refine hset (.const value type) ?_ (fun s hs => (Symbol.within_const hs).2 htype)
      fun _ heq => by cases heq
    rw [SymbolBody.moved, funext Ty.moved_stay, Option.map_id']

/-- Two resolutions of a package with its places moved end alike, to any
depth. -/
theorem resolveSymbol_pairs (hready : Ready R env) (henv : env.Moves m R env') (count : Nat)
    (name : String) (S₀ : Store) :
    Pairs m (Store.SoundFrom R env.outline S₀) id (resolveSymbol env count name)
      (resolveSymbol env' count name) := by
  induction count generalizing name S₀ with
  | zero => exact .throw trivial
  | succ count ih =>
    intro S S' hS
    cases hmark : S.progress.get? name with
    | some mark =>
      have hmark' : S'.progress.get? name = some mark := by rw [hS.2.progress, hmark]
      by_cases hstarted : mark = .started
      · subst hstarted
        rw [resolveSymbol_started hmark, resolveSymbol_started hmark']
        exact .error trivial
      · rw [resolveSymbol_tried hmark hstarted, resolveSymbol_tried hmark' hstarted]
        exact .ok hS
    | none =>
      have hmark' : S'.progress.get? name = none := by rw [hS.2.progress, hmark]
      have hfresh := @resolveSymbol_fresh env count name S hmark
      rw [hfresh, resolveSymbol_fresh hmark']
      -- while the declaration is resolved, the symbol is in work
      set S₁ := S.withMark name .started with hS₁
      have hconfined : Confined R env (resolveSymbol env count)
          (Store.SoundFrom R env.outline S₁) :=
        ⟨hready.within, fun S hS => hS.1.within, fun m =>
          (resolveSymbol_spec hready count m S₁).post (fun _ _ h => h.1)⟩
      have hbody := resolveBody_pairs hready ⟨hconfined, henv, fun m => ih m S₁⟩
        (Table.get?_insert_self _ _ _) S₁ (S'.withMark name .started)
        ⟨⟨hS.1.1.withMark (by simp) fun h => (nomatch h), .refl S₁⟩, moves_withMark hS.2 name _⟩
      have hspec := resolveSymbol_spec hready (count + 1) name S₀ S hS.1
      rw [hfresh] at hspec
      generalize (resolveBody env (resolveSymbol env count) name).run.run S₁ = run,
        (resolveBody env' (resolveSymbol env' count) name).run.run (S'.withMark name .started) =
          run' at hbody hspec ⊢
      cases hbody with
      | ok hends => exact .ok ⟨hspec.1, moves_withMark hends.2 name _⟩
      | error => exact .error trivial

end Declarations

end Resolving

end DeclBridge
