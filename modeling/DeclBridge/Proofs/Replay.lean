import DeclBridge.Proofs.MirroredPackage

/-!
# What a package has gone through

When a package resolves, everything that its declarations are written with was resolved on the way:
each type expression, each constant expression and all their parts.  A resolution that is compared
with itself shows that the order does not matter: what was found on the way is what is found where
nothing is resolved yet (`Surroundings.Ran.finds`).  So a package that resolves can do without the
packages that it does without (`Surroundings.tolerates_of_resolves`).
-/

namespace DeclBridge

open Resolving List

variable {params : Table String Ty} {pos : Position} {name : String} {z x : Operand}
  {s : Option Symbol} {t : TypeExpr} {package : Option String} {seen : List String} {scope : Scope}
  {env : Surroundings} {iota : Option Nat} {e : Expr}

/-- A computation that gives the same result everywhere in a resolution. -/
def Steady {α : Type} (env : Surroundings) (x : (String → Resolving Unit) → Resolving α) : Prop :=
  ∀ count S, S.Mirrored [] env →
    Mirrors [] env S (x (resolveSymbol env count)) x fun _ a b => a = b

/-- A computation that gave a result in the course of a resolution. -/
def Surroundings.Ran {α : Type} (env : Surroundings)
    (x : (String → Resolving Unit) → Resolving α) (a : α) : Prop :=
  ∃ count S S₁, S.Mirrored [] env ∧ (x (resolveSymbol env count)).run.run S = (.ok a, S₁)

theorem Program.thins_self (o : Outline) (p : Program) : p.Thins [] o p :=
  ⟨fun _ => rfl, not_mem_nil, forall_mem_nil _⟩

theorem Store.start_mirrored (M : List String) (env : Surroundings) :
    (Store.start env.outline).Mirrored M env where
  clean _ h := nomatch h
  bare _ := rfl
  complete _ _ _ h := nomatch h
  done _ h := nomatch h

namespace Surroundings.Ran

variable {α β ι : Type} {x : (String → Resolving Unit) → Resolving α} {a : α}

/-- What was found on the way is what is found where nothing is resolved yet. -/
theorem finds (h : env.Ran x a) (hx : Steady env x) : env.Finds x a := by
  obtain ⟨count, S, S₁, hS, hrun⟩ := h
  obtain ⟨-, -, b, rfl, halways⟩ := hx count S hS a S₁ hrun
  exact halways.finds

/-- What stands first in a computation has run. -/
theorem head {f : (String → Resolving Unit) → α → Resolving β} {b : β}
    (h : env.Ran (fun r => x r >>= f r) b) : ∃ a, env.Ran x a := by
  obtain ⟨count, S, S₂, hS, hrun⟩ := h
  obtain ⟨a, S₁, hrun₁, -⟩ := Computation.bind_eq_ok hrun
  exact ⟨a, count, S, S₁, hS, hrun₁⟩

/-- What comes next has run with its result. -/
theorem bind {f : (String → Resolving Unit) → α → Resolving β} {b : β}
    (h : env.Ran (fun r => x r >>= f r) b) (hx : Steady env x) :
    ∃ a, env.Ran x a ∧ env.Ran (fun r => f r a) b := by
  obtain ⟨count, S, S₂, hS, hrun⟩ := h
  obtain ⟨a, S₁, hrun₁, hrun₂⟩ := Computation.bind_eq_ok hrun
  exact ⟨a, ⟨count, S, S₁, hS, hrun₁⟩, count, S₁, S₂, (hx count S hS a S₁ hrun₁).1, hrun₂⟩

/-- A computation for the members of a list was run for each. -/
theorem mapM {l : List ι} {f : (String → Resolving Unit) → ι → Resolving α} {as : List α}
    (h : env.Ran (fun r => l.mapM (f r)) as) (hf : ∀ i ∈ l, Steady env fun r => f r i) :
    ∀ i ∈ l, ∃ a, env.Ran (fun r => f r i) a := by
  induction l generalizing as with
  | nil => exact forall_mem_nil _
  | cons i l ih =>
    rw [forall_mem_cons] at hf ⊢
    simp only [mapM_cons] at h
    obtain ⟨a, ha, h⟩ := h.bind hf.1
    obtain ⟨as, has⟩ := h.head
    exact ⟨⟨a, ha⟩, ih has hf.2⟩

end Surroundings.Ran

theorem Steady.mapM {ι α : Type} {l : List ι}
    {f : (String → Resolving Unit) → ι → Resolving α} (h : ∀ i ∈ l, Steady env fun r => f r i) :
    Steady env fun r => l.mapM (f r) := fun count S hS =>
  (Mirrors.mapM (F := id) hS fun i hi S hS => h i hi count S hS).mono fun _ as bs _ h => by
    rwa [map_id, map_id] at h

namespace Resolving

/-! ## Steady computations -/

section

variable (houtline : env.outline.Sound)

include houtline

theorem resolveSymbol_mirroring_self (count : Nat) : Mirroring [] env (resolveSymbol env count) :=
  resolveSymbol_mirroring (Program.thins_self _ _) houtline (absurd rfl) (absurd rfl) count

theorem eval_steady (he : env.outline.Evaluates scope iota e) :
    Steady env fun r => eval env r scope iota e := fun count _ hS =>
  (eval_mirrors (Program.thins_self _ _) (resolveSymbol_mirroring_self houtline count)
    (absurd rfl) (absurd rfl) hS e he).mono fun _ _ _ _ hx => hx.1.eq.symm

theorem arrayLength_steady {length : Expr} {elem : TypeExpr}
    (hwrites : env.outline.Writes scope (.array pos length elem)) :
    Steady env fun r => arrayLength env r scope pos length := fun count _ hS =>
  arrayLength_mirrors (Program.thins_self _ _) (resolveSymbol_mirroring_self houtline count)
    (absurd rfl) (absurd rfl) hS hwrites

theorem typeOf_steady (hwrites : env.outline.Writes scope t) :
    Steady env fun r => typeOf env r scope params t := fun count _ hS =>
  (typeOf_mirrors (Program.thins_self _ _) (resolveSymbol_mirroring_self houtline count)
    (absurd rfl) (absurd rfl) hS t hwrites).mono fun _ _ _ _ ht => ht.eq

omit houtline in
theorem typeNamed_steady {args : List Ty} :
    Steady env fun _ => typeNamed env scope params pos package name args := fun _ _ hS =>
  (typeNamed_mirrors (Program.thins_self _ _) hS rfl).mono fun _ _ _ _ ht => ht.eq

theorem kindOf_steady {t : Ty} : Steady env fun r => kindOf env r t := fun count _ hS =>
  (kindOf_mirrors (Program.thins_self _ _) (resolveSymbol_mirroring_self houtline count) hS
    (.refl t)).mono fun _ _ _ _ hk => by
      rcases hk.2 with hk | ⟨hM, -⟩
      · exact hk.symm
      · exact absurd rfl hM

theorem fieldOf_steady {d : FieldDecl TypeExpr}
    (hd : ∀ t, d.type? = some t → env.outline.Writes scope t) :
    Steady env fun r => fieldOf env r scope params seen d := fun count _ hS => by
  have hfield (f : Field Ty) : stubbedField [] f = f := by rw [stubbedField, Ty.stubbed_nil]
  refine (fieldOf_mirrors (Program.thins_self _ _) hS fun t ht S hS =>
    typeOf_mirrors (Program.thins_self _ _) (resolveSymbol_mirroring_self houtline count)
      (absurd rfl) (absurd rfl) hS t (hd t ht)).mono fun _ fs fs' _ hfs => ?_
  rwa [funext hfield, map_id', map_id'] at hfs

theorem termOf_steady {t : Term TypeExpr}
    (hwrites : env.outline.Writes scope t.type) :
    Steady env fun r => termOf env r scope params t := fun count S hS => by
  obtain ⟨tilde, type⟩ := t
  simp only [termOf]
  refine (typeOf_steady houtline hwrites count S hS).bind fun S₁ u v hS₁ _ huv _ => ?_
  exact Mirrors.pure hS₁ (by rw [huv])

/-! ## Parts of type expressions -/

theorem fieldsOf_ran {ds : List (FieldDecl TypeExpr)}
    (hds : ∀ d ∈ ds, ∀ t, d.type? = some t → env.outline.Writes scope t)
    {fs : List (Field Ty)} (h : env.Ran (fun r => fieldsOf env r scope params seen ds) fs) :
    ∀ d ∈ ds, ∀ t, d.type? = some t → ∃ u, env.Ran (fun r => typeOf env r scope params t) u := by
  induction ds generalizing seen fs with
  | nil => exact forall_mem_nil _
  | cons d ds ih =>
    rw [forall_mem_cons] at hds ⊢
    simp only [fieldsOf] at h
    obtain ⟨fields, hfields, h⟩ := h.bind (fieldOf_steady houtline hds.1)
    refine ⟨fun t ht => ?_, ?_⟩
    · cases d with
      | named pos names t' tag =>
        cases ht
        simp only [fieldOf] at hfields
        exact hfields.head
      | embedded => cases ht
    · obtain ⟨more, hmore⟩ := h.head
      exact ih hds.2 hmore

/-- Where a type expression was resolved, its parts were. -/
theorem typeOf_part_ran {c : TypeExpr} {u : Ty}
    (hwrites : env.outline.Writes scope t) (h : env.Ran (fun r => typeOf env r scope params t) u)
    (hc : c ∈ t.children) : ∃ v, env.Ran (fun r => typeOf env r scope params c) v := by
  have hsteady {c : TypeExpr} (hc : c ∈ t.children) :
      Steady env fun r => typeOf env r scope params c := typeOf_steady houtline (hwrites.part hc)
  cases t with
  | ref pos package name args | interface pos embeds methods =>
    simp only [typeOf, typesOf_eq] at h
    obtain ⟨as, has⟩ := h.head
    exact has.mapM (fun _ hi => hsteady hi) c hc
  | pointer pos elem | slice pos elem | chan pos dir elem =>
    obtain rfl := mem_singleton.1 hc
    simp only [typeOf] at h
    exact h.head
  | array pos length elem =>
    obtain rfl := mem_singleton.1 hc
    simp only [typeOf] at h
    obtain ⟨n, -, h⟩ := h.bind (arrayLength_steady houtline hwrites)
    exact h.head
  | map pos key elem =>
    simp only [typeOf] at h
    obtain ⟨k, hk, h⟩ := h.bind (hsteady mem_cons_self)
    rcases mem_cons.1 hc with rfl | hc
    · exact ⟨k, hk⟩
    · obtain rfl := mem_singleton.1 hc
      exact h.head
  | func pos ps rs variadic =>
    simp only [typeOf, typesOf_eq] at h
    obtain ⟨as, has, h⟩ := h.bind (.mapM fun _ hi => hsteady (mem_append_left rs hi))
    rcases mem_append.1 hc with hc | hc
    · exact has.mapM (fun _ hi => hsteady (mem_append_left rs hi)) c hc
    · obtain ⟨bs, hbs⟩ := h.head
      exact hbs.mapM (fun _ hi => hsteady (mem_append_right ps hi)) c hc
  | struct pos fields =>
    simp only [typeOf] at h
    obtain ⟨fs, hfs⟩ := h.head
    obtain ⟨d, hd, ht⟩ := mem_filterMap.1 hc
    exact fieldsOf_ran houtline
      (fun d hd t ht => hwrites.part (mem_filterMap.2 ⟨d, hd, ht⟩)) hfs d hd c ht
  | union pos terms =>
    simp only [typeOf, termsOf_eq] at h
    obtain ⟨as, has⟩ := h.head
    obtain ⟨⟨tilde, type⟩, hterm, rfl⟩ := mem_map.1 hc
    obtain ⟨a, ha⟩ := has.mapM (fun _ hi => termOf_steady houtline
      (hwrites.part (mem_map_of_mem hi))) _ hterm
    simp only [termOf] at ha
    exact ha.head

theorem paramsOf_ran {decls : List TypeParamDecl}
    (hwrites : ∀ d ∈ decls, env.outline.Writes scope d.constraint) {ps : List TypeParam}
    (h : env.Ran (fun r => paramsOf env r scope params decls) ps) :
    ∀ d ∈ decls, ∃ u, env.Ran (fun r => typeOf env r scope params d.constraint) u := by
  induction decls generalizing ps with
  | nil => exact forall_mem_nil _
  | cons d decls ih =>
    rw [forall_mem_cons] at hwrites ⊢
    simp only [paramsOf] at h
    obtain ⟨t, ht, h⟩ := h.bind (typeOf_steady houtline hwrites.1)
    obtain ⟨more, hmore⟩ := h.head
    exact ⟨⟨t, ht⟩, ih hwrites.2 hmore⟩

/-! ## Declarations -/

omit houtline in
/-- A symbol is found by resolving its declaration. -/
theorem resolveBody_of_finds (h : env.Finds (lookUp · name) s) :
    ∃ S₁, (resolveBody env (resolveSymbol env env.outline.symbols.size) name).run.run
      ((Store.start env.outline).withMark name .started) = (.ok (), S₁) := by
  obtain ⟨S, hrun⟩ := h
  obtain ⟨⟨⟩, S₂, hresolve, -⟩ := Computation.bind_eq_ok hrun
  obtain ⟨S₁, hbody, -⟩ := (resolveSymbol_fresh_ok rfl).1 hresolve
  exact ⟨S₁, hbody⟩

/-- Where a declared type was resolved, what it is declared with was. -/
theorem typeDecl_ran {decl : TypeDecl} (hdeclares : env.outline.DeclaresType name)
    (hdecl : env.outline.types.get? name = some decl) (h : env.Finds (lookUp · name) s) :
    ∃ params, (∃ ps, env.Ran (fun r => paramsOf env r decl.scope params decl.spec.params) ps) ∧
      ∃ u, env.Ran (fun r => typeOf env r decl.scope params decl.spec.type) u := by
  obtain ⟨S₁, hrun⟩ := resolveBody_of_finds h
  obtain ⟨symbol, info, hsymbol, hbody⟩ := id hdeclares
  simp only [resolveBody, hsymbol, hbody, hdecl, resolveType] at hrun
  have hstart : ((Store.start env.outline).withMark name .started).Mirrored [] env :=
    (Store.start_mirrored [] env).withStart fun h => by cases h
  have hstarted : ((Store.start env.outline).withMark name .started).progress.get? name =
      some .started := Table.get?_insert_self _ _ _
  obtain ⟨ps, S₂, hparams, hrun⟩ := Computation.bind_eq_ok hrun
  obtain ⟨hS₂, hgrows, -⟩ := paramsOf_mirrors (Program.thins_self _ _)
    (resolveSymbol_mirroring_self houtline _) (absurd rfl) (absurd rfl) hstart decl.spec.params
    (fun d hd => .constraint hdeclares hdecl hd) ps S₂ hparams
  have hname := Store.not_isDone_of_started (hgrows.marks name .started hstarted)
  obtain ⟨⟨⟩, S₃, hset, hrun⟩ := Computation.bind_eq_ok hrun
  cases hset
  obtain ⟨u, S₄, htype, -⟩ := Computation.bind_eq_ok hrun
  exact ⟨_, ⟨ps, _, _, S₂, hstart, hparams⟩, u, _, _, S₄,
    hS₂.withBody hname (Store.fits_type hdeclares _), htype⟩

/-- Where a declared constant was resolved, its expression was evaluated and converted. -/
theorem constDecl_ran {decl : ConstDecl} (hdeclares : env.outline.DeclaresConst name)
    (hdecl : env.outline.consts.get? name = some decl) (h : env.Finds (lookUp · name) s) :
    ∃ x, env.Ran (fun r => eval env r decl.scope (some decl.spec.iota) decl.value) x ∧
      ∀ te, decl.spec.type = some te → ∃ t z, env.Ran (fun r => typeOf env r decl.scope {} te) t ∧
          env.Ran (fun r => convert env r x t decl.spec.pos) z := by
  obtain ⟨S₁, hrun⟩ := resolveBody_of_finds h
  obtain ⟨symbol, value, type, hsymbol, hbody⟩ := id hdeclares
  simp only [resolveBody, hsymbol, hbody, hdecl, resolveConst] at hrun
  have hran : env.Ran (fun r => resolveConst env r name decl) () :=
    ⟨_, _, S₁, (Store.start_mirrored [] env).withStart (fun h => by cases h), hrun⟩
  simp only [resolveConst] at hran
  obtain ⟨x, hx, hran⟩ := hran.bind (eval_steady houtline (.constant hdeclares hdecl))
  refine ⟨x, hx, fun te hte => ?_⟩
  simp only [hte] at hran
  obtain ⟨t, ht, hran⟩ := hran.bind (typeOf_steady houtline (.constant hdeclares hdecl hte))
  obtain ⟨z, hz⟩ := hran.head
  exact ⟨t, z, ht, hz⟩

/-! ## Calls -/

/-- Where a value was converted to a type, the type was looked up and the value computed. -/
theorem conversion_ran {pos' : Position} (he : env.outline.Evaluates scope iota e)
    (h : env.Ran (fun r => do
      let target ← typeNamed env scope {} pos' package name []
      convert env r (← eval env r scope iota e) target pos) z) :
    ∃ t x, env.Ran (fun _ => typeNamed env scope {} pos' package name []) t ∧
      env.Ran (fun r => eval env r scope iota e) x ∧ env.Ran (fun r => convert env r x t pos) z := by
  obtain ⟨t, ht, h⟩ := h.bind typeNamed_steady
  obtain ⟨x, hx, h⟩ := h.bind (eval_steady houtline he)
  exact ⟨t, x, ht, hx, h⟩

/-- Where a call was evaluated, its argument was. -/
theorem argument_ran {callee : Expr} (he : env.outline.Evaluates scope iota (.call pos callee e))
    (h : env.Ran (fun r => eval env r scope iota (.call pos callee e)) z) :
    ∃ x, env.Ran (fun r => eval env r scope iota e) x := by
  have hconversion {package : Option String} {name : String} {pos' : Position}
      (h : env.Ran (fun r => do
        let target ← typeNamed env scope {} pos' package name []
        convert env r (← eval env r scope iota e) target pos) z) :
      ∃ x, env.Ran (fun r => eval env r scope iota e) x := by
    obtain ⟨t, x, -, hx, -⟩ := conversion_ran houtline he.argument h
    exact ⟨x, hx⟩
  obtain ⟨count, S, S₁, hS, hrun⟩ := h
  unfold eval at hrun
  dsimp only at hrun
  split at hrun
  · split at hrun
    · have hlength : env.Ran (fun r => do lengthOf pos (← eval env r scope iota e)) z :=
        ⟨count, S, S₁, hS, hrun⟩
      exact hlength.head
    · exact hconversion ⟨count, S, S₁, hS, hrun⟩
  · exact hconversion ⟨count, S, S₁, hS, hrun⟩
  · cases hrun

/-! ## What has to be known -/

/-- Where an operator was computed, the types of its operands go together. -/
theorem common?_of_ran {op : BinaryOp} {y : Operand} (hop : ¬ (op = .shiftLeft ∨ op = .shiftRight))
    (h : env.Ran (fun r => binary env r op pos x y) z) : (x.type.common? y.type).isSome = true := by
  simp only [binary_eq hop] at h
  obtain ⟨t, h⟩ := h.head
  simp only [commonType_eq] at h
  obtain ⟨_, -, h⟩ := h.bind (kindOf_steady houtline)
  obtain ⟨_, -, h⟩ := h.bind (kindOf_steady houtline)
  cases hcommon : x.type.common? y.type with
  | some t => rfl
  | none =>
    simp only [hcommon] at h
    obtain ⟨_, _, _, _, hrun⟩ := h
    cases hrun

/-- Where a value was converted to a type without a kind, nothing is known of the type. -/
theorem isStub_of_convert {t : Ty}
    (h : env.Ran (fun r => convert env r x t pos) z) (hkind : env.HasKind t none) :
    env.IsStub t := by
  obtain ⟨count, S, S₂, hS, hrun⟩ := h
  simp only [convert_eq] at hrun
  obtain ⟨k, S₁, hk, hrun⟩ := Computation.bind_eq_ok hrun
  obtain ⟨hS₁, -, -, ⟨hdone, -⟩, -⟩ := kindOf_mirrors (Program.thins_self _ _)
    (resolveSymbol_mirroring_self houtline count) hS (.refl t) k S₁ hk
  have hran : env.Ran (fun r => kindOf env r t) k := ⟨count, S, S₁, hS, hk⟩
  obtain rfl := hkind.unique (hran.finds (kindOf_steady houtline))
  exact (isStub_of_convertTo (Program.thins_self _ _) hS₁ (.refl t) hdone hrun).1

end

end Resolving

/-! ## Packages that resolve -/

/-- Every declared symbol can be resolved where nothing is resolved yet. -/
def Surroundings.Resolves (env : Surroundings) : Prop :=
  ∀ name, env.outline.symbols.contains name = true → ∃ s, env.Finds (lookUp · name) s

section

variable (houtline : env.outline.Sound) (hresolves : env.Resolves)

include houtline hresolves

/-- Every type expression was resolved on the way. -/
theorem Outline.Writes.ran (h : env.outline.Writes scope t) :
    ∃ params u, env.Ran (fun r => typeOf env r scope params t) u := by
  induction h with
  | type hdeclares hdecl =>
    obtain ⟨s, info, hs, -⟩ := id hdeclares
    obtain ⟨s', hfinds⟩ := hresolves _ (Table.contains_of_get? hs)
    obtain ⟨params, -, hran⟩ := typeDecl_ran houtline hdeclares hdecl hfinds
    exact ⟨params, hran⟩
  | constraint hdeclares hdecl hparam =>
    obtain ⟨s, info, hs, -⟩ := id hdeclares
    obtain ⟨s', hfinds⟩ := hresolves _ (Table.contains_of_get? hs)
    obtain ⟨params, ⟨ps, hran⟩, -⟩ := typeDecl_ran houtline hdeclares hdecl hfinds
    exact ⟨params, paramsOf_ran houtline
      (fun d hd => .constraint hdeclares hdecl hd) hran _ hparam⟩
  | constant hdeclares hdecl htype =>
    obtain ⟨s, value, type, hs, -⟩ := id hdeclares
    obtain ⟨s', hfinds⟩ := hresolves _ (Table.contains_of_get? hs)
    obtain ⟨x, -, hconverts⟩ := constDecl_ran houtline hdeclares hdecl hfinds
    obtain ⟨t, z, hran, -⟩ := hconverts _ htype
    exact ⟨{}, t, hran⟩
  | part hwrites hc ih =>
    obtain ⟨params, u, hran⟩ := ih
    exact ⟨params, typeOf_part_ran houtline hwrites hran hc⟩

/-- Every constant expression was evaluated on the way. -/
theorem Outline.Evaluates.ran (h : env.outline.Evaluates scope iota e) :
    ∃ x, env.Ran (fun r => eval env r scope iota e) x := by
  induction h with
  | constant hdeclares hdecl =>
    obtain ⟨s, value, type, hs, -⟩ := id hdeclares
    obtain ⟨s', hfinds⟩ := hresolves _ (Table.contains_of_get? hs)
    obtain ⟨x, hx, -⟩ := constDecl_ran houtline hdeclares hdecl hfinds
    exact ⟨x, hx⟩
  | length hwrites =>
    obtain ⟨params, u, hran⟩ := hwrites.ran houtline hresolves
    simp only [typeOf, arrayLength] at hran
    obtain ⟨n, hn⟩ := hran.head
    exact hn.head
  | operand _ ih | left _ ih =>
    obtain ⟨z, hz⟩ := ih
    simp only [eval] at hz
    exact hz.head
  | right he ih =>
    obtain ⟨z, hz⟩ := ih
    simp only [eval] at hz
    obtain ⟨x, -, hz⟩ := hz.bind (eval_steady houtline he.left)
    exact hz.head
  | argument he ih =>
    obtain ⟨z, hz⟩ := ih
    exact argument_ran houtline he hz

/-- What a resolution needs to know, it knew. -/
theorem Surroundings.tolerates_of_resolves : env.Tolerates where
  operators {scope iota pos op e f x y} he hop hx hy := by
    obtain ⟨z, hz⟩ := he.ran houtline hresolves
    simp only [eval] at hz
    obtain ⟨x', hx', hz⟩ := hz.bind (eval_steady houtline he.left)
    obtain ⟨y', hy', hz⟩ := hz.bind (eval_steady houtline he.right)
    obtain rfl := hx.unique (hx'.finds (eval_steady houtline he.left))
    obtain rfl := hy.unique (hy'.finds (eval_steady houtline he.right))
    exact common?_of_ran houtline hop hz
  conversions hconverts hkind := by
    cases hconverts with
    | named he hlen ht =>
      obtain ⟨z, hz⟩ := he.ran houtline hresolves
      simp only [eval, Bool.not_eq_true', if_neg hlen] at hz
      obtain ⟨t', x, ht', -, hz⟩ := conversion_ran houtline he.argument hz
      obtain rfl := ht.unique (ht'.finds typeNamed_steady)
      exact isStub_of_convert houtline hz hkind
    | qualified he ht =>
      obtain ⟨z, hz⟩ := he.ran houtline hresolves
      simp only [eval] at hz
      obtain ⟨t', x, ht', -, hz⟩ := conversion_ran houtline he.argument hz
      obtain rfl := ht.unique (ht'.finds typeNamed_steady)
      exact isStub_of_convert houtline hz hkind
    | constant hdeclares hdecl hte ht =>
      obtain ⟨s, value, type, hs, -⟩ := id hdeclares
      obtain ⟨s', hfinds⟩ := hresolves _ (Table.contains_of_get? hs)
      obtain ⟨x, -, hall⟩ := constDecl_ran houtline hdeclares hdecl hfinds
      obtain ⟨t', z, ht', hz⟩ := hall _ hte
      obtain rfl := ht.unique (ht'.finds
        (typeOf_steady houtline (.constant hdeclares hdecl hte)))
      exact isStub_of_convert houtline hz hkind
  lengths {scope pos length elem x} hwrites hx := by
    obtain ⟨params, u, hran⟩ := hwrites.ran houtline hresolves
    simp only [typeOf] at hran
    obtain ⟨n, hn⟩ := hran.head
    simp only [arrayLength] at hn
    obtain ⟨x', hx', hn⟩ := hn.bind (eval_steady houtline (.length hwrites))
    obtain rfl := hx.unique (hx'.finds (eval_steady houtline (.length hwrites)))
    intro hnone
    simp only [hnone] at hn
    obtain ⟨_, _, _, _, hrun⟩ := hn
    cases hrun

end

end DeclBridge
