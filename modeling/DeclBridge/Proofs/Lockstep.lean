import DeclBridge.Proofs.ResolvedPackage

/-!
# Resolution with fewer packages

Two resolutions of the same declarations are compared: the first in a program, the second in one
that lacks the packages `M`.  They do not go through the same steps.  What lies behind an alias of a
missing package is not followed, so the second resolution may come to the symbols of the package in
another order, and it finds different ones done.  It is therefore described apart from the order:
`Always env S y b` says that `y` gives `b` in every store that a resolution may have reached, as
long as nothing that is done in `S` is in work there.

`Mirrors` is the relation between the two: wherever the first computation gives a result, the second
always gives one that is related to it.  For the symbols of the package this is an invariant of the
first resolution (`Store.Mirrored`).
-/

namespace DeclBridge

open Resolving

variable {name : String} {o : Outline} {env : Surroundings} {β : Type}

/-! ## Stores -/

namespace Store

/-- A symbol whose resolution is over. -/
def IsDone (S : Store) (name : String) : Prop := S.progress.get? name = some .done

/-- The store that the resolution of a package begins with. -/
def start (o : Outline) : Store := { symbols := o.symbols }

/-- What is done stays as it is. -/
structure Grows (S S₁ : Store) : Prop where
  marks : S.Extends S₁
  symbol : ∀ name, S.IsDone name → S₁.symbols.get? name = S.symbols.get? name

/-- Nothing is left in work that was not before. -/
structure Calm (S S₁ : Store) : Prop where
  marks : S.Extends S₁
  started : ∀ name, S₁.progress.get? name = some .started → S.progress.get? name = some .started

/-- Nothing that is done in one store is in work in the other. -/
def Clear (S S' : Store) : Prop :=
  ∀ name, S.IsDone name → S'.progress.get? name ≠ some .started

/-- The number of declared names that were not tried yet. -/
def untried (o : Outline) (S : Store) : Nat :=
  o.symbols.keys.countP fun name => (S.progress.get? name).isNone

variable {S S₁ S₂ : Store}

theorem Grows.refl (S : Store) : S.Grows S := ⟨.refl S, fun _ _ => rfl⟩

/-- What is done is never undone. -/
theorem Grows.isDone (h : S.Grows S₁) (hname : S.IsDone name) : S₁.IsDone name :=
  h.marks name .done hname

theorem Grows.trans (h : S.Grows S₁) (h' : S₁.Grows S₂) : S.Grows S₂ :=
  ⟨h.marks.trans h'.marks, fun name hname =>
    (h'.symbol name (h.isDone hname)).trans (h.symbol name hname)⟩

theorem Calm.refl (S : Store) : S.Calm S := ⟨.refl S, fun _ h => h⟩

theorem Calm.trans (h : S.Calm S₁) (h' : S₁.Calm S₂) : S.Calm S₂ :=
  ⟨h.marks.trans h'.marks, fun name hname => h.started name (h'.started name hname)⟩

/-- A calm computation does not get into the way of another store. -/
theorem Clear.calm {S' S₁' : Store} (h : S.Clear S') (hcalm : S'.Calm S₁') : S.Clear S₁' :=
  fun name hname hstarted => h name hname (hcalm.started name hstarted)

/-- The number of names that are left never rises. -/
theorem Extends.untried_le (h : S.Extends S₁) : S₁.untried o ≤ S.untried o := by
  refine List.countP_mono_left fun name _ hnone => ?_
  rw [Option.isNone_iff_eq_none] at hnone ⊢
  cases hmark : S.progress.get? name with
  | none => rfl
  | some mark =>
    rw [h name mark hmark] at hnone
    cases hnone

/-- The depth of a resolution exceeds the names that are left at its start. -/
theorem untried_lt (o : Outline) (S : Store) : S.untried o < o.symbols.size + 1 := by
  have hle : S.untried o ≤ o.symbols.keys.length := List.countP_le_length
  rw [Table.keys, List.length_map] at hle
  exact Nat.lt_succ_of_le hle

/-- Trying a declared name for the first time leaves fewer to be tried. -/
theorem untried_withMark_lt {mark : Progress}
    (hname : name ∈ o.symbols.keys) (hfree : S.progress.get? name = none) :
    (S.withMark name mark).untried o < S.untried o := by
  refine countP_lt_of_mem hname (fun name' hnone => ?_) (by simp [hfree]) ?_
  · rw [withMark, Table.get?_insert] at hnone
    split at hnone
    · cases hnone
    · exact hnone
  · rw [withMark, Table.get?_insert_self]
    rfl

end Store

/-! ## The second resolution -/

/-- What a symbol is, before it is resolved. -/
def SymbolBody.bare : SymbolBody → SymbolBody
  | .const .. => .const none none
  | .type _ => .type {}

def Symbol.bare (s : Symbol) : Symbol := { s with body := s.body.bare }

/-- What a computation gives where nothing is resolved yet. -/
def Surroundings.Finds {β : Type} (env : Surroundings)
    (y : (String → Resolving Unit) → Resolving β) (b : β) : Prop :=
  ∃ S, (y (resolveSymbol env (env.outline.symbols.size + 1))).run.run
    (Store.start env.outline) = (.ok b, S)

/-- A store that a resolution may have reached: nothing has failed, and what is done is as it would
be if it had been resolved first. -/
structure Store.Settled (env : Surroundings) (S : Store) : Prop where
  clean : ∀ name, S.progress.get? name ≠ some .failed
  bare : ∀ name, (S.symbols.get? name).map Symbol.bare =
    (env.outline.symbols.get? name).map Symbol.bare
  done : ∀ name, S.IsDone name → env.Finds (lookUp · name) (S.symbols.get? name)

/-- `y` gives `b` in every store that a resolution may have reached, where nothing is in work that
is done in `S`, and with any depth that is enough. -/
def Always {β : Type} (env : Surroundings) (S : Store)
    (y : (String → Resolving Unit) → Resolving β) (b : β) : Prop :=
  ∀ count S', S'.Settled env → S'.untried env.outline < count → S.Clear S' →
    ∃ S₁', (y (resolveSymbol env count)).run.run S' = (.ok b, S₁') ∧
      S₁'.Settled env ∧ S'.Calm S₁'

namespace Surroundings

variable {y : (String → Resolving Unit) → Resolving β} {b c : β}

theorem Finds.unique (h : env.Finds y b) (h' : env.Finds y c) : b = c := by
  obtain ⟨S, h⟩ := h
  obtain ⟨S', h'⟩ := h'
  rw [h] at h'
  exact Except.ok.inj (Prod.mk.inj h').1

end Surroundings

theorem Store.start_settled (env : Surroundings) : (Store.start env.outline).Settled env where
  clean _ h := nomatch h
  bare _ := rfl
  done _ h := nomatch h

namespace Always

variable {γ : Type} {S S₁ : Store} {y : (String → Resolving Unit) → Resolving β} {b : β}

/-- What is always found is found where nothing is resolved yet. -/
theorem finds (h : Always env S y b) : env.Finds y b := by
  obtain ⟨S₁', hrun, -, -⟩ := h _ _ (Store.start_settled env) (Store.untried_lt _ _)
    fun _ _ hstarted => nomatch hstarted
  exact ⟨S₁', hrun⟩

/-- Only what is done in a store matters. -/
theorem of_done (h : Always env S y b) (hdone : ∀ name, S.IsDone name → S₁.IsDone name) :
    Always env S₁ y b :=
  fun count S' hsettled hcount hclear => h count S' hsettled hcount fun name hname =>
    hclear name (hdone name hname)

theorem mono (h : Always env S y b) (hgrows : S.Grows S₁) : Always env S₁ y b :=
  h.of_done fun _ hname => hgrows.isDone hname

theorem pure (b : β) : Always env S (fun _ => Pure.pure b) b :=
  fun _ S' hsettled _ _ => ⟨S', rfl, hsettled, .refl S'⟩

theorem bind {g : (String → Resolving Unit) → β → Resolving γ} {c : γ} (hy : Always env S y b)
    (hg : Always env S (fun r => g r b) c) : Always env S (fun r => y r >>= g r) c := by
  intro count S' hsettled hcount hclear
  obtain ⟨S₁', hrun, hsettled₁, hcalm⟩ := hy count S' hsettled hcount hclear
  have hcount₁ := Nat.lt_of_le_of_lt (hcalm.marks.untried_le (o := env.outline)) hcount
  obtain ⟨S₂', hrun₂, hsettled₂, hcalm₂⟩ := hg count S₁' hsettled₁ hcount₁ (hclear.calm hcalm)
  refine ⟨S₂', ?_, hsettled₂, hcalm.trans hcalm₂⟩
  rw [Computation.run_bind_ok hrun, hrun₂]

theorem result (b : β) : Always env S (fun _ => lift (.ok b)) b :=
  Always.pure b

end Always

/-! ## Related results -/

/-- A constant expression whose value comes from one of the packages `M`, by way of any number of
constants. -/
inductive Outline.DependsOn (o : Outline) (M : List String) : Scope → Expr → Prop
  | imported {scope : Scope} {pos pos' : Position} {package name path : String} :
    scope.imports.get? package = some path → path ∈ M →
    DependsOn o M scope (.select pos (.ident pos' package) name)
  | constant {scope : Scope} {pos : Position} {name : String} {decl : ConstDecl} :
    o.symbols.contains name = true → o.consts.get? name = some decl →
    DependsOn o M decl.scope decl.value → DependsOn o M scope (.ident pos name)
  | operand {scope : Scope} {pos : Position} {op : UnaryOp} {x : Expr} :
    DependsOn o M scope x → DependsOn o M scope (.unary pos op x)
  | left {scope : Scope} {pos : Position} {op : BinaryOp} {x y : Expr} :
    DependsOn o M scope x → DependsOn o M scope (.binary pos op x y)
  | right {scope : Scope} {pos : Position} {op : BinaryOp} {x y : Expr} :
    DependsOn o M scope y → DependsOn o M scope (.binary pos op x y)
  | argument {scope : Scope} {pos : Position} {callee x : Expr} :
    DependsOn o M scope x → DependsOn o M scope (.call pos callee x)

/-- An operand without the packages `M`: it is the same, or its value is unknown, or nothing is
known of its type.  The kind of its type can be found out in any case. -/
structure Operand.Fades (M : List String) (env : Surroundings) (S : Store) (x x' : Operand) :
    Prop where
  kind : x.type.Alike M x'.type ∨
    ∃ k, Always env S (fun r => kindOf env r x'.type) k
  value : x'.value = x.value ∧ x.type.Alike M x'.type ∨
    M ≠ [] ∧ (x'.value = none ∨ env.Finds (fun r => kindOf env r x'.type) none)

/-- A symbol's meaning without the packages `M`. -/
inductive SymbolBody.Fades (M : List String) (env : Surroundings) (S : Store) (name : String) :
    SymbolBody → SymbolBody → Prop
  | type {info info' : TypeInfo} : info.Fades M info' → Fades M env S name (.type info) (.type info')
  | const {value value' : Option Constant} {type type' : Option Ty} :
    Operand.Fades M env S (constant value type) (constant value' type') →
    (∀ decl, env.outline.consts.get? name = some decl →
      env.outline.DependsOn M decl.scope decl.value → value' = none) →
    Fades M env S name (.const value type) (.const value' type')

/-- A symbol without the packages `M`. -/
structure Symbol.Fades (M : List String) (env : Surroundings) (S : Store) (name : String)
    (s s' : Symbol) : Prop where
  bare : s.bare = s'.bare
  body : s.body.Fades M env S name s'.body

/-- What a store of the first resolution satisfies: its symbols that are done can be resolved
without the packages `M`, too. -/
structure Store.Mirrored (M : List String) (env : Surroundings) (S : Store) : Prop where
  clean : ∀ name, S.progress.get? name ≠ some .failed
  bare : ∀ name, (S.symbols.get? name).map Symbol.bare =
    (env.outline.symbols.get? name).map Symbol.bare
  complete : ∀ name s info, S.IsDone name → S.symbols.get? name = some s → s.body = .type info →
    info.underlying ≠ none
  done : ∀ name, S.IsDone name → ∃ s', Option.Rel (Symbol.Fades M env S name)
    (S.symbols.get? name) s' ∧ Always env S (lookUp · name) s'

/-- Wherever `x` gives a result from `S`, `y` always gives one as well, and the two are related by
`V`. -/
def Mirrors {α β : Type} (M : List String) (env : Surroundings) (S : Store) (x : Resolving α)
    (y : (String → Resolving Unit) → Resolving β) (V : Store → α → β → Prop) : Prop :=
  ∀ a S₁, x.run.run S = (.ok a, S₁) →
    S₁.Mirrored M env ∧ S.Grows S₁ ∧ ∃ b, V S₁ a b ∧ Always env S₁ y b

section

variable {M : List String} {S S₁ : Store}

namespace Operand.Fades

variable {x x' : Operand}

theorem refl (x : Operand) : x.Fades M env S x := ⟨.inl (.refl _), .inl ⟨rfl, .refl _⟩⟩

theorem of_done (h : x.Fades M env S x') (hdone : ∀ name, S.IsDone name → S₁.IsDone name) :
    x.Fades M env S₁ x' :=
  ⟨h.kind.imp_right fun ⟨k, hk⟩ => ⟨k, hk.of_done hdone⟩, h.value⟩

theorem mono (h : x.Fades M env S x') (hgrows : S.Grows S₁) : x.Fades M env S₁ x' :=
  h.of_done fun _ hname => hgrows.isDone hname

/-- Without missing packages nothing fades. -/
theorem eq (h : x.Fades [] env S x') : x' = x := by
  obtain ⟨hvalue, htype⟩ | ⟨h, -⟩ := h.value
  · cases x
    cases x'
    exact congrArg₂ Operand.mk hvalue htype.eq.symm
  · exact absurd rfl h

end Operand.Fades

theorem Symbol.Fades.of_done {s s' : Symbol} (h : s.Fades M env S name s')
    (hdone : ∀ name, S.IsDone name → S₁.IsDone name) : s.Fades M env S₁ name s' := by
  refine ⟨h.bare, ?_⟩
  have hbody := h.body
  generalize s.body = body, s'.body = body' at hbody ⊢
  cases hbody with
  | type hinfo => exact .type hinfo
  | const hoperand hvalue => exact .const (hoperand.of_done hdone) hvalue

theorem fades_of_done {s s' : Option Symbol} (h : Option.Rel (Symbol.Fades M env S name) s s')
    (hdone : ∀ name, S.IsDone name → S₁.IsDone name) :
    Option.Rel (Symbol.Fades M env S₁ name) s s' := by
  cases h with
  | none => exact .none
  | some h => exact .some (h.of_done hdone)

namespace Mirrors

variable {α γ δ : Type} {x : Resolving α} {y : (String → Resolving Unit) → Resolving β}
  {V : Store → α → β → Prop} {W : Store → γ → δ → Prop}

theorem pure {a : α} {b : β} (hS : S.Mirrored M env) (h : V S a b) :
    Mirrors M env S (Pure.pure a) (fun _ => Pure.pure b) V := by
  rintro _ _ ⟨⟩
  exact ⟨hS, .refl S, b, h, Always.pure b⟩

/-- A failure of the first resolution asks nothing of the second. -/
theorem throw {e : Failure} : Mirrors M env S (MonadExcept.throw e : Resolving α) y V := nofun

theorem problem {why : Problem} {pos : Position} :
    Mirrors M env S (problem why pos : Resolving α) y V := nofun

theorem bind {f : α → Resolving γ} {g : (String → Resolving Unit) → β → Resolving δ}
    (hx : Mirrors M env S x y V)
    (hf : ∀ S₁ a b, S₁.Mirrored M env → S.Grows S₁ → V S₁ a b → Always env S₁ y b →
      Mirrors M env S₁ (f a) (fun r => g r b) W) :
    Mirrors M env S (x >>= f) (fun r => y r >>= g r) W := by
  intro c S₂ hrun
  obtain ⟨a, S₁, hrun₁, hrun₂⟩ := Computation.bind_eq_ok hrun
  obtain ⟨hS₁, hgrows₁, b, hV, hy⟩ := hx a S₁ hrun₁
  obtain ⟨hS₂, hgrows₂, d, hW, hg⟩ := hf S₁ a b hS₁ hgrows₁ hV hy c S₂ hrun₂
  exact ⟨hS₂, hgrows₁.trans hgrows₂, d, hW, (hy.mono hgrows₂).bind hg⟩

theorem mono {V' : Store → α → β → Prop} (h : Mirrors M env S x y V)
    (hV : ∀ S₁ a b, S.Grows S₁ → V S₁ a b → V' S₁ a b) : Mirrors M env S x y V' := by
  intro a S₁ hrun
  obtain ⟨hS₁, hgrows, b, hb, hy⟩ := h a S₁ hrun
  exact ⟨hS₁, hgrows, b, hV S₁ a b hgrows hb, hy⟩

/-- The second computation may be exchanged for one with a related result. -/
theorem replace {y' : (String → Resolving Unit) → Resolving δ} {V' : Store → α → δ → Prop}
    (h : Mirrors M env S x y V) (hy : ∀ S₁ a b, S₁.Mirrored M env → S.Grows S₁ → V S₁ a b →
      ∃ d, V' S₁ a d ∧ Always env S₁ y' d) : Mirrors M env S x y' V' := by
  intro a S₁ hrun
  obtain ⟨hS₁, hgrows, b, hb, -⟩ := h a S₁ hrun
  exact ⟨hS₁, hgrows, hy S₁ a b hS₁ hgrows hb⟩

/-- What is left if the second computation does nothing. -/
theorem left (h : Mirrors M env S x y V) :
    Mirrors M env S x (fun _ => Pure.pure ()) fun _ _ _ => True :=
  h.replace fun _ _ _ _ _ _ => ⟨(), trivial, Always.pure ()⟩

theorem left_bind {f : α → Resolving γ}
    (hx : Mirrors M env S x (fun _ => Pure.pure ()) fun _ _ _ => True)
    (hf : ∀ S₁ a, S₁.Mirrored M env →
      Mirrors M env S₁ (f a) (fun _ => Pure.pure ()) fun _ _ _ => True) :
    Mirrors M env S (x >>= f) (fun _ => Pure.pure ()) fun _ _ _ => True :=
  (hx.bind (g := fun _ => Pure.pure) fun S₁ a _ hS₁ _ _ _ => hf S₁ a hS₁).left

theorem result {r : Except Failure α} {r' : Except Failure β} (hS : S.Mirrored M env)
    (h : ∀ a, r = .ok a → ∃ b, r' = .ok b ∧ V S a b) :
    Mirrors M env S (lift r) (fun _ => lift r') V := by
  intro a S₁ hrun
  cases r with
  | error e => cases hrun
  | ok a' =>
    cases hrun
    obtain ⟨b, rfl, hV⟩ := h a rfl
    exact ⟨hS, .refl S, b, hV, Always.result b⟩

theorem mapM {ι η : Type} {l : List ι} {f : ι → Resolving α}
    {g : (String → Resolving Unit) → ι → Resolving α} {F : α → η} (hS : S.Mirrored M env)
    (h : ∀ i ∈ l, ∀ S : Store, S.Mirrored M env →
      Mirrors M env S (f i) (fun r => g r i) fun _ a b => F a = F b) :
    Mirrors M env S (l.mapM f) (fun r => l.mapM (g r)) fun _ as bs => as.map F = bs.map F := by
  induction l generalizing S with
  | nil =>
    simp only [List.mapM_nil]
    exact pure hS rfl
  | cons i l ih =>
    simp only [List.mapM_cons]
    refine (h i List.mem_cons_self S hS).bind fun S₁ a b hS₁ _ hab _ => ?_
    refine (ih hS₁ fun j hj => h j (List.mem_cons_of_mem i hj)).bind
      fun S₂ as bs hS₂ _ habs _ => ?_
    exact pure hS₂ (by rw [List.map_cons, List.map_cons, hab, habs])

end Mirrors

/-- What lets the functions of the first resolution be mirrored: a way to resolve another symbol
after which that one is done. -/
def Mirroring (M : List String) (env : Surroundings) (resolve : String → Resolving Unit) : Prop :=
  ∀ S name S₁, S.Mirrored M env → (resolve name).run.run S = (.ok (), S₁) →
    S₁.Mirrored M env ∧ S.Grows S₁ ∧ S₁.IsDone name

namespace Resolving

/-- Two resolutions find related symbols under a name. -/
theorem lookUp_mirrors {resolve : String → Resolving Unit} (h : Mirroring M env resolve)
    (hS : S.Mirrored M env) (name : String) : Mirrors M env S (lookUp resolve name) (lookUp · name)
      fun S₁ s s' => S₁.IsDone name ∧ Option.Rel (Symbol.Fades M env S₁ name) s s' := by
  intro s S₁ hrun
  obtain ⟨⟨⟩, S₂, hresolve, hget⟩ := Computation.bind_eq_ok hrun
  cases hget
  obtain ⟨hS₁, hgrows, hdone⟩ := h S name S₁ hS hresolve
  obtain ⟨s', hs', halways⟩ := hS₁.done name hdone
  exact ⟨hS₁, hgrows, s', ⟨hdone, hs'⟩, halways⟩

end Resolving

end

end DeclBridge
