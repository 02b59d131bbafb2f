import DeclBridge.Proofs.UnknownValues

/-!
# Declarations that tolerate missing packages

A constant or a type can be resolved without some of the packages that it depends on, unless it
needs to know something that only they can tell.  There are three such places
(`Surroundings.Tolerates`): the length of an array must have a value, a conversion must lead to a
basic kind or to a type of which nothing is known, and the types of two operands must go together.

A constant that is converted to a type of which nothing is known keeps its value without being
converted.  What an operator makes of such a value is left aside (`Surroundings.KindsKnown`).
-/

namespace DeclBridge

open Resolving List

variable {scope : Scope} {params : Table String Ty} {pos : Position} {seen : List String}
    {iota : Option Nat}

def Outline.DeclaresConst (o : Outline) (name : String) : Prop :=
  ∃ s value type, o.symbols.get? name = some s ∧ s.body = .const value type

/-- A type expression that a package's declarations are written with, in the file where it stands.
-/
inductive Outline.Writes (o : Outline) : Scope → TypeExpr → Prop
  | type {name : String} {decl : TypeDecl} : o.DeclaresType name → o.types.get? name = some decl →
    Writes o decl.scope decl.spec.type
  | constraint {name : String} {decl : TypeDecl} {param : TypeParamDecl} : o.DeclaresType name →
    o.types.get? name = some decl → param ∈ decl.spec.params → Writes o decl.scope param.constraint
  | constant {name : String} {decl : ConstDecl} {t : TypeExpr} : o.DeclaresConst name →
    o.consts.get? name = some decl → decl.spec.type = some t → Writes o decl.scope t
  | part {scope : Scope} {t c : TypeExpr} : Writes o scope t → c ∈ t.children → Writes o scope c

/-- A constant expression that a package's declarations are written with, in the file and the line
of a constant group where it stands. -/
inductive Outline.Evaluates (o : Outline) : Scope → Option Nat → Expr → Prop
  | constant {name : String} {decl : ConstDecl} : o.DeclaresConst name →
    o.consts.get? name = some decl → Evaluates o decl.scope (some decl.spec.iota) decl.value
  | length {scope : Scope} {pos : Position} {length : Expr} {elem : TypeExpr} :
    o.Writes scope (.array pos length elem) → Evaluates o scope none length
  | operand {scope : Scope} {iota : Option Nat} {pos : Position} {op : UnaryOp} {x : Expr} :
    Evaluates o scope iota (.unary pos op x) → Evaluates o scope iota x
  | left {scope : Scope} {iota : Option Nat} {pos : Position} {op : BinaryOp} {x y : Expr} :
    Evaluates o scope iota (.binary pos op x y) → Evaluates o scope iota x
  | right {scope : Scope} {iota : Option Nat} {pos : Position} {op : BinaryOp} {x y : Expr} :
    Evaluates o scope iota (.binary pos op x y) → Evaluates o scope iota y
  | argument {scope : Scope} {iota : Option Nat} {pos : Position} {callee x : Expr} :
    Evaluates o scope iota (.call pos callee x) → Evaluates o scope iota x

namespace Surroundings

/-- What an expression is evaluated to, where nothing is resolved yet. -/
def Sees (env : Surroundings) (scope : Scope) (iota : Option Nat) (e : Expr) (x : Operand) : Prop :=
  env.Finds (fun r => eval env r scope iota e) x

/-- What kind a type has, where nothing is resolved yet. -/
def HasKind (env : Surroundings) (t : Ty) (k : Option Kind) : Prop :=
  env.Finds (fun r => kindOf env r t) k

/-- An expression whose value is converted to a type, by a call or by the type of a constant. -/
inductive Converts (env : Surroundings) : Scope → Option Nat → Expr → Ty → Prop
  | named {scope : Scope} {iota : Option Nat} {pos pos' : Position} {name : String} {x : Expr}
      {t : Ty} :
    env.outline.Evaluates scope iota (.call pos (.ident pos' name) x) →
    ¬ (name = "len" ∧ env.outline.symbols.contains name = false) →
    env.Finds (fun _ => typeNamed env scope {} pos' none name []) t →
    Converts env scope iota x t
  | qualified {scope : Scope} {iota : Option Nat} {pos pos' pos'' : Position}
      {package name : String} {x : Expr} {t : Ty} :
    env.outline.Evaluates scope iota (.call pos (.select pos' (.ident pos'' package) name) x) →
    env.Finds (fun _ => typeNamed env scope {} pos' (some package) name []) t →
    Converts env scope iota x t
  | constant {name : String} {decl : ConstDecl} {te : TypeExpr} {t : Ty} :
    env.outline.DeclaresConst name → env.outline.consts.get? name = some decl →
    decl.spec.type = some te →
    env.Finds (fun r => typeOf env r decl.scope {} te) t →
    Converts env decl.scope (some decl.spec.iota) decl.value t

/-- An expression whose value is worked with: an operand, the length of an array, the argument of
`len`, or what is converted to a basic kind. -/
inductive Uses (env : Surroundings) : Scope → Option Nat → Expr → Prop
  | operand {scope : Scope} {iota : Option Nat} {pos : Position} {op : UnaryOp} {x : Expr} :
    env.outline.Evaluates scope iota (.unary pos op x) → Uses env scope iota x
  | left {scope : Scope} {iota : Option Nat} {pos : Position} {op : BinaryOp} {x y : Expr} :
    env.outline.Evaluates scope iota (.binary pos op x y) → Uses env scope iota x
  | right {scope : Scope} {iota : Option Nat} {pos : Position} {op : BinaryOp} {x y : Expr} :
    env.outline.Evaluates scope iota (.binary pos op x y) → Uses env scope iota y
  | measured {scope : Scope} {iota : Option Nat} {pos pos' : Position} {x : Expr} :
    env.outline.Evaluates scope iota (.call pos (.ident pos' "len") x) →
    env.outline.symbols.contains "len" = false → Uses env scope iota x
  | converted {scope : Scope} {iota : Option Nat} {x : Expr} {t : Ty} {k : Kind} :
    env.Converts scope iota x t → env.HasKind t (some k) → Uses env scope iota x
  | length {scope : Scope} {pos : Position} {length : Expr} {elem : TypeExpr} :
    env.outline.Writes scope (.array pos length elem) → Uses env scope none length

/-- Where a value is worked with, the kind of its type is known. -/
def KindsKnown (env : Surroundings) : Prop :=
  ∀ {scope : Scope} {iota : Option Nat} {e : Expr} {x : Operand}, env.Uses scope iota e →
    env.Sees scope iota e x → x.Kinded env

/-- Nothing that only a missing package could tell is needed. -/
structure Tolerates (env : Surroundings) : Prop where
  /-- The types of two operands go together. -/
  operators : ∀ {scope : Scope} {iota : Option Nat} {pos : Position} {op : BinaryOp} {e f : Expr}
    {x y : Operand}, env.outline.Evaluates scope iota (.binary pos op e f) →
    ¬ (op = .shiftLeft ∨ op = .shiftRight) → env.Sees scope iota e x → env.Sees scope iota f y →
    (x.type.common? y.type).isSome = true
  /-- A conversion leads to a basic kind, or to a type of which nothing is known. -/
  conversions : ∀ {scope : Scope} {iota : Option Nat} {e : Expr} {t : Ty},
    env.Converts scope iota e t → env.HasKind t none → env.IsStub t
  /-- The length of an array has a value. -/
  lengths : ∀ {scope : Scope} {pos : Position} {length : Expr} {elem : TypeExpr} {x : Operand},
    env.outline.Writes scope (.array pos length elem) → env.Sees scope none length x →
    x.value ≠ none

end Surroundings

namespace Resolving

variable {M : List String} {env : Surroundings} {p : Program}
  {resolve : String → Resolving Unit}
  {S : Store}

/-! ## Constants -/

theorem evalName_mirrors (hresolve : Mirroring M env resolve)
    (hS : S.Mirrored M env) {name : String} :
    Mirrors M env S (evalName (env.amid p) resolve iota pos name)
      (fun r => evalName env r iota pos name) fun S₁ x x' => x.Fades M env S₁ x' ∧
        (env.outline.DependsOn M scope (.ident pos name) → x'.value = none) := by
  cases hs : env.outline.symbols.get? name with
  | none =>
    have hdepends : ¬ env.outline.DependsOn M scope (.ident pos name) := by
      rintro (_ | ⟨hcontains, _, _⟩)
      obtain ⟨s, hs'⟩ := Table.contains_iff.1 hcontains
      cases hs.symm.trans hs'
    simp only [evalName, hs]
    split
    · split
      · exact .pure hS ⟨.refl _, fun hd => absurd hd hdepends⟩
      · exact .problem
    · exact .pure hS ⟨.refl _, fun hd => absurd hd hdepends⟩
    · exact .pure hS ⟨.refl _, fun hd => absurd hd hdepends⟩
    · exact .problem
  | some s =>
    cases hbody : s.body with
    | type info =>
      simp only [evalName, hs, hbody]
      exact .problem
    | const value type =>
      simp only [evalName_const (env.amid p) hs hbody, evalName_const env hs hbody]
      refine (lookUp_mirrors hresolve hS name).bind fun S₁ s s' hS₁ _ hfound _ => ?_
      obtain ⟨_, hfades⟩ := hfound
      cases hfades with
      | none => exact .problem
      | @some s s' hfades =>
        have hbodies := hfades.body
        simp only [Option.map_some]
        generalize s.body = body, s'.body = body' at hbodies ⊢
        cases hbodies with
        | type => exact .problem
        | const hoperand hvalue =>
          refine .pure hS₁ ⟨hoperand, ?_⟩
          rintro (_ | ⟨_, hdecl, hdepends⟩)
          exact hvalue _ hdecl hdepends

section

variable (h : p.Thins M env.outline env.program) (hresolve : Mirroring M env resolve)
  (htolerates : M ≠ [] → env.Tolerates)
  (hkinds : M ≠ [] → env.KindsKnown)

include h hresolve htolerates hkinds

/-- A constant expression has the same value and type, or its value is unknown, or nothing is known
of its type. -/
theorem eval_mirrors (hS : S.Mirrored M env) (e : Expr) (he : env.outline.Evaluates scope iota e) :
    Mirrors M env S (eval (env.amid p) resolve scope iota e)
      (fun r => eval env r scope iota e) fun S₁ x x' => x.Fades M env S₁ x' ∧
        (env.outline.DependsOn M scope e → x'.value = none) := by
  induction e generalizing S with
  | lit pos l =>
    unfold eval
    cases (l.constant pos).mapError (Failure.ofRefusal pos) with
    | error => exact .throw
    | ok c => exact .pure hS ⟨.refl _, fun hd => by cases hd⟩
  | ident pos name => exact evalName_mirrors hresolve hS
  | select pos x name =>
    unfold eval
    split
    · exact evalImported_mirrors h hS
    · exact .problem
  | unary pos op e ih =>
    unfold eval
    refine (ih hS he.operand).bind fun S₁ x x' hS₁ _ ⟨hx, hdepends⟩ hsees => ?_
    refine (unary_mirrors h hresolve hS₁ hx fun hM =>
      hkinds hM (.operand he) hsees.finds).mono fun S₂ z z' _ hz => ⟨hz.1, ?_⟩
    intro hd
    cases hd with
    | operand hd => exact hz.2 (hdepends hd)
  | binary pos op e f ihe ihf =>
    unfold eval
    refine (ihe hS he.left).bind fun S₁ x x' hS₁ _ ⟨hx, hdepends⟩ hsees => ?_
    refine (ihf hS₁ he.right).bind fun S₂ y y' hS₂ hgrows ⟨hy, hdepends'⟩ hsees' => ?_
    refine (binary_mirrors h hresolve hS₂ (hx.mono hgrows)
      (fun hM => hkinds hM (.left he) hsees.finds) hy
      (fun hM => hkinds hM (.right he) hsees'.finds)
      fun hM hop => (htolerates hM).operators he hop hsees.finds hsees'.finds).mono
      fun S₃ z z' _ hz => ⟨hz.1, ?_⟩
    intro hd
    cases hd with
    | left hd => exact hz.2 (.inl (hdepends hd))
    | right hd => exact hz.2 (.inr (hdepends' hd))
  | call pos callee e _ ih =>
    unfold eval
    have hdepends {scope : Scope} (hd : env.outline.DependsOn M scope (.call pos callee e)) :
        env.outline.DependsOn M scope e := by
      cases hd with
      | argument hd => exact hd
    have hconvert {pos' : Position} {package : Option String} {name : String}
        (hconverts : ∀ {t}, env.Finds
          (fun _ => typeNamed env scope {} pos' package name []) t →
          env.Converts scope iota e t) :
        Mirrors M env S (do
            let target ← typeNamed (env.amid p) scope {} pos' package name []
            convert (env.amid p) resolve (← eval (env.amid p) resolve scope iota e) target pos)
          (fun r => do
            let target ← typeNamed env scope {} pos' package name []
            convert env r (← eval env r scope iota e) target pos)
          fun S₁ x x' => x.Fades M env S₁ x' ∧
            (env.outline.DependsOn M scope (.call pos callee e) → x'.value = none) := by
      refine (typeNamed_mirrors h hS rfl).bind fun S₁ t t' hS₁ _ ht htarget => ?_
      refine (ih hS₁ he.argument).bind fun S₂ x x' hS₂ _ ⟨hx, hunknown⟩ hsees => ?_
      have hconverts := hconverts htarget.finds
      exact (convert_mirrors h hresolve hS₂ hx ht
        (fun hM k hk => hkinds hM (.converted hconverts hk) hsees.finds)
        fun hM hnone => (htolerates hM).conversions hconverts hnone).mono
        fun S₃ z z' _ hz => ⟨hz.1, fun hd => hz.2 (hunknown (hdepends hd))⟩
    split
    · rename_i pos' name
      split
      · rename_i hlen
        obtain ⟨rfl, hcontains⟩ := hlen
        refine (ih hS he.argument).bind fun S₁ x x' hS₁ _ ⟨hx, hunknown⟩ hsees => ?_
        exact (lengthOf_mirrors hS₁ hx fun hM => hkinds hM
          (.measured he (by simpa using hcontains)) hsees.finds).mono
          fun S₂ z z' _ hz => ⟨hz.1, fun hd => hz.2 (hunknown (hdepends hd))⟩
      · rename_i hlen
        exact hconvert (.named he (by simpa using hlen))
    · exact hconvert (.qualified he)
    · exact .problem

/-! ## Type expressions -/

theorem arrayLength_mirrors (hS : S.Mirrored M env)
    {length : Expr} {elem : TypeExpr} (hwrites : env.outline.Writes scope (.array pos length elem)) :
    Mirrors M env S (arrayLength (env.amid p) resolve scope pos length)
      (fun r => arrayLength env r scope pos length) fun _ n n' => n = n' := by
  unfold arrayLength
  refine (eval_mirrors h hresolve htolerates hkinds hS length (.length hwrites)).bind
    fun S₁ x x' hS₁ _ ⟨hx, _⟩ hsees => ?_
  have hvalue : x'.value = x.value := by
    rcases fades_cases hx fun hM => hkinds hM (.length hwrites) hsees.finds with h | ⟨hM, hnone⟩
    · exact h.1
    · exact absurd hnone ((htolerates hM).lengths hwrites hsees.finds)
  rw [hvalue]
  split
  · split
    · exact .pure hS₁ rfl
    · exact .problem
  · exact .problem

omit h hresolve htolerates hkinds

/-- A field as it is seen without the packages `M`. -/
def stubbedField (M : List String) (f : Field Ty) : Field Ty := { f with type := f.type.stubbed M }

theorem lineFields_mirrors (hS : S.Mirrored M env) {t t' : Ty}
    (ht : t.Alike M t') {tag : String} {embedded : Bool} (names : List String) :
    Mirrors M env S (lineFields scope pos t tag embedded seen names)
      (fun _ => lineFields scope pos t' tag embedded seen names) fun _ fs fs' =>
        fs.map (stubbedField M) = fs'.map (stubbedField M) := by
  induction names generalizing seen with
  | nil => exact .pure hS rfl
  | cons name names ih =>
    simp only [lineFields]
    split
    · exact .problem
    · refine ih.bind fun S₁ fs fs' hS₁ _ hfs _ => .pure hS₁ ?_
      have ht : t.stubbed M = t'.stubbed M := ht
      rw [map_cons, map_cons, hfs, stubbedField, stubbedField, ht]

theorem tagText_mirrors (hS : S.Mirrored M env) {tag : Option Literal} :
    Mirrors M env S (tagText pos tag) (fun _ => tagText pos tag) fun _ s s' => s = s' := by
  cases tag with
  | none => exact .pure hS rfl
  | some l => exact .result hS fun s hs => ⟨s, hs, rfl⟩

include h

theorem fieldOf_mirrors (hS : S.Mirrored M env) {d : FieldDecl TypeExpr}
    (hd : ∀ t, d.type? = some t → ∀ S : Store, S.Mirrored M env →
      Mirrors M env S (typeOf (env.amid p) resolve scope params t)
        (fun r => typeOf env r scope params t) fun _ t t' => t.Alike M t') :
    Mirrors M env S (fieldOf (env.amid p) resolve scope params seen d)
      (fun r => fieldOf env r scope params seen d) fun _ fs fs' =>
        fs.map (stubbedField M) = fs'.map (stubbedField M) := by
  cases d with
  | named pos names t tag =>
    simp only [fieldOf]
    refine (hd t rfl S hS).bind fun S₁ t t' hS₁ _ ht _ => ?_
    refine (tagText_mirrors hS₁).bind fun S₂ s s' hS₂ _ hs _ => ?_
    rw [hs]
    exact lineFields_mirrors hS₂ ht names
  | embedded pos pointer n tag =>
    simp only [fieldOf]
    refine (typeNamed_mirrors h hS rfl).bind fun S₁ t t' hS₁ _ ht _ => ?_
    refine (tagText_mirrors hS₁).bind fun S₂ s s' hS₂ _ hs _ => ?_
    rw [hs]
    refine lineFields_mirrors hS₂ ?_ _
    split
    · exact congrArg Ty.pointer ht
    · exact ht

theorem fieldsOf_mirrors (hS : S.Mirrored M env) {ds : List (FieldDecl TypeExpr)}
    (hds : ∀ d ∈ ds, ∀ t, d.type? = some t → ∀ S : Store, S.Mirrored M env →
      Mirrors M env S (typeOf (env.amid p) resolve scope params t)
        (fun r => typeOf env r scope params t) fun _ t t' => t.Alike M t') :
    Mirrors M env S (fieldsOf (env.amid p) resolve scope params seen ds)
      (fun r => fieldsOf env r scope params seen ds) fun _ fs fs' =>
        fs.map (stubbedField M) = fs'.map (stubbedField M) := by
  have hnames {fs fs' : List (Field Ty)} (hfs : fs.map (stubbedField M) = fs'.map (stubbedField M)) :
      fs.map (·.name) = fs'.map (·.name) := by
    have := congrArg (map (·.name)) hfs
    rwa [map_map, map_map] at this
  induction ds generalizing S seen with
  | nil => exact .pure hS rfl
  | cons d ds ih =>
    simp only [fieldsOf]
    refine (fieldOf_mirrors h hS (hds d mem_cons_self)).bind fun S₁ fs fs' hS₁ _ hfs _ => ?_
    rw [hnames hfs]
    refine (ih hS₁ fun d' hd' => hds d' (mem_cons_of_mem d hd')).bind
      fun S₂ more more' hS₂ _ hmore _ => .pure hS₂ ?_
    rw [map_append, map_append, hfs, hmore]

include hresolve

/-- What an interface embeds can be completed. -/
theorem forM_underlying_mirrors (hS : S.Mirrored M env) {ts ts' : List Ty}
    (hts : ts.map (Ty.stubbed M) = ts'.map (Ty.stubbed M)) :
    Mirrors M env S (ts.forM fun t => do let _ ← underlying (env.amid p) resolve t)
      (fun r => ts'.forM fun t => do let _ ← underlying env r t) fun _ _ _ => True := by
  induction ts generalizing S ts' with
  | nil =>
    rw [map_nil, eq_comm, map_eq_nil_iff] at hts
    rw [hts]
    exact .pure hS trivial
  | cons t ts ih =>
    obtain ⟨t', ts', rfl, ht, hts⟩ := map_eq_cons_iff.1 hts.symm
    have hone : Mirrors M env S (do let _ ← underlying (env.amid p) resolve t)
        (fun r => do let _ ← underlying env r t') fun _ _ _ => True :=
      (underlyingWithin_mirrors h hresolve env.limit hS ht.symm).bind
        fun S₁ _ _ hS₁ _ _ _ => .pure hS₁ trivial
    exact hone.bind fun S₁ _ _ hS₁ _ _ _ => ih hS₁ hts.symm

include htolerates hkinds

theorem typeOf_mirrors (hS : S.Mirrored M env)
    (t : TypeExpr) (hwrites : env.outline.Writes scope t) :
    Mirrors M env S (typeOf (env.amid p) resolve scope params t)
      (fun r => typeOf env r scope params t) fun _ t t' => t.Alike M t' := by
  induction t generalizing S with
  | ref pos package name args ih =>
    simp only [typeOf, typesOf_eq]
    exact (Mirrors.mapM hS fun t ht S hS => ih t ht hS (hwrites.part ht)).bind
      fun S₁ ts ts' hS₁ _ hts _ => typeNamed_mirrors h hS₁ hts
  | pointer pos elem ih =>
    simp only [typeOf]
    exact (ih hS (hwrites.part mem_cons_self)).bind fun S₁ t t' hS₁ _ ht _ =>
      Mirrors.pure hS₁ (congrArg Ty.pointer ht)
  | array pos length elem ih =>
    simp only [typeOf]
    refine (arrayLength_mirrors h hresolve htolerates hkinds hS hwrites).bind
      fun S₁ n n' hS₁ _ hn _ => ?_
    exact (ih hS₁ (hwrites.part mem_cons_self)).bind fun S₂ t t' hS₂ _ ht _ =>
      Mirrors.pure hS₂ (congrArg₂ Ty.array ht hn)
  | slice pos elem ih =>
    simp only [typeOf]
    exact (ih hS (hwrites.part mem_cons_self)).bind fun S₁ t t' hS₁ _ ht _ =>
      Mirrors.pure hS₁ (congrArg Ty.slice ht)
  | map pos key elem ihk ihe =>
    simp only [typeOf]
    refine (ihk hS (hwrites.part mem_cons_self)).bind fun S₁ k k' hS₁ _ hk _ => ?_
    exact (ihe hS₁ (hwrites.part (mem_cons_of_mem _ mem_cons_self))).bind
      fun S₂ t t' hS₂ _ ht _ => .pure hS₂ (congrArg₂ Ty.map hk ht)
  | chan pos dir elem ih =>
    simp only [typeOf]
    exact (ih hS (hwrites.part mem_cons_self)).bind fun S₁ t t' hS₁ _ ht _ =>
      Mirrors.pure hS₁ (congrArg (Ty.chan · dir) ht)
  | func pos ps rs variadic ihp ihr =>
    simp only [typeOf, typesOf_eq]
    refine (Mirrors.mapM hS fun t ht S hS =>
      ihp t ht hS (hwrites.part (mem_append_left _ ht))).bind
      fun S₁ ps ps' hS₁ _ hps _ => ?_
    refine (Mirrors.mapM hS₁ fun t ht S hS =>
      ihr t ht hS (hwrites.part (mem_append_right _ ht))).bind
      fun S₂ rs rs' hS₂ _ hrs _ => .pure hS₂ ?_
    rw [Ty.Alike, Ty.stubbed_eq, Ty.stubbed_eq (.func ps' rs' variadic), Ty.mapChildren,
      Ty.mapChildren, hps, hrs]
  | struct pos fields ih =>
    simp only [typeOf]
    refine (fieldsOf_mirrors h hS fun d hd t ht S hS => ih d hd t ht hS
      (hwrites.part (mem_filterMap.2 ⟨d, hd, ht⟩))).bind
      fun S₁ fs fs' hS₁ _ hfs _ => .pure hS₁ ?_
    rw [Ty.Alike, Ty.stubbed_eq, Ty.stubbed_eq (.struct fs')]
    exact congrArg Ty.struct hfs
  | interface pos embeds methods ih =>
    simp only [typeOf, typesOf_eq]
    refine (Mirrors.mapM hS fun t ht S hS => ih t ht hS (hwrites.part ht)).bind
      fun S₁ ts ts' hS₁ _ hts _ => ?_
    refine (forM_underlying_mirrors h hresolve hS₁ hts).bind fun S₂ _ _ hS₂ _ _ _ =>
      Mirrors.pure hS₂ ?_
    rw [Ty.Alike, Ty.stubbed_eq, Ty.stubbed_eq (.interface ts' methods), Ty.mapChildren,
      Ty.mapChildren, hts]
  | union pos terms ih =>
    simp only [typeOf, termsOf_eq]
    refine (Mirrors.mapM (F := fun t : Term Ty => { t with type := t.type.stubbed M }) hS
      fun t ht S hS => ?_).bind fun S₁ ts ts' hS₁ _ hts _ => .pure hS₁ ?_
    · obtain ⟨tilde, type⟩ := t
      simp only [termOf]
      refine (ih _ ht hS (hwrites.part (mem_map_of_mem ht))).bind
        fun S₁ t t' hS₁ _ ht _ => .pure hS₁ ?_
      rw [show t.stubbed M = t'.stubbed M from ht]
    · rw [Ty.Alike, Ty.stubbed_eq, Ty.stubbed_eq (.union ts')]
      exact congrArg Ty.union hts

/-- A type parameter as it is seen without the packages `M`. -/
theorem paramsOf_mirrors (hS : S.Mirrored M env)
    (decls : List TypeParamDecl) (hwrites : ∀ d ∈ decls, env.outline.Writes scope d.constraint) :
    Mirrors M env S (paramsOf (env.amid p) resolve scope params decls)
      (fun r => paramsOf env r scope params decls) fun _ ps ps' =>
        ps.map (fun p => { p with constraint := p.constraint.map (Ty.stubbed M) }) =
          ps'.map fun p => { p with constraint := p.constraint.map (Ty.stubbed M) } := by
  induction decls generalizing S with
  | nil => exact .pure hS rfl
  | cons d decls ih =>
    rw [forall_mem_cons] at hwrites
    simp only [paramsOf]
    refine (typeOf_mirrors h hresolve htolerates hkinds hS d.constraint hwrites.1).bind
      fun S₁ t t' hS₁ _ ht _ => ?_
    refine (ih hS₁ hwrites.2).bind fun S₂ ps ps' hS₂ _ hps _ => .pure hS₂ ?_
    have ht : t.stubbed M = t'.stubbed M := ht
    simp only [map_append, map_map, hps]
    congr 1
    refine map_congr_left fun name _ => ?_
    simp only [Function.comp, Option.map_some, ht]

end

end Resolving

end DeclBridge
