import DeclBridge.Proofs.Computation
import DeclBridge.Proofs.ValueFaults
import DeclBridge.Resolution.Package

/-!
# Judgements of resolutions

Most of what is proved of a resolution has one form: it holds of a computation that is put together
from parts when it holds of the parts.  A `Judgement` is such a property.  It is about computations
that run side by side, one for each `n`, on the same declarations with their places moved by
`move n`, and whose results are again the same but for their places.

The functions of the resolution are gone through once, for every judgement.  What a judgement must
know beforehand is how names are looked up (`Judgement.Looks`, `Judgement.Imports`), and what lies
behind a type; it may follow a property `T` of the types that come up on the way.
-/

namespace DeclBridge

open Resolving TypeExpr List

variable {id : SymbolId} {op : BinaryOp} {β ε : Type} {args : List Ty} {iota : Option Nat}
    {type : Option Ty} {value : Option Constant} {t : Ty} {name : String}
  {resolve : String → Resolving Unit}

/-- A place in a file, and the name of the package that stands there. -/
structure Site where
  pos : Position
  name? : Option String := none
deriving DecidableEq, Repr

def FieldDecl.pos {α : Type} : FieldDecl α → Position
  | .named pos .. | .embedded pos .. => pos

/-- The places and names of an expression. The name before a point is that of another package. -/
def Expr.sites : Expr → List Site
  | .lit p _ => [⟨p, none⟩]
  | .ident p name => [⟨p, some name⟩]
  | .select p (.ident q _) _ => [⟨p, none⟩, ⟨q, none⟩]
  | .select p x _ => ⟨p, none⟩ :: x.sites
  | .unary p _ x => ⟨p, none⟩ :: x.sites
  | .binary p _ x y => ⟨p, none⟩ :: (x.sites ++ y.sites)
  | .call p f x => ⟨p, none⟩ :: (f.sites ++ x.sites)

/-- The place of a type's name, with the name unless it is that of another package. -/
def Site.ofName (pos : Position) (package : Option String) (name : String) : Site :=
  ⟨pos, if package.isNone then some name else none⟩

namespace TypeExpr

mutual

/-- The places and names of a type expression. -/
def sites : TypeExpr → List Site
  | ref p package name args => .ofName p package name :: sitesAll args
  | pointer p elem => ⟨p, none⟩ :: elem.sites
  | array p length elem => ⟨p, none⟩ :: (length.sites ++ elem.sites)
  | slice p elem => ⟨p, none⟩ :: elem.sites
  | map p key elem => ⟨p, none⟩ :: (key.sites ++ elem.sites)
  | chan p _ elem => ⟨p, none⟩ :: elem.sites
  | func p params results _ => ⟨p, none⟩ :: (sitesAll params ++ sitesAll results)
  | struct p fields => ⟨p, none⟩ :: sitesFields fields
  | interface p embeds _ => ⟨p, none⟩ :: sitesAll embeds
  | union p terms => ⟨p, none⟩ :: sitesTerms terms
termination_by structural t => t

def sitesAll : List TypeExpr → List Site
  | [] => []
  | t :: rest => t.sites ++ sitesAll rest
termination_by structural ts => ts

def sitesFields : List (FieldDecl TypeExpr) → List Site
  | [] => []
  | d :: rest => sitesField d ++ sitesFields rest
termination_by structural ds => ds

def sitesField : FieldDecl TypeExpr → List Site
  | .named p _ t _ => ⟨p, none⟩ :: t.sites
  | .embedded p _ n _ => [⟨p, none⟩, .ofName n.pos n.package n.name]
termination_by structural d => d

def sitesTerms : List (Term TypeExpr) → List Site
  | [] => []
  | t :: rest => sitesTerm t ++ sitesTerms rest
termination_by structural ts => ts

def sitesTerm : Term TypeExpr → List Site
  | ⟨_, t⟩ => t.sites
termination_by structural t => t

end

theorem sitesAll_eq (ts : List TypeExpr) : sitesAll ts = ts.flatMap sites := by
  induction ts with
  | nil => rfl
  | cons t ts ih => rw [sitesAll, ih, flatMap_cons]

theorem sitesFields_eq (ds : List (FieldDecl TypeExpr)) :
    sitesFields ds = ds.flatMap sitesField := by
  induction ds with
  | nil => rfl
  | cons d ds ih => rw [sitesFields, ih, flatMap_cons]

theorem sitesTerms_eq (ts : List (Term TypeExpr)) :
    sitesTerms ts = ts.flatMap fun t => t.type.sites := by
  induction ts with
  | nil => rfl
  | cons t ts ih =>
    obtain ⟨tilde, t⟩ := t
    rw [sitesTerms, ih, flatMap_cons, sitesTerm]

end TypeExpr

/-- The places and names of the declaration of a type. -/
def TypeSpec.sites (spec : TypeSpec) : List Site :=
  ⟨spec.pos, none⟩ :: (spec.params.flatMap (·.constraint.sites) ++ spec.type.sites)

/-! ## Judgements -/

/-- A place in `P`, where a name that the package declares is in `K`. -/
structure Site.In (o : Outline) (K : String → Prop) (P : Position → Prop) (site : Site) :
    Prop where
  place : P site.pos
  name : ∀ name, site.name? = some name → o.symbols.contains name = true → K name

theorem Site.In.all {o : Outline} (site : Site) : site.In o (fun _ => True) fun _ => True :=
  ⟨trivial, fun _ _ _ => trivial⟩

namespace Resolving

/-- A way to move places that changes nothing where everything stays. -/
class Stays {α : Type} (u : Move → α → α) : Prop where
  stay : ∀ a, u .stay a = a

instance {α : Type} : Stays fun (_ : Move) (a : α) => a := ⟨fun _ => rfl⟩

instance : Stays Ty.moved := ⟨Ty.moved_stay⟩

instance : Stays Symbol.moved := ⟨Symbol.moved_stay⟩

instance : Stays TypeInfo.moved := ⟨TypeInfo.moved_stay⟩

instance : Stays TypeParam.moved := ⟨TypeParam.moved_stay⟩

instance : Stays Operand.moved := ⟨fun x => by rw [Operand.moved, Ty.moved_stay]⟩

instance : Stays Ty.movedField := ⟨fun f => by rw [Ty.movedField, Ty.moved_stay]; rfl⟩

instance : Stays Ty.movedTerm := ⟨fun t => by rw [Ty.movedTerm, Ty.moved_stay]⟩

instance {α : Type} {u : Move → α → α} [h : Stays u] : Stays fun m => map (u m) :=
  ⟨fun l => (map_congr_left fun a _ => h.stay a).trans (map_id' l)⟩

instance {α : Type} {u : Move → α → α} [h : Stays u] : Stays fun m => Option.map (u m) :=
  ⟨fun a => by cases a <;> simp [h.stay]⟩

theorem looked_stay (found : Option (Option Symbol)) :
    found.map (Option.map (Symbol.moved .stay)) = found :=
  Stays.stay (u := fun m => Option.map (Option.map (Symbol.moved m))) found

/-- A property of computations that run side by side, on declarations whose places are moved by
`move n`.  Problems are at places in `place`.  `Holds u x Q` is the property of `x`, where `u` moves
the places in the results, and these are in `Q`. -/
structure Judgement (ν : Type) where
  move : ν → Move
  place : Position → Prop
  Holds : {α : Type} → (Move → α → α) → (ν → Resolving α) → (α → Prop) → Prop
  pure {α : Type} {u : Move → α → α} [Stays u] {Q : α → Prop} {x : ν → α} (a : α) :
    (∀ n, x n = u (move n) a) → Q a → Holds u (fun n => Pure.pure (x n)) Q
  bind {α β : Type} {u : Move → α → α} [Stays u] {v : Move → β → β} {Q : α → Prop} {R : β → Prop}
    {x : ν → Resolving α} {f : ν → α → Resolving β} : Holds u x Q →
    (∀ a, Q a → Holds v (fun n => f n (u (move n) a)) R) → Holds v (fun n => x n >>= f n) R
  mono {α : Type} {u : Move → α → α} {Q R : α → Prop} {x : ν → Resolving α} : Holds u x Q →
    (∀ a, Q a → R a) → Holds u x R
  problem {α : Type} {u : Move → α → α} {Q : α → Prop} {why : Problem} {pos : Position} :
    place pos → Holds u (fun n => problem why ((move n).position pos)) Q
  surrogate {α : Type} {u : Move → α → α} {Q : α → Prop} :
    Holds u (fun _ => throw (.fault .loneSurrogate)) Q
  /-- A value that is computed at a place, and does not depend on it. -/
  value {α : Type} {r : Position → Except Failure α} {pos : Position} : place pos →
    (∀ p, FailsOnly (Failure.OfValueAt p) (r p)) → (∀ p p', (r p').toOption = (r p).toOption) →
    Holds (fun _ a => a) (fun n => lift (r ((move n).position pos))) fun _ => True

/-- Resolves a symbol and gives it as it then is. -/
def lookUp (resolve : String → Resolving Unit) (name : String) : Resolving (Option Symbol) := do
  resolve name
  return (← get).symbols.get? name

section

variable {env : Surroundings} {resolve : String → Resolving Unit} {scope : Scope}
  {params : Table String Ty} {m : Move}

/-- A reference to the package's own types goes by what is stored of them once they are resolved. -/
theorem follow_own (env : Surroundings)
    (hid : id.package = some env.outline.path) (part : TypeInfo → Option Ty) (args : List Ty) :
    follow env resolve part id args = do
      let s ← lookUp resolve id.name
      let info := (s.bind Symbol.typeInfo?).getD {}
      return (part info).map (instantiate info.params args) := by
  simp only [follow, hid, if_true, typeInfo, lookUp, bind_assoc, pure_bind]

theorem follow_other (env : Surroundings)
    {path : String} (hid : id.package = some path) (hpath : path ≠ env.outline.path)
    (part : TypeInfo → Option Ty) (args : List Ty) :
    follow env resolve part id args =
      let info := env.program.typeInfo id
      return (part info).map (instantiate info.params args) := by
  have hne : some path ≠ some env.outline.path := fun h => hpath (Option.some.inj h)
  simp only [follow, hid, if_neg hpath, if_neg hne, typeInfo, pure_bind]

theorem instantiate_moved (params : List TypeParam) (args : List Ty) (t : Ty) :
    instantiate (params.map (TypeParam.moved m)) (args.map (Ty.moved m)) (t.moved m) =
      (instantiate params args t).moved m := by
  rw [instantiate, instantiate]
  refine (Ty.moved_subst (fun name => ?_) t).symm
  rw [← Table.get?_ofList_map, map_map, zip_map_right]
  rfl

/-- What is known of a type is made of the types that its symbol is declared with. -/
theorem mem_types_of_typeInfo? {s : Option Symbol}
    (h : ((s.bind Symbol.typeInfo?).getD {}).underlying = some t ∨
      ((s.bind Symbol.typeInfo?).getD {}).rhs = some t) :
    ∃ found, s = some found ∧ t ∈ found.types := by
  cases s with
  | none => cases h <;> contradiction
  | some found =>
    refine ⟨found, rfl, ?_⟩
    rw [Option.bind_some, Symbol.typeInfo?] at h
    rw [Symbol.types]
    cases hbody : found.body with
    | const =>
      rw [hbody] at h
      cases h <;> contradiction
    | type info =>
      rw [hbody] at h
      simpa [or_comm, or_assoc] using Or.inr (a := ∃ p ∈ info.params, p.constraint = some t) h.symm

theorem typesOf_eq (ts : List TypeExpr) :
    typesOf env resolve scope params ts = ts.mapM (typeOf env resolve scope params) := by
  induction ts with
  | nil => rfl
  | cons t ts ih => rw [typesOf, ih, mapM_cons]

theorem termsOf_eq (ts : List (Term TypeExpr)) :
    termsOf env resolve scope params ts = ts.mapM (termOf env resolve scope params) := by
  induction ts with
  | nil => rfl
  | cons t ts ih => rw [termsOf, ih, mapM_cons]

theorem evalName_const (env : Surroundings) {s : Symbol}
    (hs : env.outline.symbols.get? name = some s)
    (hbody : s.body = .const value type) (iota : Option Nat) (pos : Position) :
    evalName env resolve iota pos name = (do
      let body : Option SymbolBody := (← lookUp resolve name).map (·.body)
      match body with
      | some (.const value type) => return constant value type
      | _ => problem (.notAnExpression name) pos) := by
  simp only [evalName, hs, hbody]
  rw [lookUp, bind_assoc]
  rfl

theorem constant_moved (value : Option Constant) (type : Option Ty) :
    constant value (type.map (Ty.moved m)) = (constant value type).moved m := by
  cases type <;> rfl

theorem paramIndex_moved {params params' : Table String Ty}
    (hparams : ∀ name, params'.get? name = (params.get? name).map (Ty.moved m)) (n : String) :
    paramIndex params' n = paramIndex params n := by
  rw [paramIndex, hparams, paramIndex]
  cases params.get? n with
  | none => rfl
  | some t => cases t <;> rfl

theorem reference_moved (isAlias : Bool) (id : SymbolId) (args : List Ty) :
    reference isAlias id (args.map (Ty.moved m)) = (reference isAlias id args).moved m := by
  rw [reference, reference]
  split_ifs
  · exact (Ty.moved_aliased id args).symm
  · exact (Ty.moved_named id args).symm

theorem predeclared?_mem {T : Ty → Prop} (hmade : ∀ t : Ty, (∀ name index, t ≠ .param name index) →
      t.symbol? = none → t.children = [] → T t) (hnamed : ∀ name, T (.named ⟨none, name⟩ []))
    (h : predeclared? name = some t) : T t := by
  unfold predeclared? at h
  split at h
  · cases h
    exact hmade _ (by simp) rfl rfl
  · split at h
    · cases h
      exact hnamed _
    · cases h
      exact hnamed _
    · cases h
      exact hmade _ (by simp) rfl rfl
    · cases h

theorem predeclared?_moved (name : String) :
    predeclared? name = (predeclared? name).map (Ty.moved m) := by
  unfold predeclared?
  split
  · rfl
  · split <;> rfl

end

namespace Judgement

variable {ν : Type}

/-- What a judgement must know of names: those in `K` are looked up, and lead to types in `T`. -/
structure Names (J : Judgement ν) (env : ν → Surroundings) (resolve : ν → String → Resolving Unit)
    (o : Outline) (K : String → Prop) (T : Ty → Prop) : Prop where
  outline : ∀ n, o.Moves (J.move n) (env n).outline
  made : ∀ t : Ty, t.symbol? = none → (∀ c ∈ t.children, T c) → T t
  predeclared : ∀ name, T (.named ⟨none, name⟩ [])
  own : ∀ {name s args}, o.symbols.get? name = some s → K name → (∀ a ∈ args, T a) →
    ∀ isAlias, T (reference isAlias s.id args)
  info : ∀ isAlias {id args}, T (reference isAlias id args) →
    J.Holds TypeInfo.moved (fun n => typeInfo (env n) id) fun _ => True
  look : ∀ name, K name → J.Holds (fun m => Option.map (Symbol.moved m))
    (fun n => lookUp (resolve n) name) fun s => ∀ found, s = some found → ∀ t ∈ found.types, T t

/-- And of references: what lies behind them. -/
structure Looks (J : Judgement ν) (env : ν → Surroundings) (resolve : ν → String → Resolving Unit)
    (o : Outline) (K : String → Prop) (T : Ty → Prop) : Prop
    extends J.Names env resolve o K T where
  behind : ∀ t, T t →
    J.Holds Ty.moved (fun n => underlying (env n) (resolve n) (t.moved (J.move n))) T

/-- Where a chain of aliases is followed up to the same limit, it is enough that the declarations of
other packages lead to types in `T`. -/
structure Leads (J : Judgement ν) (env : ν → Surroundings) (resolve : ν → String → Resolving Unit)
    (o : Outline) (K : String → Prop) (T : Ty → Prop) (limit : Nat) : Prop
    extends J.Names env resolve o K T where
  limit : ∀ n, (env n).limit = limit
  args : ∀ {isAlias id args}, T (reference isAlias id args) → ∀ a ∈ args, T a
  subst : ∀ {params args t}, (∀ a ∈ args, T a) → T t → T (instantiate params args t)
  name : ∀ {isAlias id args}, T (reference isAlias id args) → id.package = some o.path → K id.name
  other : ∀ {isAlias id args}, T (reference isAlias id args) → id.package ≠ some o.path →
    ∃ info : TypeInfo, (∀ n, (env n).program.typeInfo id = info.moved (J.move n)) ∧
      ∀ t, info.underlying = some t ∨ info.rhs = some t → T t
  endless : J.Holds Ty.moved (fun _ => throw (.fault .endlessType)) T

/-- What is imported in a file leads to types in `T`. -/
def Imports (J : Judgement ν) (env : ν → Surroundings) (scope : Scope) (T : Ty → Prop) : Prop :=
  ∀ package name pos, J.place pos → J.Holds Symbol.moved
    (fun n => imported (env n) (scope.moved (J.move n)) package name ((J.move n).position pos))
    fun s => (∀ info args, s.body = .type info → (∀ a ∈ args, T a) →
      T (reference info.isAlias s.id args)) ∧ ∀ t ∈ s.types, T t

/-- Tables of type parameters that are the same but for their places. -/
def Params (J : Judgement ν) (q : Table String Ty) (params : ν → Table String Ty) : Prop :=
  ∀ n name, (params n).get? name = (q.get? name).map (Ty.moved (J.move n))

section

variable (J : Judgement ν) {α ι : Type} {u : Move → α → α} {R : α → Prop} {l : List ι}
  {w : Move → ι → ι} {pos : Position}

theorem mapM [Stays u] {f : ν → ι → Resolving α}
    (h : ∀ i ∈ l, J.Holds u (fun n => f n (w (J.move n) i)) R) :
    J.Holds (fun m => map (u m)) (fun n => (l.map (w (J.move n))).mapM (f n))
      fun found => (∀ a ∈ found, R a) ∧ found.length = l.length := by
  induction l with
  | nil =>
    simp only [map_nil, mapM_nil]
    exact J.pure [] (fun _ => rfl) ⟨forall_mem_nil _, rfl⟩
  | cons i l ih =>
    rw [forall_mem_cons] at h
    simp only [map_cons, mapM_cons]
    refine J.bind h.1 fun a ha => J.bind (ih h.2) fun found hfound => ?_
    exact J.pure (a :: found) (fun _ => rfl)
      ⟨forall_mem_cons.2 ⟨ha, hfound.1⟩, congrArg (· + 1) hfound.2⟩

theorem forM {f : ν → ι → Resolving PUnit}
    (h : ∀ i ∈ l, J.Holds (fun _ a => a) (fun n => f n (w (J.move n) i)) fun _ => True) :
    J.Holds (fun _ a => a) (fun n => (l.map (w (J.move n))).forM (f n)) fun _ => True := by
  induction l with
  | nil => exact J.pure _ (fun _ => rfl) trivial
  | cons i l ih =>
    rw [forall_mem_cons] at h
    exact J.bind h.1 fun _ _ => ih h.2

/-- A value whose place shows in its failures only. -/
theorem computed {r : Position → Except Failure α} (hpos : J.place pos)
    (h : ∀ p p', ResultsAlike (Failure.AlikeAt p p') (fun a => a) (r p) (r p')) :
    J.Holds (fun _ a => a) (fun n => lift (r ((J.move n).position pos))) fun _ => True :=
  J.value hpos (fun p => (h p p).failsOnly fun _ _ => (·.ofValueAt)) fun p p' =>
    (h p p').toOption.trans (congrFun Option.map_id _)

theorem literal {r : Position → Except Refusal α} (hpos : J.place pos)
    (h : ∀ p p', ResultsAlike Refusal.Alike (fun a => a) (r p) (r p')) :
    J.Holds (fun _ a => a) (fun n => lift ((r ((J.move n).position pos)).mapError
      (Failure.ofRefusal ((J.move n).position pos)))) fun _ => True := by
  refine J.computed (r := fun p => (r p).mapError (Failure.ofRefusal p)) hpos fun p p' =>
    (h p p').mapError fun e e' he => ?_
  cases e <;> cases e' <;> first | exact ⟨rfl, rfl⟩ | exact he

theorem tagText (hpos : J.place pos) (tag : Option Literal) :
    J.Holds (fun _ a => a) (fun n => tagText ((J.move n).position pos) tag) fun _ => True := by
  cases tag with
  | none => exact J.pure _ (fun _ => rfl) trivial
  | some l => exact J.literal hpos fun _ _ => l.stringValue_alike

/-- What a name of another package stands for: a stub if the package is not there, and else one of
its symbols. -/
theorem holds_imported (env : ν → Surroundings) (scope : Scope) (package name : String)
    {Q : Symbol → Prop} (hpos : J.place pos)
    (h : ∀ path, scope.imports.get? package = some path → ∃ found : Option (Option Symbol),
      (∀ n, ((env n).program.packages.get? path).map (·.symbols.get? name) =
        found.map (Option.map (Symbol.moved (J.move n)))) ∧
      (found = none → Q { name, package := some path, body := .type {} }) ∧
      ∀ s, found = some (some s) → Q s) :
    J.Holds Symbol.moved (fun n => imported (env n) (scope.moved (J.move n)) package name
      ((J.move n).position pos)) Q := by
  simp only [imported, Scope.moved]
  cases hpath : scope.imports.get? package with
  | none => exact J.problem hpos
  | some path =>
    obtain ⟨found, hsame, hstub, hfound⟩ := h path hpath
    cases found with
    | none =>
      have hnone (n : ν) : (env n).program.packages.get? path = none :=
        Option.map_eq_none_iff.1 (hsame n)
      simp only [hnone]
      refine J.pure _ (fun n => ?_) (hstub rfl)
      rw [Symbol.moved, (J.move n).symbol_empty]
      rfl
    | some symbol =>
      choose q hq hsymbol using fun n => Option.map_eq_some_iff.1 (hsame n)
      simp only [hq, hsymbol]
      cases symbol with
      | none => exact J.problem hpos
      | some s =>
        have hexported (m : Move) : (s.moved m).exported = s.exported := rfl
        simp only [Option.map_some, hexported]
        split
        · exact J.pure s (fun _ => rfl) (hfound s rfl)
        · exact J.problem hpos

end

/-! ## References -/

section

variable {J : Judgement ν} {env : ν → Surroundings} {resolve : ν → String → Resolving Unit}
  {o : Outline} {K : String → Prop} {T : Ty → Prop} {scope : Scope} {q : Table String Ty}
  {params : ν → Table String Ty} {pos : Position} {x y : Operand} {t : Ty}

namespace Leads

variable {limit : Nat} (h : J.Leads env resolve o K T limit)

include h

theorem follow {part : TypeInfo → Option Ty}
    (hmoved : ∀ info m, part (info.moved m) = (part info).map (Ty.moved m))
    (hpart : ∀ info t, part info = some t → info.underlying = some t ∨ info.rhs = some t)
    (isAlias : Bool) (ht : T (reference isAlias id args)) :
    J.Holds (fun m => Option.map (Ty.moved m)) (fun n => follow (env n) (resolve n) part id
      (args.map (Ty.moved (J.move n)))) fun found => ∀ t, found = some t → T t := by
  -- what is known of the type, with the arguments put in
  have hinfo (info : TypeInfo) (hT : ∀ t, info.underlying = some t ∨ info.rhs = some t → T t) :
      J.Holds (fun m => Option.map (Ty.moved m)) (fun n => Pure.pure ((part (info.moved
        (J.move n))).map (instantiate (info.moved (J.move n)).params
          (args.map (Ty.moved (J.move n))))))
        fun found => ∀ t, found = some t → T t := by
    refine J.pure ((part info).map (instantiate info.params args)) (fun n => ?_) fun t ht' => ?_
    · rw [hmoved, Option.map_map, Option.map_map]
      exact congrArg (Option.map · _) (funext fun t => instantiate_moved _ _ t)
    · obtain ⟨u, hu, rfl⟩ := Option.map_eq_some_iff.1 ht'
      exact h.subst (h.args ht) (hT u (hpart info u hu))
  cases hpackage : id.package with
  | none =>
    simp only [Resolving.follow, hpackage]
    refine J.pure (if id.name = "error" then some errorInterface else none) (fun n => ?_)
      fun t ht' => ?_
    · split_ifs <;> rfl
    · split_ifs at ht'
      cases ht'
      exact h.made _ rfl (forall_mem_nil _)
  | some path =>
    by_cases hown : path = o.path
    · subst hown
      have hid (n : ν) : id.package = some (env n).outline.path := by
        rw [(h.outline n).path, hpackage]
      simp only [follow_own _ (hid _)]
      refine J.bind (h.look _ (h.name ht hpackage)) fun s hs => ?_
      simp only [getD_typeInfo?_moved]
      refine hinfo _ fun t ht' => ?_
      obtain ⟨found, rfl, hmem⟩ := mem_types_of_typeInfo? ht'
      exact hs found rfl t hmem
    · have hne (n : ν) : path ≠ (env n).outline.path := by rwa [(h.outline n).path]
      have hother : id.package ≠ some o.path := fun heq => hown (Option.some.inj (hpackage ▸ heq))
      obtain ⟨info, heq, hT⟩ := h.other ht hother
      simp only [follow_other _ hpackage (hne _), heq]
      exact hinfo info hT

theorem underlyingWithin (count : Nat) (ht : T t) :
    J.Holds Ty.moved (fun n => underlyingWithin (env n) (resolve n) count (t.moved (J.move n)))
      T := by
  induction count generalizing t with
  | zero => exact h.endless
  | succ count ih =>
    cases t with
    | named id args =>
      simp only [underlyingWithin, Ty.moved_named]
      refine J.bind (h.follow (fun _ _ => rfl) (fun _ _ => .inl) false ht)
        fun found hfound => J.pure (found.getD (.named id args)) (fun n => ?_) ?_
      · cases found <;> simp [Ty.moved_named]
      · cases found with
        | none => exact ht
        | some u => exact hfound u rfl
    | aliased id args =>
      simp only [underlyingWithin, Ty.moved_aliased]
      refine J.bind (h.follow (fun _ _ => rfl) (fun _ _ => .inr) true ht)
        fun found hfound => ?_
      cases found with
      | none => exact J.pure (.aliased id args) (fun _ => (Ty.moved_aliased id args).symm) ht
      | some u => exact ih (hfound u rfl)
    | _ => exact J.pure _ (fun _ => rfl) ht

theorem looks : J.Looks env resolve o K T where
  toNames := h.toNames
  behind t ht := by
    simp only [underlying, h.limit]
    exact h.underlyingWithin limit ht

end Leads

namespace Looks

variable (h : J.Looks env resolve o K T)

include h

theorem basic (kind : Kind) : T (.basic kind) :=
  h.made _ rfl (forall_mem_nil _)

theorem constant (htype : ∀ t ∈ type.toList, T t) : T (constant value type).type := by
  cases type with
  | none => exact h.basic _
  | some t => exact htype t (mem_singleton.2 rfl)

theorem kindOf (ht : T t) : J.Holds (fun _ a => a)
    (fun n => kindOf (env n) (resolve n) (t.moved (J.move n))) fun _ => True := by
  cases t with
  | named | aliased =>
    refine J.bind (h.behind _ ht) fun u _ => ?_
    cases u <;> exact J.pure _ (fun _ => rfl) trivial
  | _ => exact J.pure _ (fun _ => rfl) trivial

theorem typeNamed (himports : J.Imports env scope T) (hparams : J.Params q params)
    (hq : ∀ name t, q.get? name = some t → T t) {package : Option String}
    (hsite : (Site.ofName pos package name).In o K J.place) (hargs : ∀ a ∈ args, T a) :
    J.Holds Ty.moved (fun n => typeNamed (env n) (scope.moved (J.move n)) (params n)
      ((J.move n).position pos) package name (args.map (Ty.moved (J.move n)))) T := by
  have hpos : J.place pos := hsite.place
  cases package with
  | some package =>
    refine J.bind (himports package name pos hpos) fun s hs => ?_
    obtain ⟨sname, spackage, span, body⟩ := s
    cases body with
    | const value t => exact J.problem hpos
    | type info => exact J.pure _ (fun _ => reference_moved _ _ _) (hs.1 info args rfl hargs)
  | none =>
    simp only [Resolving.typeNamed, hparams _ name, (h.outline _).symbols, (h.outline _).types]
    cases hname : q.get? name with
    | some t => exact J.pure t (fun _ => rfl) (hq name t hname)
    | none =>
      cases hs : o.symbols.get? name with
      | some s =>
        have hown := h.own hs (hsite.name name rfl (Table.contains_of_get? hs)) hargs
          ((o.types.get? name).any (·.spec.isAlias))
        obtain ⟨sname, spackage, span, body⟩ := s
        cases body with
        | const value t => exact J.problem hpos
        | type info =>
          refine J.pure _ (fun n => ?_) hown
          rw [← reference_moved]
          cases o.types.get? name <;> rfl
      | none =>
        cases hfound : predeclared? name with
        | some t =>
          refine J.pure t (fun n => ?_) (predeclared?_mem (fun t _ hsymbol hnone => h.made t hsymbol
            (hnone ▸ forall_mem_nil _)) h.predeclared hfound)
          have hmoved := predeclared?_moved (m := J.move n) name
          rw [hfound] at hmoved
          exact Option.some.inj hmoved
        | none => exact J.problem hpos

/-! ## Constants -/

theorem convert (hpos : J.place pos) (ht : T t) :
    J.Holds Operand.moved (fun n => convert (env n) (resolve n) (x.moved (J.move n))
      (t.moved (J.move n)) ((J.move n).position pos)) fun y => T y.type := by
  refine J.bind (h.kindOf ht) fun kind _ => ?_
  obtain ⟨value, type⟩ := x
  cases kind with
  | some kind =>
    cases value with
    | none => exact J.pure ⟨none, t⟩ (fun _ => rfl) ht
    | some value =>
      exact J.bind (J.computed hpos (value.convert_alike · · kind)) fun c _ =>
        J.pure ⟨some c, t⟩ (fun _ => rfl) ht
  | none =>
    -- only of a reference it may be that nothing is known
    have hstub (id : SymbolId) (hinfo : J.Holds TypeInfo.moved (fun n => typeInfo (env n) id)
        fun _ => True) : J.Holds Operand.moved (fun n => do
          if (← typeInfo (env n) id).isStub then return ⟨value, t.moved (J.move n)⟩
          else Resolving.problem .nonBasicTarget ((J.move n).position pos)) fun y => T y.type := by
      refine J.bind hinfo fun info _ => ?_
      simp only [TypeInfo.isStub_moved]
      split
      · exact J.pure ⟨value, t⟩ (fun _ => rfl) ht
      · exact J.problem hpos
    cases t with
    | named id args => exact hstub id (h.info false ht)
    | aliased id args => exact hstub id (h.info true ht)
    | _ => exact J.problem hpos

theorem unary {op : UnaryOp} (hpos : J.place pos) (hx : T x.type) :
    J.Holds Operand.moved (fun n => unary (env n) (resolve n) op ((J.move n).position pos)
      (x.moved (J.move n))) fun y => T y.type := by
  obtain ⟨value, type⟩ := x
  cases value with
  | none => cases op <;> exact J.pure ⟨none, type⟩ (fun _ => rfl) hx
  | some c =>
    cases op with
    | complement =>
      cases c with
      | int n =>
        exact J.bind (h.kindOf hx) fun kind _ =>
          J.pure ⟨some (.int (Constant.complement n kind)), type⟩ (fun _ => rfl) hx
      | _ => exact J.problem hpos
    | plus | minus | not =>
      cases c <;> first | exact J.pure ⟨_, type⟩ (fun _ => rfl) hx | exact J.problem hpos

theorem commonType (hpos : J.place pos) (hx : T x.type) (hy : T y.type) :
    J.Holds Ty.moved (fun n => commonType (env n) (resolve n) op ((J.move n).position pos)
      (x.moved (J.move n)) (y.moved (J.move n))) T := by
  refine J.bind (h.kindOf hx) fun xKind _ => J.bind (h.kindOf hy) fun yKind _ => ?_
  simp only [Operand.moved, Ty.isUntyped_moved, Ty.same_moved]
  cases x.type.isUntyped <;> cases y.type.isUntyped <;> dsimp only
  · split
    · exact J.pure x.type (fun _ => rfl) hx
    · exact J.problem hpos
  · exact J.pure x.type (fun _ => rfl) hx
  · exact J.pure y.type (fun _ => rfl) hy
  · split
    · split
      · exact J.pure x.type (fun _ => rfl) hx
      · exact J.pure y.type (fun _ => rfl) hy
    · split
      · exact J.pure x.type (fun _ => rfl) hx
      · exact J.problem hpos

theorem shift (hpos : J.place pos) (hx : T x.type) :
    J.Holds Operand.moved (fun n => shift op ((J.move n).position pos) (x.moved (J.move n))
      (y.moved (J.move n))) fun z => T z.type := by
  set type : Ty := if x.type.isUntyped then .basic .untypedInt else x.type with htype
  have hT : T type := by
    rw [htype]
    split_ifs
    · exact h.basic _
    · exact hx
  have hmoved (m : Move) : (if x.type.isUntyped then .basic .untypedInt else x.type.moved m : Ty) =
      type.moved m := by
    rw [htype]
    split_ifs <;> rfl
  simp only [Resolving.shift, Operand.moved, Ty.isUntyped_moved, hmoved]
  cases x.value with
  | none => exact J.pure ⟨none, type⟩ (fun _ => rfl) hT
  | some a =>
    cases y.value with
    | none => exact J.pure ⟨none, type⟩ (fun _ => rfl) hT
    | some c =>
      exact J.bind (J.computed hpos (Constant.shift_alike · · op a c)) fun c _ =>
        J.pure ⟨some c, type⟩ (fun _ => rfl) hT

theorem binary (hpos : J.place pos) (hx : T x.type) (hy : T y.type) :
    J.Holds Operand.moved (fun n => binary (env n) (resolve n) op ((J.move n).position pos)
      (x.moved (J.move n)) (y.moved (J.move n))) fun z => T z.type := by
  simp only [Resolving.binary]
  split
  · exact h.shift hpos hx
  · refine J.bind (h.commonType hpos hx hy) fun type ht => ?_
    set result : Ty := if isComparison op then .basic .untypedBool else type with hresult
    have hT : T result := by
      rw [hresult]
      split_ifs
      · exact h.basic _
      · exact ht
    have hmoved (m : Move) : (if isComparison op then .basic .untypedBool else type.moved m : Ty) =
        result.moved m := by
      rw [hresult]
      split_ifs <;> rfl
    simp only [Operand.moved, hmoved]
    cases x.value with
    | none => exact J.pure ⟨none, result⟩ (fun _ => rfl) hT
    | some a =>
      cases y.value with
      | none => exact J.pure ⟨none, result⟩ (fun _ => rfl) hT
      | some b =>
        dsimp only
        split
        · exact J.bind (J.computed hpos (Constant.compareWith_alike · · op a b)) fun c _ =>
            J.pure ⟨some (.bool c), result⟩ (fun _ => rfl) hT
        · split
          · cases a <;> cases b <;>
              first | exact J.pure ⟨_, type⟩ (fun _ => rfl) ht | exact J.problem hpos
          · refine J.bind (h.kindOf ht) fun kind _ => ?_
            exact J.bind (J.computed hpos (Constant.arith_alike · · op a b kind)) fun c _ =>
              J.pure ⟨some c, type⟩ (fun _ => rfl) ht

theorem evalName (hsite : Site.In o K J.place ⟨pos, some name⟩) :
    J.Holds Operand.moved (fun n => evalName (env n) (resolve n) iota ((J.move n).position pos) name)
      fun y => T y.type := by
  have hpos : J.place pos := hsite.place
  cases hs : o.symbols.get? name with
  | some s =>
    have hname : K name := hsite.name name rfl (Table.contains_of_get? hs)
    obtain ⟨sname, spackage, span, body⟩ := s
    cases body with
    | type info =>
      simp only [Resolving.evalName, (h.outline _).symbols, hs]
      exact J.problem hpos
    | const value t =>
      have hs' (n : ν) : (env n).outline.symbols.get? name = _ :=
        ((h.outline n).symbols name).trans (congrArg _ hs)
      simp only [evalName_const _ (hs' _) rfl]
      refine J.bind (h.look name hname) fun found hfound => ?_
      cases found with
      | none => exact J.problem hpos
      | some found =>
        obtain ⟨fname, fpackage, fspan, body⟩ := found
        cases body with
        | type info => exact J.problem hpos
        | const value t =>
          exact J.pure _ (fun _ => constant_moved value t) (h.constant (hfound _ rfl))
  | none =>
    simp only [Resolving.evalName, (h.outline _).symbols, hs, Option.map_none]
    split
    · split
      · exact J.pure ⟨_, .basic .untypedInt⟩ (fun _ => rfl) (h.basic _)
      · exact J.problem hpos
    · exact J.pure ⟨_, .basic .untypedBool⟩ (fun _ => rfl) (h.basic _)
    · exact J.pure ⟨_, .basic .untypedBool⟩ (fun _ => rfl) (h.basic _)
    · exact J.problem hpos

theorem evalImported (himports : J.Imports env scope T) {package name : String}
    (hpos : J.place pos) :
    J.Holds Operand.moved (fun n => evalImported (env n) (scope.moved (J.move n))
      ((J.move n).position pos) package name) fun y => T y.type := by
  refine J.bind (himports package name pos hpos) fun s hs => ?_
  obtain ⟨sname, spackage, span, body⟩ := s
  cases body with
  | const value t => exact J.pure _ (fun _ => constant_moved value t) (h.constant hs.2)
  | type info =>
    simp only [Symbol.moved, SymbolBody.moved, TypeInfo.isStub_moved]
    split
    · exact J.pure ⟨none, .basic .untypedInt⟩ (fun _ => rfl) (h.basic _)
    · exact J.problem hpos

theorem lengthOf (hpos : J.place pos) :
    J.Holds Operand.moved (fun n => lengthOf ((J.move n).position pos) (x.moved (J.move n)))
      fun y => T y.type := by
  obtain ⟨value, type⟩ := x
  simp only [Resolving.lengthOf, Operand.moved]
  split
  · exact J.pure ⟨none, .basic .int⟩ (fun _ => rfl) (h.basic _)
  · split
    · exact J.pure ⟨_, .basic .int⟩ (fun _ => rfl) (h.basic _)
    · exact J.surrogate
  · exact J.problem hpos

theorem eval (himports : J.Imports env scope T) {e : Expr}
    (he : ∀ site ∈ e.sites, site.In o K J.place) :
    J.Holds Operand.moved (fun n => eval (env n) (resolve n) (scope.moved (J.move n)) iota
      (e.moved (J.move n))) fun y => T y.type := by
  induction e with
  | lit pos l =>
    have hpos : J.place pos := (he _ (mem_singleton.2 rfl)).place
    exact J.bind (J.literal hpos l.constant_alike) fun c _ =>
      J.pure ⟨some c, .basic l.kind.untyped⟩ (fun _ => rfl) (h.basic _)
  | ident pos name => exact h.evalName (he _ (mem_singleton.2 rfl))
  | select pos x name =>
    have hpos : J.place pos := by
      cases x <;> exact (he ⟨pos, none⟩ mem_cons_self).place
    cases x with
    | ident => exact h.evalImported himports hpos
    | _ => exact J.problem hpos
  | unary pos op x ih =>
    obtain ⟨hsite, hx⟩ := forall_mem_cons.1 he
    exact J.bind (ih hx) fun y hy => h.unary hsite.place hy
  | binary pos op x y ihx ihy =>
    obtain ⟨hsite, hxy⟩ := forall_mem_cons.1 he
    obtain ⟨hx, hy⟩ := forall_mem_append.1 hxy
    exact J.bind (ihx hx) fun left hleft => J.bind (ihy hy) fun right hright =>
      h.binary hsite.place hleft hright
  | call pos callee x _ ih =>
    obtain ⟨hsite, hcall⟩ := forall_mem_cons.1 he
    obtain ⟨hcallee, hx⟩ := forall_mem_append.1 hcall
    have hpos : J.place pos := hsite.place
    -- a conversion to the type that a name stands for
    have hconvert {p : Position} {package : Option String} {name : String}
        (hname : (Site.ofName p package name).In o K J.place) :
        J.Holds Operand.moved (fun n => do
          let target ← Resolving.typeNamed (env n) (scope.moved (J.move n)) {}
            ((J.move n).position p) package name []
          Resolving.convert (env n) (resolve n) (← Resolving.eval (env n) (resolve n)
            (scope.moved (J.move n)) iota (x.moved (J.move n))) target ((J.move n).position pos))
          fun y => T y.type := by
      refine J.bind (h.typeNamed himports (q := {}) (fun _ _ => rfl) (fun _ _ ht => by cases ht)
        hname (forall_mem_nil _)) fun target htarget => ?_
      exact J.bind (ih hx) fun _ _ => h.convert hpos htarget
    cases callee with
    | ident p name =>
      have hcontains (n : ν) : (env n).outline.symbols.contains name = o.symbols.contains name := by
        rw [Table.contains, Table.contains, (h.outline n).symbols, Option.isSome_map]
      simp only [Resolving.eval, Expr.moved, hcontains]
      split
      · exact J.bind (ih hx) fun _ _ => h.lengthOf hpos
      · exact hconvert (hcallee _ (mem_singleton.2 rfl))
    | select p y name =>
      cases y with
      | ident =>
        refine hconvert ⟨(hcallee _ mem_cons_self).place, fun n hn => ?_⟩
        cases hn
      | _ => exact J.problem hpos
    | _ => exact J.problem hpos

theorem arrayLength (himports : J.Imports env scope T) {length : Expr} (hpos : J.place pos)
    (hlength : ∀ site ∈ length.sites, site.In o K J.place) :
    J.Holds (fun _ a => a) (fun n => arrayLength (env n) (resolve n) (scope.moved (J.move n))
      ((J.move n).position pos) (length.moved (J.move n))) fun _ => True := by
  refine J.bind (h.eval himports hlength) fun x _ => ?_
  obtain ⟨value, type⟩ := x
  simp only [Operand.moved]
  split
  · split
    · exact J.pure _ (fun _ => rfl) trivial
    · exact J.problem hpos
  · exact J.problem hpos

end Looks

/-! ## Type expressions -/

/-- What gives a property `T` to the types that the type expressions of `W` stand for: a type has it
when all that is inside does, unless it is a parameter or a reference, and what a name stands for
has it when the arguments do. -/
structure Carries (J : Judgement ν) (env : ν → Surroundings) (resolve : ν → String → Resolving Unit)
    (scope : Scope) (params : ν → Table String Ty) (T : Ty → Prop) (W : TypeExpr → Prop) : Prop where
  made : ∀ t : Ty, (∀ name index, t ≠ .param name index) → t.symbol? = none →
    (∀ c ∈ t.children, T c) → T t
  part : ∀ t, W t → ∀ c ∈ t.children, W c
  named : ∀ pos package name written (args : List Ty), W (.ref pos package name written) →
    args.length = written.length → (∀ a ∈ args, T a) →
    J.Holds Ty.moved (fun n => typeNamed (env n) (scope.moved (J.move n)) (params n)
      ((J.move n).position pos) package name (args.map (Ty.moved (J.move n)))) T
  embedded : ∀ pos fields, W (.struct pos fields) → ∀ d ∈ fields, ∀ name, d.embeds? = some name →
    J.Holds Ty.moved (fun n => typeNamed (env n) (scope.moved (J.move n)) (params n)
      ((J.move n).position name.pos) name.package name.name []) T
  line : ∀ pos fields, W (.struct pos fields) → ∀ d ∈ fields, J.place d.pos
  length : ∀ pos length elem, W (.array pos length elem) → J.Holds (fun _ a => a)
    (fun n => arrayLength (env n) (resolve n) (scope.moved (J.move n)) ((J.move n).position pos)
      (length.moved (J.move n))) fun _ => True
  behind : ∀ t, T t →
    J.Holds Ty.moved (fun n => underlying (env n) (resolve n) (t.moved (J.move n))) fun _ => True

theorem lineFields (hpos : J.place pos) (ht : T t) (tag : String) (embedded : Bool)
    (seen names : List String) :
    J.Holds (fun m => map (Ty.movedField m)) (fun n => lineFields (scope.moved (J.move n))
      ((J.move n).position pos) (t.moved (J.move n)) tag embedded seen names)
      fun fields => ∀ f ∈ fields, T f.type := by
  induction names generalizing seen with
  | nil => exact J.pure [] (fun _ => rfl) (forall_mem_nil _)
  | cons name names ih =>
    simp only [Resolving.lineFields]
    split
    · exact J.problem hpos
    · refine J.bind (ih (name :: seen)) fun fields hfields => ?_
      refine J.pure (⟨name, t, tag, embedded, isExported name, .ofPosition scope.file pos⟩ :: fields)
        (fun n => ?_) (forall_mem_cons.2 ⟨ht, hfields⟩)
      rw [map_cons, Ty.movedField, (J.move n).field_ofPosition]
      rfl

namespace Carries

variable {W : TypeExpr → Prop} (h : J.Carries env resolve scope params T W)

include h

theorem fieldOf {d : FieldDecl TypeExpr} (hpos : J.place d.pos)
    (hd : ∀ t, d.type? = some t → J.Holds Ty.moved (fun n => typeOf (env n) (resolve n)
      (scope.moved (J.move n)) (params n) (t.moved (J.move n))) T)
    (hembeds : ∀ name, d.embeds? = some name → J.Holds Ty.moved (fun n => typeNamed (env n)
      (scope.moved (J.move n)) (params n) ((J.move n).position name.pos) name.package name.name [])
      T) (seen : List String) :
    J.Holds (fun m => map (Ty.movedField m)) (fun n => fieldOf (env n) (resolve n)
      (scope.moved (J.move n)) (params n) seen (movedField (J.move n) d))
      fun fields => ∀ f ∈ fields, T f.type := by
  cases d with
  | named pos names t tag =>
    simp only [TypeExpr.movedField, Resolving.fieldOf]
    refine J.bind (hd t rfl) fun type htype => J.bind (J.tagText hpos tag) fun text _ => ?_
    exact lineFields hpos htype text false seen names
  | embedded pos isPointer name tag =>
    simp only [TypeExpr.movedField, Resolving.fieldOf]
    refine J.bind (hembeds name rfl) fun type htype => J.bind (J.tagText hpos tag) fun text _ => ?_
    cases isPointer with
    | true =>
      refine lineFields (t := .pointer type) hpos ?_ text true seen [name.name]
      exact h.made _ (by simp) rfl (by simpa [Ty.children] using htype)
    | false => exact lineFields hpos htype text true seen [name.name]

theorem fieldsOf {ds : List (FieldDecl TypeExpr)} (hpos : ∀ d ∈ ds, J.place d.pos)
    (hds : ∀ d ∈ ds, ∀ t, d.type? = some t → J.Holds Ty.moved (fun n => typeOf (env n) (resolve n)
      (scope.moved (J.move n)) (params n) (t.moved (J.move n))) T)
    (hembeds : ∀ d ∈ ds, ∀ name, d.embeds? = some name → J.Holds Ty.moved (fun n =>
      typeNamed (env n) (scope.moved (J.move n)) (params n) ((J.move n).position name.pos)
        name.package name.name []) T) (seen : List String) :
    J.Holds (fun m => map (Ty.movedField m)) (fun n => fieldsOf (env n) (resolve n)
      (scope.moved (J.move n)) (params n) seen (ds.map (movedField (J.move n))))
      fun fields => ∀ f ∈ fields, T f.type := by
  induction ds generalizing seen with
  | nil => exact J.pure [] (fun _ => rfl) (forall_mem_nil _)
  | cons d ds ih =>
    rw [forall_mem_cons] at hpos hds hembeds
    simp only [map_cons, Resolving.fieldsOf]
    refine J.bind (h.fieldOf hpos.1 hds.1 hembeds.1 seen) fun fields hfields => ?_
    have hnames (m : Move) : (fields.map (Ty.movedField m)).map (·.name) = fields.map (·.name) := by
      rw [map_map]
      exact map_congr_left fun f _ => by rw [Function.comp, Ty.movedField]
    simp only [hnames]
    refine J.bind (ih hpos.2 hds.2 hembeds.2 _) fun more hmore => ?_
    exact J.pure (fields ++ more) (fun _ => map_append.symm)
      (forall_mem_append.2 ⟨hfields, hmore⟩)

theorem typeOf {t : TypeExpr} (ht : W t) :
    J.Holds Ty.moved (fun n => typeOf (env n) (resolve n) (scope.moved (J.move n)) (params n)
      (t.moved (J.move n))) T := by
  have hone {u c : Ty} (hparam : ∀ n i, u ≠ .param n i) (hsymbol : u.symbol? = none)
      (hchildren : u.children = [c]) (hc : T c) : T u :=
    h.made u hparam hsymbol (by simpa [hchildren] using hc)
  have hpart := h.part
  induction t with
  | ref pos package name args ih =>
    simp only [TypeExpr.moved, Resolving.typeOf, typesOf_eq, TypeExpr.movedAll_eq]
    exact J.bind (J.mapM fun a ha => ih a ha (hpart _ ht a ha)) fun found hfound =>
      h.named pos package name args found ht hfound.2 hfound.1
  | pointer pos elem ih =>
    simp only [TypeExpr.moved, Resolving.typeOf]
    exact J.bind (ih (hpart _ ht elem mem_cons_self)) fun elem helem =>
      J.pure (.pointer elem) (fun _ => rfl) (hone (by simp) rfl rfl helem)
  | slice pos elem ih =>
    simp only [TypeExpr.moved, Resolving.typeOf]
    exact J.bind (ih (hpart _ ht elem mem_cons_self)) fun elem helem =>
      J.pure (.slice elem) (fun _ => rfl) (hone (by simp) rfl rfl helem)
  | chan pos dir elem ih =>
    simp only [TypeExpr.moved, Resolving.typeOf]
    exact J.bind (ih (hpart _ ht elem mem_cons_self)) fun elem helem =>
      J.pure (.chan elem dir) (fun _ => rfl) (hone (by simp) rfl rfl helem)
  | array pos length elem ih =>
    simp only [TypeExpr.moved, Resolving.typeOf]
    refine J.bind (h.length pos length elem ht) fun n _ => ?_
    exact J.bind (ih (hpart _ ht elem mem_cons_self)) fun elem helem =>
      J.pure (.array elem n) (fun _ => rfl) (hone (by simp) rfl rfl helem)
  | map pos key elem ihk ihe =>
    simp only [TypeExpr.moved, Resolving.typeOf]
    refine J.bind (ihk (hpart _ ht key mem_cons_self)) fun key hkey =>
      J.bind (ihe (hpart _ ht elem (by simp [children]))) fun elem helem => ?_
    exact J.pure (.map key elem) (fun _ => rfl)
      (h.made _ (by simp) rfl (by simpa [Ty.children] using ⟨hkey, helem⟩))
  | func pos ps rs variadic ihp ihr =>
    simp only [TypeExpr.moved, Resolving.typeOf, typesOf_eq, TypeExpr.movedAll_eq]
    refine J.bind (J.mapM fun t ht' => ihp t ht' (hpart _ ht t (mem_append_left _ ht')))
      fun ps hps => J.bind (J.mapM fun t ht' => ihr t ht' (hpart _ ht t
        (mem_append_right _ ht'))) fun rs hrs => ?_
    exact J.pure (.func ps rs variadic) (fun _ => (Ty.moved_eq (.func ps rs variadic)).symm)
      (h.made _ (by simp) rfl (forall_mem_append.2 ⟨hps.1, hrs.1⟩))
  | struct pos fields ih =>
    simp only [TypeExpr.moved, Resolving.typeOf, TypeExpr.movedFields_eq]
    refine J.bind (h.fieldsOf (h.line pos fields ht) (fun d hd t hdt => ih d hd t hdt (hpart _ ht t
      (mem_filterMap.2 ⟨d, hd, hdt⟩))) (h.embedded pos fields ht) []) fun fields hfields => ?_
    exact J.pure (.struct fields) (fun _ => (Ty.moved_struct fields).symm)
      (h.made _ (by simp) rfl (forall_mem_map.2 hfields))
  | interface pos embeds methods ih =>
    simp only [TypeExpr.moved, Resolving.typeOf, typesOf_eq, TypeExpr.movedAll_eq]
    refine J.bind (J.mapM fun t ht' => ih t ht' (hpart _ ht t ht')) fun embeds hembeds => ?_
    refine J.bind (J.forM fun t ht => J.bind (h.behind t (hembeds.1 t ht)) fun _ _ =>
      J.pure _ (fun _ => rfl) trivial) fun _ _ => ?_
    exact J.pure (.interface embeds methods)
      (fun _ => (Ty.moved_interface embeds methods).symm)
      (h.made _ (by simp) rfl hembeds.1)
  | union pos terms ih =>
    simp only [TypeExpr.moved, Resolving.typeOf, termsOf_eq, TypeExpr.movedTerms_eq]
    refine J.bind (J.mapM (u := Ty.movedTerm) (R := fun t => T t.type) fun t ht' => ?_)
      fun terms hterms => ?_
    · obtain ⟨tilde, t⟩ := t
      simp only [movedTerm, termOf]
      exact J.bind (ih _ ht' (hpart _ ht t (mem_map_of_mem ht'))) fun type htype =>
        J.pure ⟨tilde, type⟩ (fun _ => rfl) htype
    · exact J.pure (.union terms) (fun _ => (Ty.moved_union terms).symm)
        (h.made _ (by simp) rfl (forall_mem_map.2 hterms.1))

theorem paramsOf (hparams : J.Params q params) (decls : List TypeParamDecl)
    (hdecls : ∀ d ∈ decls, W d.constraint) :
    J.Holds (fun m => map (TypeParam.moved m)) (fun n => paramsOf (env n) (resolve n)
      (scope.moved (J.move n)) (params n) (decls.map (TypeParamDecl.moved (J.move n))))
      fun found => ∀ p ∈ found, ∀ t, p.constraint = some t → T t := by
  induction decls with
  | nil => exact J.pure [] (fun _ => rfl) (forall_mem_nil _)
  | cons decl decls ih =>
    rw [forall_mem_cons] at hdecls
    simp only [map_cons, Resolving.paramsOf]
    refine J.bind (h.typeOf hdecls.1) fun constraint hconstraint => ?_
    refine J.bind (ih hdecls.2) fun more hmore => ?_
    refine J.pure (decl.names.map (fun name => ⟨name, paramIndex q name, some constraint⟩) ++ more)
      (fun n => ?_) (forall_mem_append.2 ⟨forall_mem_map.2 fun n _ t ht => ?_, hmore⟩)
    · rw [map_append, map_map]
      congr 1
      refine map_congr_left fun name _ => ?_
      rw [paramIndex_moved (hparams n)]
      rfl
    · cases ht
      exact hconstraint

end Carries

/-- What is written in a type expression is written in those around it. -/
theorem sites_children {t c : TypeExpr} (hc : c ∈ t.children) {site : Site}
    (hsite : site ∈ c.sites) : site ∈ t.sites := by
  cases t with
  | ref pos package name args | interface pos embeds methods =>
    rw [sites, sitesAll_eq]
    exact mem_cons_of_mem _ (mem_flatMap.2 ⟨c, hc, hsite⟩)
  | pointer | slice | chan =>
    cases mem_singleton.1 hc
    rw [sites]
    exact mem_cons_of_mem _ hsite
  | array =>
    cases mem_singleton.1 hc
    rw [sites]
    exact mem_cons_of_mem _ (mem_append_right _ hsite)
  | map =>
    rw [sites]
    rcases mem_cons.1 hc with rfl | hc
    · exact mem_cons_of_mem _ (mem_append_left _ hsite)
    · cases mem_singleton.1 hc
      exact mem_cons_of_mem _ (mem_append_right _ hsite)
  | func pos ps rs variadic =>
    rw [sites, sitesAll_eq, sitesAll_eq, ← flatMap_append]
    exact mem_cons_of_mem _ (mem_flatMap.2 ⟨c, hc, hsite⟩)
  | struct pos fields =>
    obtain ⟨d, hd, hdc⟩ := mem_filterMap.1 hc
    rw [sites, sitesFields_eq]
    refine mem_cons_of_mem _ (mem_flatMap.2 ⟨d, hd, ?_⟩)
    cases d with
    | named =>
      cases hdc
      exact mem_cons_of_mem _ hsite
    | embedded => cases hdc
  | union pos terms =>
    obtain ⟨term, hterm, rfl⟩ := mem_map.1 hc
    rw [sites, sitesTerms_eq]
    exact mem_cons_of_mem _ (mem_flatMap.2 ⟨term, hterm, hsite⟩)

/-- What is known of names is known of type expressions. -/
theorem Looks.carries (h : J.Looks env resolve o K T) (himports : J.Imports env scope T)
    (hparams : J.Params q params) (hq : ∀ name t, q.get? name = some t → T t) :
    J.Carries env resolve scope params T fun t => ∀ site ∈ t.sites, site.In o K J.place where
  made t _ := h.made t
  part t ht c hc site hsite := ht site (sites_children hc hsite)
  named pos package name written args ht _ hargs := by
    rw [sites] at ht
    exact h.typeNamed himports hparams hq (ht _ mem_cons_self) hargs
  embedded pos fields ht d hd name hname := by
    rw [sites, sitesFields_eq] at ht
    have hsites := forall_mem_flatMap.1 (forall_mem_cons.1 ht).2 d hd
    cases d with
    | named => cases hname
    | embedded =>
      cases hname
      exact h.typeNamed himports hparams hq (hsites _ (mem_cons_of_mem _
        (mem_singleton.2 rfl))) (forall_mem_nil _)
  line pos fields ht d hd := by
    rw [sites, sitesFields_eq] at ht
    have hsites := forall_mem_flatMap.1 (forall_mem_cons.1 ht).2 d hd
    cases d <;> exact (hsites _ mem_cons_self).place
  length pos length elem ht := by
    rw [sites] at ht
    obtain ⟨hsite, hrest⟩ := forall_mem_cons.1 ht
    exact h.arrayLength himports hsite.place (forall_mem_append.1 hrest).1
  behind t ht := J.mono (h.behind t ht) fun _ _ => trivial

/-! ## Declarations -/

section

variable {m : Move}

theorem paramTypes_moved (decls : List TypeParamDecl) (name : String) :
    (paramTypes (decls.map (TypeParamDecl.moved m))).get? name =
      ((paramTypes decls).get? name).map (Ty.moved m) := by
  have hnames : (decls.map (TypeParamDecl.moved m)).flatMap (·.names) = decls.flatMap (·.names) := by
    rw [flatMap_map]
    rfl
  rw [paramTypes, hnames, paramTypes]
  -- the types of the parameters have no places
  refine foldlRecOn (motive := fun params : Table String Ty =>
    params.get? name = (params.get? name).map (Ty.moved m)) _ _ rfl fun params hparams n _ => ?_
  rw [Table.get?_insert]
  split
  · rfl
  · exact hparams

theorem paramTypes_param {decls : List TypeParamDecl} {n : String}
    (h : (paramTypes decls).get? n = some t) : ∃ name index, t = .param name index := by
  refine foldlRecOn (motive := fun params : Table String Ty =>
    ∀ t, params.get? n = some t → ∃ name index, t = .param name index) _ _ ?_
    (fun params hparams name _ t ht => ?_) t h
  · intro t ht
    cases ht
  · rw [Table.get?_insert] at ht
    split at ht
    · cases ht
      exact ⟨_, _, rfl⟩
    · exact hparams t ht

end

namespace Looks

variable (h : J.Looks env resolve o K T) (name : String)

include h

/-- A declared type is stored at three times, with types that were found. -/
theorem resolveType {decl : TypeDecl} (himports : J.Imports env decl.scope T)
    (hdecl : ∀ site ∈ decl.spec.sites, site.In o K J.place)
    (hset : ∀ info : TypeInfo, (∀ p ∈ info.params, ∀ t, p.constraint = some t → T t) →
      (∀ t, info.underlying = some t ∨ info.rhs = some t → T t) → J.Holds (fun _ a => a)
        (fun n => setBody name (.type (info.moved (J.move n)))) fun _ => True) :
    J.Holds (fun _ a => a) (fun n => resolveType (env n) (resolve n) name (decl.moved (J.move n)))
      fun _ => True := by
  obtain ⟨⟨pos, declared, decls, type, isAlias⟩, scope⟩ := decl
  obtain ⟨hdecls, htype⟩ := forall_mem_append.1 (forall_mem_cons.1 hdecl).2
  have hparams : J.Params (paramTypes decls)
      fun n => paramTypes (decls.map (TypeParamDecl.moved (J.move n))) :=
    fun n name => paramTypes_moved _ name
  have hcarries := h.carries himports hparams fun _ _ ht => by
    obtain ⟨n, i, rfl⟩ := paramTypes_param ht
    exact h.made _ rfl (forall_mem_nil _)
  refine J.bind (hcarries.paramsOf hparams decls (forall_mem_flatMap.1 hdecls))
    fun params hps => ?_
  refine J.bind (hset { params } hps (by simp)) fun _ _ => ?_
  refine J.bind (hcarries.typeOf htype) fun written hT => ?_
  have hrest (info : TypeInfo) (hparams : info.params = params) (hnone : info.underlying = none)
      (hrhs : ∀ t, info.rhs = some t → T t) : J.Holds (fun _ a => a) (fun n => do
        setBody name (.type (info.moved (J.move n)))
        let behind ← underlying (env n) (resolve n) (written.moved (J.move n))
        setBody name (.type { info.moved (J.move n) with underlying := some behind }))
        fun _ => True := by
    refine J.bind (hset info (hparams ▸ hps) fun t ht => ?_) fun _ _ => ?_
    · exact ht.elim (fun ht => by simp [hnone] at ht) (hrhs t)
    · refine J.bind (h.behind written hT) fun behind hbehind => ?_
      refine hset { info with underlying := some behind } (hparams ▸ hps) fun t ht => ?_
      exact ht.elim (fun ht => Option.some.inj ht ▸ hbehind) (hrhs t)
  cases isAlias with
  | false => exact hrest { params } rfl rfl (by simp)
  | true => exact hrest { params, isAlias := true, rhs := some written } rfl rfl (by simp [hT])

theorem resolveConst {decl : ConstDecl} (himports : J.Imports env decl.scope T)
    (hpos : J.place decl.spec.pos) (hvalue : ∀ site ∈ decl.value.sites, site.In o K J.place)
    (htype : ∀ t, decl.spec.type = some t → ∀ site ∈ t.sites, site.In o K J.place)
    (hset : ∀ value type, (∀ t, type = some t → T t) → J.Holds (fun _ a => a)
      (fun n => setBody name (SymbolBody.moved (J.move n) (.const value type))) fun _ => True) :
    J.Holds (fun _ a => a) (fun n => resolveConst (env n) (resolve n) name (decl.moved (J.move n)))
      fun _ => True := by
  have hstore (x : Operand) (hx : T x.type) : J.Holds (fun _ a => a) (fun n => setBody name
      (.const (x.moved (J.move n)).value (if (x.moved (J.move n)).type.isUntyped then none
        else some (x.moved (J.move n)).type))) fun _ => True := by
    have hbody (m : Move) : SymbolBody.const (x.moved m).value
        (if (x.moved m).type.isUntyped then none else some (x.moved m).type) =
        SymbolBody.moved m (.const x.value (if x.type.isUntyped then none else some x.type)) := by
      simp only [Operand.moved, Ty.isUntyped_moved, SymbolBody.moved]
      split_ifs <;> rfl
    simp only [hbody]
    refine hset _ _ fun t ht => ?_
    split_ifs at ht
    cases ht
    exact hx
  simp only [Resolving.resolveConst, ConstDecl.moved, ConstSpec.moved]
  refine J.bind (h.eval himports hvalue) fun x hx => ?_
  cases hspec : decl.spec.type with
  | none => exact hstore x hx
  | some t =>
    refine J.bind ((h.carries himports (q := {}) (fun _ _ => rfl)
      fun _ _ ht => by cases ht).typeOf (htype t hspec)) fun target htarget => ?_
    exact J.bind (h.convert hpos htarget) fun y hy => hstore y hy

/-- A declaration is resolved by the lines of its kind. -/
theorem resolveBody (hnone : o.symbols.get? name = none → J.Holds (fun _ a => a)
      (fun _ => throw (.fault (.undeclared name))) fun _ : Unit => True)
    (htype : ∀ s info decl, o.symbols.get? name = some s → s.body = .type info →
      o.types.get? name = some decl → J.Holds (fun _ a => a)
        (fun n => Resolving.resolveType (env n) (resolve n) name (decl.moved (J.move n)))
        fun _ => True) (hconst : ∀ decl, o.consts.get? name = some decl → J.Holds (fun _ a => a)
      (fun n => Resolving.resolveConst (env n) (resolve n) name (decl.moved (J.move n)))
      fun _ => True) :
    J.Holds (fun _ a => a) (fun n => resolveBody (env n) (resolve n) name) fun _ => True := by
  simp only [Resolving.resolveBody, (h.outline _).symbols, (h.outline _).types,
    (h.outline _).consts]
  cases hs : o.symbols.get? name with
  | none => exact hnone hs
  | some s =>
    have hbody := htype s
    obtain ⟨sname, spackage, span, body⟩ := s
    cases body with
    | type info =>
      cases hdecl : o.types.get? name with
      | none => exact J.pure _ (fun _ => rfl) trivial
      | some decl => exact hbody info decl hs rfl hdecl
    | const =>
      cases hdecl : o.consts.get? name with
      | none => exact J.pure _ (fun _ => rfl) trivial
      | some decl => exact hconst decl hdecl

end Looks

end

end Judgement

end Resolving

end DeclBridge
