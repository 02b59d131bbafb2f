import DeclBridge.Proofs.Table
import DeclBridge.Types.Ty

/-!
# Induction on types

A type holds lists of types, of fields and of terms, so the recursor that comes with it has a motive
for each of these.  `Ty.inductionOn` has the one motive that proofs need, with a hypothesis for
every member of a list.  The functions that walk lists of types are maps over them.
-/

namespace DeclBridge.Ty

open List

variable {t u : Ty} {args : List Ty} {id : SymbolId} {motive : Ty → Prop}

/-- Induction on a type, with a hypothesis for each type directly inside it. -/
@[elab_as_elim, induction_eliminator]
theorem inductionOn (basic : ∀ kind, motive (.basic kind))
    (pointer : ∀ elem, motive elem → motive (.pointer elem))
    (array : ∀ elem length, motive elem → motive (.array elem length))
    (slice : ∀ elem, motive elem → motive (.slice elem))
    (map : ∀ key elem, motive key → motive elem → motive (.map key elem))
    (chan : ∀ elem dir, motive elem → motive (.chan elem dir))
    (func : ∀ params results variadic, (∀ t ∈ params, motive t) → (∀ t ∈ results, motive t) →
      motive (.func params results variadic))
    (struct : ∀ fields, (∀ f ∈ fields, motive f.type) → motive (.struct fields))
    (named : ∀ symbol args, (∀ t ∈ args, motive t) → motive (.named symbol args))
    (aliased : ∀ symbol args, (∀ t ∈ args, motive t) → motive (.aliased symbol args))
    (interface : ∀ embeds methods, (∀ t ∈ embeds, motive t) → motive (.interface embeds methods))
    (union : ∀ terms, (∀ t ∈ terms, motive t.type) → motive (.union terms))
    (param : ∀ name index, motive (.param name index)) (t : Ty) : motive t :=
  @Ty.rec motive (fun ts => ∀ t ∈ ts, motive t) (fun fs => ∀ f ∈ fs, motive f.type)
    (fun ts => ∀ t ∈ ts, motive t.type) (fun f => motive f.type) (fun t => motive t.type)
    basic pointer array slice map chan func struct named aliased interface union param
    (forall_mem_nil _)
    (fun _ _ hd tl => forall_mem_cons.2 ⟨hd, tl⟩)
    (forall_mem_nil _)
    (fun _ _ hd tl => forall_mem_cons.2 ⟨hd, tl⟩)
    (forall_mem_nil _)
    (fun _ _ hd tl => forall_mem_cons.2 ⟨hd, tl⟩)
    (fun _ _ _ _ _ _ h => h) (fun _ _ h => h) t

/-! ## Parts -/

theorem partsAll_eq (ts : List Ty) : partsAll ts = ts.flatMap parts := by
  induction ts with
  | nil => rfl
  | cons t ts ih => rw [partsAll, ih, flatMap_cons]

theorem partsFields_eq (fs : List (Field Ty)) : partsFields fs = fs.flatMap (·.type.parts) := by
  induction fs with
  | nil => rfl
  | cons f fs ih => rw [partsFields, ih, flatMap_cons, partsField]

theorem partsTerms_eq (ts : List (Term Ty)) : partsTerms ts = ts.flatMap (·.type.parts) := by
  induction ts with
  | nil => rfl
  | cons t ts ih => rw [partsTerms, ih, flatMap_cons, partsTerm]

/-- The types directly inside a type. -/
def children : Ty → List Ty
  | pointer e | array e _ | slice e | chan e _ => [e]
  | map k e => [k, e]
  | func ps rs _ => ps ++ rs
  | struct fs => fs.map (·.type)
  | named _ ts | aliased _ ts | interface ts _ => ts
  | union ts => ts.map (·.type)
  | basic _ | param _ _ => []

theorem parts_eq (t : Ty) : t.parts = t :: t.children.flatMap parts := by
  cases t <;>
    simp [parts, children, partsAll_eq, partsFields_eq, partsTerms_eq, flatMap_map]

/-- The type with other types directly inside it. -/
def mapChildren (f : Ty → Ty) : Ty → Ty
  | basic k => basic k
  | pointer e => pointer (f e)
  | array e n => array (f e) n
  | slice e => slice (f e)
  | map k e => map (f k) (f e)
  | chan e d => chan (f e) d
  | func ps rs v => func (ps.map f) (rs.map f) v
  | struct fs => struct (fs.map fun d => { d with type := f d.type })
  | named s ts => named s (ts.map f)
  | aliased s ts => aliased s (ts.map f)
  | interface es ms => interface (es.map f) ms
  | union ts => union (ts.map fun d => { d with type := f d.type })
  | param n i => param n i

variable {f g : Ty → Ty}

@[simp] theorem children_mapChildren (t : Ty) : (t.mapChildren f).children = t.children.map f := by
  cases t <;> simp [mapChildren, children]

theorem mapChildren_mapChildren (t : Ty) :
    (t.mapChildren f).mapChildren g = t.mapChildren fun c => g (f c) := by
  cases t <;> simp [mapChildren, Function.comp_def]

@[simp] theorem mapChildren_id (t : Ty) : (t.mapChildren fun c => c) = t := by
  cases t <;> simp [mapChildren]

theorem mapChildren_congr (h : ∀ c ∈ t.children, f c = g c) :
    t.mapChildren f = t.mapChildren g := by
  cases t <;> simp_all [mapChildren, children]

mutual

/-- The type with `f` applied to every type in it, the innermost first. -/
def mapParts (f : Ty → Ty) : Ty → Ty
  | basic k => f (basic k)
  | pointer e => f (pointer (e.mapParts f))
  | array e n => f (array (e.mapParts f) n)
  | slice e => f (slice (e.mapParts f))
  | map k e => f (map (k.mapParts f) (e.mapParts f))
  | chan e d => f (chan (e.mapParts f) d)
  | func ps rs v => f (func (mapPartsAll f ps) (mapPartsAll f rs) v)
  | struct fs => f (struct (mapPartsFields f fs))
  | named s ts => f (named s (mapPartsAll f ts))
  | aliased s ts => f (aliased s (mapPartsAll f ts))
  | interface es ms => f (interface (mapPartsAll f es) ms)
  | union ts => f (union (mapPartsTerms f ts))
  | param n i => f (param n i)
termination_by structural t => t

def mapPartsAll (f : Ty → Ty) : List Ty → List Ty
  | [] => []
  | t :: ts => t.mapParts f :: mapPartsAll f ts
termination_by structural ts => ts

def mapPartsFields (f : Ty → Ty) : List (Field Ty) → List (Field Ty)
  | [] => []
  | d :: ds => mapPartsField f d :: mapPartsFields f ds
termination_by structural ds => ds

def mapPartsField (f : Ty → Ty) : Field Ty → Field Ty
  | ⟨n, t, tag, em, ex, span⟩ => ⟨n, t.mapParts f, tag, em, ex, span⟩
termination_by structural d => d

def mapPartsTerms (f : Ty → Ty) : List (Term Ty) → List (Term Ty)
  | [] => []
  | d :: ds => mapPartsTerm f d :: mapPartsTerms f ds
termination_by structural ds => ds

def mapPartsTerm (f : Ty → Ty) : Term Ty → Term Ty
  | ⟨tilde, t⟩ => ⟨tilde, t.mapParts f⟩
termination_by structural d => d

end

/-- A type is changed after what is directly inside it. -/
theorem mapParts_eq (t : Ty) : t.mapParts f = f (t.mapChildren (mapParts f)) := by
  have hall (ts : List Ty) : mapPartsAll f ts = ts.map (mapParts f) := by
    induction ts with
    | nil => rfl
    | cons t ts ih => rw [mapPartsAll, ih, map_cons]
  have hfields (ds : List (Field Ty)) :
      mapPartsFields f ds = ds.map fun d => { d with type := d.type.mapParts f } := by
    induction ds with
    | nil => rfl
    | cons d ds ih => rw [mapPartsFields, ih, map_cons, mapPartsField]
  have hterms (ds : List (Term Ty)) :
      mapPartsTerms f ds = ds.map fun d => { d with type := d.type.mapParts f } := by
    induction ds with
    | nil => rfl
    | cons d ds ih => rw [mapPartsTerms, ih, map_cons, mapPartsTerm]
  cases t <;> simp only [mapParts, mapChildren, hall, hfields, hterms]

/-- Induction on a type, from what is directly inside it. -/
theorem childInduction
    (step : ∀ t, (∀ c ∈ t.children, motive c) → motive t) (t : Ty) : motive t := by
  induction t with
  | basic kind | param name index => exact step _ (by simp [children])
  | pointer elem ih | slice elem ih | array elem length ih | chan elem dir ih =>
    exact step _ (by simpa [children] using ih)
  | map key elem ihk ihe => exact step _ (by simpa [children] using ⟨ihk, ihe⟩)
  | func params results variadic ihp ihr =>
    refine step _ fun c hc => ?_
    rcases mem_append.1 hc with hc | hc
    · exact ihp c hc
    · exact ihr c hc
  | struct fields ih | union terms ih => exact step _ (by simpa [children] using ih)
  | named symbol args ih | aliased symbol args ih | interface args methods ih => exact step _ ih

/-- Induction on a type, with the parameters on their own. -/
theorem paramInduction (param : ∀ n i, motive (.param n i))
    (step : ∀ t, (∀ n i, t ≠ .param n i) → (∀ c ∈ t.children, motive c) → motive t) (t : Ty) :
    motive t := by
  induction t using childInduction with
  | step t ih =>
    by_cases hparam : ∃ n i, t = .param n i
    · obtain ⟨n, i, rfl⟩ := hparam
      exact param n i
    · exact step t (fun n i heq => hparam ⟨n, i, heq⟩) ih

theorem self_mem_parts (t : Ty) : t ∈ t.parts := by
  rw [parts_eq]
  exact mem_cons_self

theorem child_mem_parts {c : Ty} (h : c ∈ t.children) : c ∈ t.parts := by
  rw [parts_eq]
  exact mem_cons_of_mem _ (mem_flatMap.2 ⟨c, h, self_mem_parts c⟩)

/-- What holds of all parts of a type holds of the type and of all parts of what is inside it. -/
theorem forall_mem_parts {P : Ty → Prop} :
    (∀ u ∈ t.parts, P u) ↔ P t ∧ ∀ c ∈ t.children, ∀ u ∈ c.parts, P u := by
  rw [parts_eq, forall_mem_cons]
  refine and_congr_right fun _ => ⟨fun h c hc u hu => ?_, fun h u hu => ?_⟩
  · exact h u (mem_flatMap.2 ⟨c, hc, hu⟩)
  · obtain ⟨c, hc, hu⟩ := mem_flatMap.1 hu
    exact h c hc u hu

theorem parts_trans {v : Ty} (hu : u ∈ t.parts) (hv : v ∈ u.parts) : v ∈ t.parts := by
  induction t using childInduction with
  | step t ih =>
    rw [parts_eq] at hu
    rcases mem_cons.1 hu with rfl | hu
    · exact hv
    · obtain ⟨c, hc, hu⟩ := mem_flatMap.1 hu
      rw [parts_eq]
      exact mem_cons_of_mem _ (mem_flatMap.2 ⟨c, hc, ih c hc hu⟩)

/-! ## References -/

/-- The declared type that a type refers to, and whether it does so as an alias. -/
def reference? : Ty → Option (Bool × SymbolId)
  | named id _ => some (false, id)
  | aliased id _ => some (true, id)
  | _ => none

/-- All references in a type are in `T`. -/
def Refers (T : Bool → SymbolId → Prop) (t : Ty) : Prop :=
  ∀ u ∈ t.parts, ∀ isAlias id, u.reference? = some (isAlias, id) → T isAlias id

theorem refers_iff {T : Bool → SymbolId → Prop} : t.Refers T ↔
    (∀ isAlias id, t.reference? = some (isAlias, id) → T isAlias id) ∧
      ∀ c ∈ t.children, c.Refers T :=
  forall_mem_parts

/-- The symbol that a type refers to. -/
def symbol? : Ty → Option SymbolId
  | named id _ | aliased id _ => some id
  | _ => none

theorem symbol?_eq (t : Ty) : t.symbol? = t.reference?.map (·.2) := by
  cases t <;> rfl

/-- All packages that a type refers to are in `R`. -/
def Within (R : String → Prop) (t : Ty) : Prop :=
  ∀ u ∈ t.parts, ∀ path name, u.symbol? = some ⟨some path, name⟩ → R path

variable {R : String → Prop}

/-- The packages that a type refers to are those of its references. -/
theorem within_iff_refers :
    t.Within R ↔ t.Refers fun _ id => ∀ path, id.package = some path → R path := by
  refine forall₂_congr fun u _ => ?_
  rw [symbol?_eq]
  constructor
  · intro h isAlias id hid path hpath
    refine h path id.name ?_
    rw [hid, ← hpath, Option.map_some]
  · intro h path name hsymbol
    obtain ⟨⟨isAlias, id⟩, hid, rfl⟩ := Option.map_eq_some_iff.1 hsymbol
    exact h isAlias _ hid path rfl

theorem Within.mono {R' : String → Prop} (hR : ∀ path, R path → R' path)
    (h : t.Within R) : t.Within R' :=
  fun u hu path name hsymbol => hR path (h u hu path name hsymbol)

theorem Within.part (h : t.Within R) (hu : u ∈ t.parts) : u.Within R :=
  fun v hv => h v (parts_trans hu hv)

theorem within_iff : t.Within R ↔
    (∀ path name, t.symbol? = some ⟨some path, name⟩ → R path) ∧ ∀ c ∈ t.children, c.Within R :=
  forall_mem_parts

theorem within_of_children (hsymbol : t.symbol? = none)
    (h : ∀ c ∈ t.children, c.Within R) : t.Within R := by
  refine within_iff.2 ⟨fun path name heq => ?_, h⟩
  cases hsymbol.symm.trans heq

/-- A reference refers to the package of its symbol and to what is inside it. -/
theorem within_of_symbol (hid : t.symbol? = some id) :
    t.Within R ↔ (∀ path, id.package = some path → R path) ∧ ∀ c ∈ t.children, c.Within R := by
  rw [within_iff, hid]
  refine and_congr_left fun _ => ⟨fun h path hpath => h path id.name ?_, fun h path name heq => ?_⟩
  · rw [← hpath]
  · cases heq
    exact h path rfl

/-! ## Substitution -/

theorem substAll_eq (args : Table String Ty) (ts : List Ty) :
    substAll args ts = ts.map (subst args) := by
  induction ts with
  | nil => rfl
  | cons t ts ih => rw [substAll, ih, map_cons]

theorem substFields_eq (args : Table String Ty) (fs : List (Field Ty)) :
    substFields args fs = fs.map fun f => { f with type := f.type.subst args } := by
  induction fs with
  | nil => rfl
  | cons f fs ih => rw [substFields, ih, map_cons, substField]

theorem substTerms_eq (args : Table String Ty) (ts : List (Term Ty)) :
    substTerms args ts = ts.map fun t => { t with type := t.type.subst args } := by
  induction ts with
  | nil => rfl
  | cons t ts ih => rw [substTerms, ih, map_cons, substTerm]

/-- A substitution changes what is directly inside a type, unless the type is a parameter. -/
theorem subst_eq (args : Table String Ty) (h : ∀ n i, t ≠ param n i) :
    t.subst args = t.mapChildren (subst args) := by
  cases t with
  | param n i => exact absurd rfl (h n i)
  | _ => simp only [subst, mapChildren, substAll_eq, substFields_eq, substTerms_eq]

theorem children_subst (args : Table String Ty) (h : ∀ n i, t ≠ param n i) :
    (t.subst args).children = t.children.map (subst args) := by
  rw [subst_eq args h, children_mapChildren]

theorem subst_ne_param (args : Table String Ty) (h : ∀ n i, t ≠ param n i) (n : String) (i : Nat) :
    t.subst args ≠ param n i := by
  rw [subst_eq args h]
  cases t <;> simp_all [mapChildren]

/-- A substitution leaves alone what a type itself refers to. -/
theorem reference?_subst (args : Table String Ty) (h : ∀ n i, t ≠ param n i) :
    (t.subst args).reference? = t.reference? := by
  cases t with
  | param n i => exact absurd rfl (h n i)
  | _ => rfl

theorem symbol?_subst (args : Table String Ty) (h : ∀ n i, t ≠ param n i) :
    (t.subst args).symbol? = t.symbol? := by
  rw [symbol?_eq, reference?_subst args h, ← symbol?_eq]

/-- After a substitution a type refers to what it or the arguments referred to. -/
theorem Refers.subst {T : Bool → SymbolId → Prop} {args : Table String Ty}
    (hargs : ∀ name u, args.get? name = some u → u.Refers T) (h : t.Refers T) :
    (t.subst args).Refers T := by
  induction t using paramInduction with
  | param n i =>
    rw [Ty.subst]
    cases hget : args.get? n with
    | none => exact h
    | some u => exact hargs n u hget
  | step t hparam ih =>
    rw [refers_iff] at h ⊢
    rw [reference?_subst args hparam, children_subst args hparam]
    exact ⟨h.1, forall_mem_map.2 fun c hc => ih c hc (h.2 c hc)⟩

theorem Within.subst {args : Table String Ty} (hargs : ∀ name t, args.get? name = some t → t.Within
    R) (h : t.Within R) : (t.subst args).Within R :=
  within_iff_refers.2 (.subst (fun name u hu => within_iff_refers.1 (hargs name u hu))
    (within_iff_refers.1 h))

end DeclBridge.Ty

namespace DeclBridge

/-! ## Type expressions -/

/-- The type that a line of a struct spells out. -/
def FieldDecl.type? {α : Type} : FieldDecl α → Option α
  | .named _ _ type _ => some type
  | .embedded .. => none

/-- The type expressions directly inside a type expression. -/
def TypeExpr.children : TypeExpr → List TypeExpr
  | ref _ _ _ args => args
  | pointer _ elem | array _ _ elem | slice _ elem | chan _ _ elem => [elem]
  | map _ key elem => [key, elem]
  | func _ params results _ => params ++ results
  | struct _ fields => fields.filterMap FieldDecl.type?
  | interface _ embeds _ => embeds
  | union _ terms => terms.map (·.type)

/-- The name of the type that a line of a struct embeds. -/
def FieldDecl.embeds? {α : Type} : FieldDecl α → Option EmbeddedName
  | .embedded _ _ name _ => some name
  | .named .. => none

/-- The names that a type expression itself refers to, each with the number of its arguments. -/
def TypeExpr.uses : TypeExpr → List (Option String × String × Nat)
  | .ref _ package name args => [(package, name, args.length)]
  | .struct _ fields => fields.filterMap fun d => d.embeds?.map fun n => (n.package, n.name, 0)
  | _ => []

/-- Induction on a type expression, with a hypothesis for each type expression directly inside. -/
@[elab_as_elim, induction_eliminator]
theorem TypeExpr.inductionOn {motive : TypeExpr → Prop}
    (ref : ∀ pos package name args, (∀ t ∈ args, motive t) → motive (.ref pos package name args))
    (pointer : ∀ pos elem, motive elem → motive (.pointer pos elem))
    (array : ∀ pos length elem, motive elem → motive (.array pos length elem))
    (slice : ∀ pos elem, motive elem → motive (.slice pos elem))
    (map : ∀ pos key elem, motive key → motive elem → motive (.map pos key elem))
    (chan : ∀ pos dir elem, motive elem → motive (.chan pos dir elem))
    (func : ∀ pos params results variadic, (∀ t ∈ params, motive t) → (∀ t ∈ results, motive t) →
      motive (.func pos params results variadic))
    (struct : ∀ pos fields, (∀ d ∈ fields, ∀ t, d.type? = some t → motive t) →
      motive (.struct pos fields)) (interface : ∀ pos embeds methods, (∀ t ∈ embeds, motive t) →
      motive (.interface pos embeds methods))
    (union : ∀ pos terms, (∀ t ∈ terms, motive t.type) → motive (.union pos terms))
    (t : TypeExpr) : motive t :=
  @TypeExpr.rec motive (fun ts => ∀ t ∈ ts, motive t)
    (fun ds => ∀ d ∈ ds, ∀ t, d.type? = some t → motive t) (fun ts => ∀ t ∈ ts, motive t.type)
    (fun d => ∀ t, d.type? = some t → motive t) (fun t => motive t.type)
    ref pointer array slice map chan func struct interface union
    (List.forall_mem_nil _)
    (fun _ _ hd tl => List.forall_mem_cons.2 ⟨hd, tl⟩)
    (List.forall_mem_nil _)
    (fun _ _ hd tl => List.forall_mem_cons.2 ⟨hd, tl⟩)
    (List.forall_mem_nil _)
    (fun _ _ hd tl => List.forall_mem_cons.2 ⟨hd, tl⟩)
    (fun _ _ _ _ h _ heq => Option.some.inj heq ▸ h)
    (fun _ _ _ _ _ heq => nomatch heq) (fun _ _ h => h) t

end DeclBridge
