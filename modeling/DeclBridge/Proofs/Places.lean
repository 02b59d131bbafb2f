import DeclBridge.Proofs.Stubs

/-!
# Declarations apart from their places

Everything that is read from a file knows where it stands.  A `Move` says what becomes of places,
and `moved` applies it on every level from expressions to programs.  What a type is identified by,
and what becomes of it when parameters are replaced, does not depend on places.

Two moves matter.  After `Move.forget` declarations that are written alike in different places are
the same (`unplaced`).  `Move.stay` changes nothing (`Ty.moved_stay` and its like), so that what
holds of moved declarations holds of declarations that stand where they did, among other packages.
-/

namespace DeclBridge

open List

/-- What becomes of places: of positions and the name of their file, of the places of fields, which
are made of these, and of the places of symbols, some of which have none. -/
structure Move where
  position : Position → Position
  file : Option String → Option String
  field : Span → Span
  symbol : Span → Span
  field_ofPosition : ∀ name pos, field (.ofPosition name pos) = .ofPosition (file name) (position pos)
  symbol_empty : symbol {} = {}

namespace Move

/-- Forgets places: everything stands at the start of a file without a name. -/
def forget : Move where
  position _ := .start
  file _ := none
  field _ := .ofPosition none .start
  symbol _ := {}
  field_ofPosition _ _ := rfl
  symbol_empty := rfl

/-- Leaves everything where it is. -/
def stay : Move where
  position := id
  file := id
  field := id
  symbol := id
  field_ofPosition _ _ := rfl
  symbol_empty := rfl

end Move

variable {m : Move}

/-! ## Source -/

def Expr.moved (m : Move) : Expr → Expr
  | lit pos l => lit (m.position pos) l
  | ident pos name => ident (m.position pos) name
  | select pos x name => select (m.position pos) (x.moved m) name
  | unary pos op x => unary (m.position pos) op (x.moved m)
  | binary pos op x y => binary (m.position pos) op (x.moved m) (y.moved m)
  | call pos callee x => call (m.position pos) (callee.moved m) (x.moved m)

def EmbeddedName.moved (m : Move) (n : EmbeddedName) : EmbeddedName :=
  { n with pos := m.position n.pos }

namespace TypeExpr

mutual

def moved (m : Move) : TypeExpr → TypeExpr
  | ref pos package name args => ref (m.position pos) package name (movedAll m args)
  | pointer pos elem => pointer (m.position pos) (elem.moved m)
  | array pos length elem => array (m.position pos) (length.moved m) (elem.moved m)
  | slice pos elem => slice (m.position pos) (elem.moved m)
  | map pos key elem => map (m.position pos) (key.moved m) (elem.moved m)
  | chan pos dir elem => chan (m.position pos) dir (elem.moved m)
  | func pos ps rs variadic => func (m.position pos) (movedAll m ps) (movedAll m rs) variadic
  | struct pos fields => struct (m.position pos) (movedFields m fields)
  | interface pos embeds methods => interface (m.position pos) (movedAll m embeds) methods
  | union pos terms => union (m.position pos) (movedTerms m terms)
termination_by structural t => t

def movedAll (m : Move) : List TypeExpr → List TypeExpr
  | [] => []
  | t :: ts => (t.moved m) :: movedAll m ts
termination_by structural ts => ts

def movedFields (m : Move) : List (FieldDecl TypeExpr) → List (FieldDecl TypeExpr)
  | [] => []
  | d :: ds => movedField m d :: movedFields m ds
termination_by structural ds => ds

def movedField (m : Move) : FieldDecl TypeExpr → FieldDecl TypeExpr
  | .named pos names t tag => .named (m.position pos) names (t.moved m) tag
  | .embedded pos isPointer n tag => .embedded (m.position pos) isPointer (n.moved m) tag
termination_by structural d => d

def movedTerms (m : Move) : List (Term TypeExpr) → List (Term TypeExpr)
  | [] => []
  | t :: ts => movedTerm m t :: movedTerms m ts
termination_by structural ts => ts

def movedTerm (m : Move) : Term TypeExpr → Term TypeExpr
  | ⟨tilde, t⟩ => ⟨tilde, t.moved m⟩
termination_by structural t => t

end

theorem movedAll_eq (ts : List TypeExpr) : movedAll m ts = ts.map (moved m) := by
  induction ts with
  | nil => rfl
  | cons t ts ih => rw [movedAll, ih, map_cons]

theorem movedFields_eq (ds : List (FieldDecl TypeExpr)) :
    movedFields m ds = ds.map (movedField m) := by
  induction ds with
  | nil => rfl
  | cons d ds ih => rw [movedFields, ih, map_cons]

theorem movedTerms_eq (ts : List (Term TypeExpr)) : movedTerms m ts = ts.map (movedTerm m) := by
  induction ts with
  | nil => rfl
  | cons t ts ih => rw [movedTerms, ih, map_cons]

end TypeExpr

def TypeParamDecl.moved (m : Move) (d : TypeParamDecl) : TypeParamDecl :=
  { d with constraint := d.constraint.moved m }

def TypeSpec.moved (m : Move) (s : TypeSpec) : TypeSpec :=
  { s with
    pos := m.position s.pos
    params := s.params.map (TypeParamDecl.moved m)
    type := s.type.moved m }

def ConstSpec.moved (m : Move) (s : ConstSpec) : ConstSpec :=
  { s with
    pos := m.position s.pos
    type := s.type.map (TypeExpr.moved m)
    values := s.values.map (Expr.moved m) }

def ImportSpec.moved (m : Move) (s : ImportSpec) : ImportSpec := { s with pos := m.position s.pos }

def Scope.moved (m : Move) (s : Scope) : Scope := { s with file := m.file s.file }

def TypeDecl.moved (m : Move) (d : TypeDecl) : TypeDecl := ⟨d.spec.moved m, d.scope.moved m⟩

def ConstDecl.moved (m : Move) (d : ConstDecl) : ConstDecl :=
  ⟨d.spec.moved m, d.value.moved m, d.scope.moved m⟩

/-! ## Types -/

namespace Ty

/-- A type with the places of the fields directly in it moved. -/
def placed (m : Move) : Ty → Ty
  | struct fs => struct (fs.map fun f => { f with span := m.field f.span })
  | t => t

def moved (m : Move) : Ty → Ty := mapParts (placed m)

/-- A type is moved from the inside out. -/
theorem moved_eq (t : Ty) : t.moved m = (t.mapChildren (moved m)).placed m :=
  mapParts_eq t

def movedField (m : Move) (f : Field Ty) : Field Ty :=
  { f with type := f.type.moved m, span := m.field f.span }

def movedTerm (m : Move) (t : Term Ty) : Term Ty := { t with type := t.type.moved m }

theorem moved_named (id : SymbolId) (ts : List Ty) :
    (named id ts).moved m = named id (ts.map (moved m)) :=
  moved_eq _

theorem moved_aliased (id : SymbolId) (ts : List Ty) :
    (aliased id ts).moved m = aliased id (ts.map (moved m)) :=
  moved_eq _

theorem moved_interface (es : List Ty) (ms : List String) :
    (interface es ms).moved m = interface (es.map (moved m)) ms :=
  moved_eq _

theorem moved_struct (fs : List (Field Ty)) :
    (struct fs).moved m = struct (fs.map (movedField m)) := by
  rw [moved_eq, mapChildren, placed, map_map]
  rfl

theorem moved_union (ts : List (Term Ty)) : (union ts).moved m = union (ts.map (movedTerm m)) :=
  moved_eq _

@[simp] theorem isUntyped_moved (t : Ty) : (t.moved m).isUntyped = t.isUntyped := by
  cases t <;> rfl

theorem children_placed (t : Ty) : (t.placed m).children = t.children := by
  cases t <;> simp [placed, children, Function.comp_def]

@[simp] theorem children_moved (t : Ty) : (t.moved m).children = t.children.map (moved m) := by
  rw [moved_eq, children_placed, children_mapChildren]

/-- The parts of a moved type are the moved parts. -/
theorem parts_moved (t : Ty) : (t.moved m).parts = t.parts.map (moved m) := by
  induction t using childInduction with
  | step t ih =>
    rw [parts_eq, parts_eq, children_moved, flatMap_map, map_cons, map_flatMap]
    congr 1
    exact flatMap_congr ih

theorem mapChildren_placed {f : Ty → Ty} (t : Ty) :
    (t.placed m).mapChildren f = (t.mapChildren f).placed m := by
  cases t <;> simp [placed, mapChildren]

/-- Arguments may be put in before or after a move. -/
theorem moved_subst {args args' : Table String Ty}
    (h : ∀ name, args'.get? name = (args.get? name).map (moved m)) (t : Ty) :
    (t.subst args).moved m = (t.moved m).subst args' := by
  induction t using paramInduction with
  | param n i =>
    rw [subst, show (param n i).moved m = param n i from rfl, subst, h]
    cases args.get? n <;> rfl
  | step t hparam ih =>
    have hmoved : ∀ n i, t.moved m ≠ .param n i := by
      rw [moved_eq]
      cases t <;> simp_all [mapChildren, placed]
    rw [subst_eq args hparam, subst_eq args' hmoved, moved_eq, moved_eq t, mapChildren_placed,
      mapChildren_mapChildren, mapChildren_mapChildren, mapChildren_congr ih]

/-- A type without the places of its fields. -/
abbrev unplaced : Ty → Ty := moved .forget

theorem unplaced_eq (t : Ty) : t.unplaced = (t.mapChildren unplaced).placed .forget :=
  moved_eq t

/-- Nothing is left of a move when places are forgotten. -/
theorem unplaced_moved (t : Ty) : (t.moved m).unplaced = t.unplaced := by
  induction t using childInduction with
  | step t ih =>
    have hplaced (u : Ty) : (u.placed m).placed .forget = u.placed .forget := by
      cases u <;> simp [placed, Move.forget]
    rw [moved_eq, unplaced, moved_eq, mapChildren_placed, hplaced, mapChildren_mapChildren,
      mapChildren_congr ih, moved_eq]

theorem sameAll_iff {ts us : List Ty}
    (h : ∀ t ∈ ts, ∀ u : Ty, t.same u = true ↔ t.unplaced = u.unplaced) :
    sameAll ts us = true ↔ ts.map unplaced = us.map unplaced := by
  induction ts generalizing us with
  | nil => cases us <;> simp [sameAll]
  | cons t ts ih =>
    rw [forall_mem_cons] at h
    cases us with
    | nil => simp [sameAll]
    | cons u us => simp [sameAll, h.1 u, ih h.2]

theorem sameFields_iff {fs gs : List (Field Ty)}
    (h : ∀ f ∈ fs, ∀ u : Ty, f.type.same u = true ↔ f.type.unplaced = u.unplaced) :
    sameFields fs gs = true ↔ fs.map (movedField .forget) = gs.map (movedField .forget) := by
  induction fs generalizing gs with
  | nil => cases gs <;> simp [sameFields]
  | cons f fs ih =>
    rw [forall_mem_cons] at h
    cases gs with
    | nil => simp [sameFields]
    | cons g gs =>
      have hg := h.1 g.type
      obtain ⟨n, t, tag, em, ex, span⟩ := f
      obtain ⟨n', t', tag', em', ex', span'⟩ := g
      have hspan : Move.forget.field span = Move.forget.field span' := rfl
      simp [sameFields, sameField, movedField, hg, ih h.2, hspan, and_assoc]

theorem sameTerms_iff {ts us : List (Term Ty)}
    (h : ∀ t ∈ ts, ∀ u : Ty, t.type.same u = true ↔ t.type.unplaced = u.unplaced) :
    sameTerms ts us = true ↔ ts.map (movedTerm .forget) = us.map (movedTerm .forget) := by
  induction ts generalizing us with
  | nil => cases us <;> simp [sameTerms]
  | cons t ts ih =>
    rw [forall_mem_cons] at h
    cases us with
    | nil => simp [sameTerms]
    | cons u us =>
      have hu := h.1 u.type
      obtain ⟨tilde, t⟩ := t
      obtain ⟨tilde', u⟩ := u
      simp [sameTerms, sameTerm, movedTerm, hu, ih h.2]

/-- Types are the same if they differ in their places only. -/
theorem same_iff {t u : Ty} : t.same u = true ↔ t.unplaced = u.unplaced := by
  induction t generalizing u with
  | struct fs ih =>
    cases u with
    | struct gs =>
      rw [unplaced, moved_struct, moved_struct, same, sameFields_iff fun f hf u => ih f hf (u := u),
        struct.injEq]
    | _ =>
      rw [unplaced_eq, unplaced_eq]
      simp [same, mapChildren, placed]
  | union ts ih =>
    cases u with
    | union us =>
      rw [unplaced, moved_union, moved_union, same, sameTerms_iff fun t ht u => ih t ht (u := u),
        union.injEq]
    | _ =>
      rw [unplaced_eq, unplaced_eq]
      simp [same, mapChildren, placed]
  | basic | param =>
    rw [unplaced_eq, unplaced_eq u]
    cases u <;> simp [same, mapChildren, placed]
  | pointer e ih | array e n ih | slice e ih | chan e d ih =>
    rw [unplaced_eq, unplaced_eq u]
    cases u <;> simp [same, mapChildren, placed, ih]
  | map k e ihk ihe =>
    rw [unplaced_eq, unplaced_eq u]
    cases u <;> simp [same, mapChildren, placed, ihk, ihe]
  | func ps rs v ihps ihrs =>
    rw [unplaced_eq, unplaced_eq u]
    cases u <;> simp [same, mapChildren, placed, sameAll_iff fun t ht u => ihps t ht (u := u),
      sameAll_iff fun t ht u => ihrs t ht (u := u), and_assoc]
  | named s ts ih | aliased s ts ih | interface ts ms ih =>
    rw [unplaced_eq, unplaced_eq u]
    cases u <;> simp [same, mapChildren, placed, sameAll_iff fun t ht u => ih t ht (u := u)]

/-- Identity of types is apart from places. -/
@[simp] theorem same_moved (t u : Ty) : (t.moved m).same (u.moved m) = t.same u := by
  rw [Bool.eq_iff_iff, same_iff, same_iff, unplaced_moved, unplaced_moved]

end Ty

/-! ## Symbols -/

def TypeParam.moved (m : Move) (p : TypeParam) : TypeParam :=
  { p with constraint := p.constraint.map (Ty.moved m) }

def TypeInfo.moved (m : Move) (info : TypeInfo) : TypeInfo where
  underlying := info.underlying.map (Ty.moved m)
  params := info.params.map (TypeParam.moved m)
  isAlias := info.isAlias
  rhs := info.rhs.map (Ty.moved m)

@[simp] theorem TypeInfo.isStub_moved (info : TypeInfo) : (info.moved m).isStub = info.isStub := by
  simp [isStub, moved]

def SymbolBody.moved (m : Move) : SymbolBody → SymbolBody
  | .const value t => .const value (t.map (Ty.moved m))
  | .type info => .type (info.moved m)

def Symbol.moved (m : Move) (s : Symbol) : Symbol :=
  { s with span := m.symbol s.span, body := s.body.moved m }

theorem Symbol.typeInfo?_moved (s : Symbol) :
    (s.moved m).typeInfo? = s.typeInfo?.map (TypeInfo.moved m) := by
  obtain ⟨name, package, span, body⟩ := s
  cases body <;> rfl

/-- What a symbol is known as is moved with it, and is empty if there is none. -/
theorem getD_typeInfo?_moved (s : Option Symbol) :
    ((s.map (Symbol.moved m)).bind Symbol.typeInfo?).getD {} =
      ((s.bind Symbol.typeInfo?).getD {}).moved m := by
  cases s with
  | none => rfl
  | some s =>
    simp only [Option.map_some, Option.bind_some, Symbol.typeInfo?_moved]
    cases s.typeInfo? <;> rfl

def Operand.moved (m : Move) (x : Operand) : Operand := ⟨x.value, x.type.moved m⟩

/-! ## Packages and programs -/

/-- `o'` declares what `o` does, with places moved and in any order. -/
structure Outline.Moves (m : Move) (o o' : Outline) : Prop where
  path : o'.path = o.path
  size : o'.symbols.size = o.symbols.size
  symbols : ∀ name, o'.symbols.get? name = (o.symbols.get? name).map (Symbol.moved m)
  types : ∀ name, o'.types.get? name = (o.types.get? name).map (TypeDecl.moved m)
  consts : ∀ name, o'.consts.get? name = (o.consts.get? name).map (ConstDecl.moved m)

/-- `package'` is `package` with places moved, and with its symbols, files and imports in any order.
-/
structure Package.Moves (m : Move) (package package' : Package) : Prop where
  path : package'.path = package.path
  name : package'.name = package.name
  imports : ∀ q, q ∈ package'.imports ↔ q ∈ package.imports
  symbols : ∀ name, package'.symbols.get? name = (package.symbols.get? name).map (Symbol.moved m)

def Outline.moved (m : Move) (o : Outline) : Outline :=
  { o with
    symbols := o.symbols.mapValues (Symbol.moved m)
    types := o.types.mapValues (TypeDecl.moved m)
    consts := o.consts.mapValues (ConstDecl.moved m) }

def Package.moved (m : Move) (package : Package) : Package :=
  { package with symbols := package.symbols.mapValues (Symbol.moved m) }

def Program.moved (m : Move) (p : Program) : Program :=
  { p with packages := p.packages.mapValues (Package.moved m) }

/-- What is known of a type in a program that has the same packages with places moved. -/
theorem Program.typeInfo_moved {p p' : Program} {id : SymbolId}
    (h : ∀ path, id.package = some path →
      Option.Rel (Package.Moves m) (p.packages.get? path) (p'.packages.get? path)) :
    p'.typeInfo id = (p.typeInfo id).moved m := by
  rw [typeInfo, typeInfo]
  cases hid : id.package with
  | none => rfl
  | some path =>
    have hpackages := h path hid
    simp only [Option.bind_some]
    generalize p.packages.get? path = found, p'.packages.get? path = found' at hpackages
    cases hpackages with
    | none => rfl
    | some hpackage =>
      dsimp only
      rw [hpackage.symbols, getD_typeInfo?_moved]

/-- An outline declares the same after a move. -/
theorem Outline.moves_moved (o : Outline) : o.Moves m (o.moved m) where
  path := rfl
  size := length_map _
  symbols name := Table.get?_mapValues _ _ name
  types name := Table.get?_mapValues _ _ name
  consts name := Table.get?_mapValues _ _ name

theorem Package.moves_moved (package : Package) : package.Moves m (package.moved m) :=
  ⟨rfl, rfl, fun _ => Iff.rfl, fun name => Table.get?_mapValues _ _ name⟩

theorem Program.get?_moved (p : Program) (path : String) :
    (p.moved m).packages.get? path = (p.packages.get? path).map (Package.moved m) :=
  Table.get?_mapValues _ _ path

/-- A program has the same packages after a move. -/
theorem Program.moves_moved (p : Program) (path : String) :
    Option.Rel (Package.Moves m) (p.packages.get? path) ((p.moved m).packages.get? path) := by
  rw [get?_moved]
  cases p.packages.get? path with
  | none => exact .none
  | some package => exact .some package.moves_moved

theorem Program.packageName_moved {p p' : Program} {path : String}
    (h : Option.Rel (Package.Moves m) (p.packages.get? path) ((p'.moved m).packages.get? path)) :
    p'.packageName path = p.packageName path := by
  rw [get?_moved] at h
  rw [packageName, packageName]
  generalize p.packages.get? path = found, p'.packages.get? path = found' at h
  cases found' with
  | none =>
    cases h
    rfl
  | some package' =>
    cases h with
    | some hpackage => exact hpackage.name

/-! ## Forgetting places -/

abbrev Expr.unplaced : Expr → Expr := Expr.moved .forget

abbrev TypeExpr.unplaced : TypeExpr → TypeExpr := TypeExpr.moved .forget

abbrev TypeSpec.unplaced : TypeSpec → TypeSpec := TypeSpec.moved .forget

abbrev ConstSpec.unplaced : ConstSpec → ConstSpec := ConstSpec.moved .forget

abbrev ImportSpec.unplaced : ImportSpec → ImportSpec := ImportSpec.moved .forget

abbrev Scope.unplaced : Scope → Scope := Scope.moved .forget

abbrev TypeDecl.unplaced : TypeDecl → TypeDecl := TypeDecl.moved .forget

abbrev ConstDecl.unplaced : ConstDecl → ConstDecl := ConstDecl.moved .forget

/-- A symbol without its place. -/
abbrev Symbol.unplaced : Symbol → Symbol := Symbol.moved .forget

/-- An outline without places. -/
abbrev Outline.unplaced : Outline → Outline := Outline.moved .forget

/-- A package without places. -/
abbrev Package.unplaced : Package → Package := Package.moved .forget

/-- A program without places. -/
abbrev Program.unplaced : Program → Program := Program.moved .forget

/-- `o'` is `o` without places, in any order. -/
abbrev Outline.Unplaces : Outline → Outline → Prop := Outline.Moves .forget

/-- `package'` is `package` without places, in any order. -/
abbrev Package.Unplaces : Package → Package → Prop := Package.Moves .forget

/-- Two packages are the same apart from places and the order of symbols and imports. -/
def Package.Resembles (package package' : Package) : Prop :=
  package.Unplaces package'.unplaced

theorem Package.Resembles.symm {package package' : Package} (h : package.Resembles package') :
    package'.Resembles package where
  path := h.path.symm
  name := h.name.symm
  imports q := (h.imports q).symm
  symbols name := by
    have hsymbols := h.symbols name
    rw [unplaced, moved, Table.get?_mapValues] at hsymbols ⊢
    exact hsymbols.symm

/-! ## Staying in place -/

theorem Expr.moved_stay (e : Expr) : e.moved .stay = e := by
  induction e with
  | lit | ident => rfl
  | select pos x name ih | unary pos op x ih => rw [moved, ih]; rfl
  | binary pos op x y ihx ihy => rw [moved, ihx, ihy]; rfl
  | call pos callee x ihc ihx => rw [moved, ihc, ihx]; rfl

theorem TypeExpr.moved_stay (t : TypeExpr) : t.moved .stay = t := by
  have hall {ts : List TypeExpr} (h : ∀ t ∈ ts, t.moved .stay = t) : ts.map (moved .stay) = ts :=
    (map_congr_left h).trans (map_id' ts)
  induction t with
  | ref pos package name args ih | interface pos embeds methods ih =>
    rw [moved, movedAll_eq, hall ih]; rfl
  | pointer pos elem ih | slice pos elem ih | chan pos dir elem ih => rw [moved, ih]; rfl
  | array pos length elem ih => rw [moved, ih, Expr.moved_stay]; rfl
  | map pos key elem ihk ihe => rw [moved, ihk, ihe]; rfl
  | func pos ps rs variadic ihp ihr => rw [moved, movedAll_eq, movedAll_eq, hall ihp, hall ihr]; rfl
  | struct pos fields ih =>
    have hfields : fields.map (movedField .stay) = fields := by
      refine (map_congr_left fun d hd => ?_).trans (map_id' fields)
      cases d with
      | named pos names t tag => rw [movedField, ih _ hd t rfl]; rfl
      | embedded => rfl
    rw [moved, movedFields_eq, hfields]
    rfl
  | union pos terms ih =>
    have hterms : terms.map (movedTerm .stay) = terms := by
      refine (map_congr_left fun t ht => ?_).trans (map_id' terms)
      obtain ⟨tilde, type⟩ := t
      rw [movedTerm, ih _ ht]
    rw [moved, movedTerms_eq, hterms]
    rfl

/-- The move that leaves everything where it is changes no type. -/
theorem Ty.moved_stay (t : Ty) : t.moved .stay = t := by
  have hplaced (u : Ty) : u.placed .stay = u := by
    cases u <;> simp [placed, Move.stay]
  induction t using childInduction with
  | step t ih => rw [moved_eq, mapChildren_congr ih, mapChildren_id, hplaced]

theorem TypeParamDecl.moved_stay (d : TypeParamDecl) : d.moved .stay = d := by
  rw [moved, TypeExpr.moved_stay]

theorem TypeSpec.moved_stay (s : TypeSpec) : s.moved .stay = s := by
  rw [moved, funext TypeParamDecl.moved_stay, map_id', TypeExpr.moved_stay]
  rfl

theorem ConstSpec.moved_stay (s : ConstSpec) : s.moved .stay = s := by
  have htype : s.type.map (TypeExpr.moved .stay) = s.type := by
    rw [funext TypeExpr.moved_stay]
    exact Option.map_id'
  have hvalues : s.values.map (Expr.moved .stay) = s.values := by
    rw [funext Expr.moved_stay]
    exact map_id' s.values
  rw [moved, htype, hvalues]
  rfl

theorem TypeDecl.moved_stay (d : TypeDecl) : d.moved .stay = d := by
  rw [moved, TypeSpec.moved_stay]
  rfl

theorem ConstDecl.moved_stay (d : ConstDecl) : d.moved .stay = d := by
  rw [moved, ConstSpec.moved_stay, Expr.moved_stay]
  rfl

theorem TypeParam.moved_stay (p : TypeParam) : p.moved .stay = p := by
  rw [moved, funext Ty.moved_stay, Option.map_id']

theorem TypeInfo.moved_stay (info : TypeInfo) : info.moved .stay = info := by
  rw [moved, funext Ty.moved_stay, funext TypeParam.moved_stay, Option.map_id', Option.map_id',
    map_id']

theorem Symbol.moved_stay (s : Symbol) : s.moved .stay = s := by
  obtain ⟨name, package, span, body⟩ := s
  cases body with
  | const value t =>
    rw [moved, SymbolBody.moved, funext Ty.moved_stay, Option.map_id']
    rfl
  | type info =>
    rw [moved, SymbolBody.moved, TypeInfo.moved_stay]
    rfl

theorem Outline.moves_stay (o : Outline) : o.Moves .stay o where
  path := rfl
  size := rfl
  symbols name := by
    rw [funext Symbol.moved_stay]
    exact Option.map_id'.symm
  types name := by
    rw [funext TypeDecl.moved_stay]
    exact Option.map_id'.symm
  consts name := by
    rw [funext ConstDecl.moved_stay]
    exact Option.map_id'.symm

theorem Package.moves_stay (package : Package) : package.Moves .stay package where
  path := rfl
  name := rfl
  imports _ := Iff.rfl
  symbols name := by
    rw [funext Symbol.moved_stay]
    exact Option.map_id'.symm

end DeclBridge
