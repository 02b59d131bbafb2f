import DeclBridge.Proofs.DeclaredTypes

/-!
# Constants and their types

The value of a constant has the representation that goes with the kind of its type
(`Constant.Represents`): a truth value for the Boolean kinds, a text for those of strings, an integer
for those of whole numbers.  A conversion makes it so, and each operator keeps it so, because the type
of its result is the type of an operand.  Only with the real kinds there are exceptions
(`Constant.Fits`): a shift gives an integer, and an operation with a complex number a complex one.

The kind of a type is looked up again and again while constants are evaluated.  It is always what the
loaded program says in the end, and so the representations agree with the types of the program
(`Program.load_regular`).
-/

namespace DeclBridge

open Operand

variable {name path : String} {s : Symbol} {J : Store → Prop} {iota : Option Nat}
  {packages : Table String Package} {scope : Scope} {sources : Sources} {p : Program} {limit : Nat}
  {op : BinaryOp} {T : Bool → SymbolId → Prop} {pos : Position} {kind : Kind} {x : Operand}
  {package : Package} {S : Prop}

/-! ## Values -/

namespace Constant

/-- A value in the representation that the constants of a kind have. -/
def Represents (kind : Kind) : Constant → Prop
  | bool _ => kind = .bool ∨ kind = .untypedBool
  | str _ => kind = .string ∨ kind = .untypedString
  | int _ => kind.isInteger = true
  | rat _ => kind.isFloat = true
  | float _ => False
  | complex _ => kind.isComplex = true

/-- A value as the constants of a kind are held, where there are shifts only if `S` holds. -/
def Fits (S : Prop) (kind : Kind) : Constant → Prop
  | int _ => kind.isInteger = true ∨ kind.isFloat = true ∧ S
  | complex _ => kind.isFloat = true ∨ kind.isComplex = true
  | c => c.Represents kind

variable {a b c : Constant}

theorem Represents.fits (h : c.Represents kind) : c.Fits S kind := by
  cases c with
  | int => exact .inl h
  | complex => exact .inr h
  | bool | str | rat | float => exact h

/-- A value that is not represented as its kind asks. -/
theorem Fits.represents_or (h : c.Fits S kind) : c.Represents kind ∨
    kind.isFloat = true ∧ ((∃ n, c = int n) ∧ S ∨ ∃ z, c = complex z) := by
  cases c with
  | int n => exact h.imp_right fun h => ⟨h.1, .inl ⟨⟨n, rfl⟩, h.2⟩⟩
  | complex z => exact h.symm.imp_right fun h => ⟨h, .inr ⟨z, rfl⟩⟩
  | bool | str | rat | float => exact .inl h

theorem Fits.untyped (h : c.Fits S kind) : c.Represents (untypedKind (some c)) := by
  cases c with
  | bool | str => exact .inr rfl
  | int | rat | complex => rfl
  | float => exact h.elim

theorem represents_convertNumber (h : a.convertNumber kind pos = .ok c) : c.Represents kind := by
  rw [convertNumber] at h
  split at h
  · obtain ⟨n, -, rfl⟩ := eq_ok_of_map h
    assumption
  · split at h
    · obtain ⟨q, -, rfl⟩ := eq_ok_of_map h
      assumption
    · split at h
      · obtain ⟨z, -, rfl⟩ := eq_ok_of_map h
        assumption
      · cases h

theorem represents_ofCodePoint (n : Int) (h : kind = .string ∨ kind = .untypedString) :
    (ofCodePoint n).Represents kind := by
  unfold ofCodePoint
  split
  · split <;> exact h
  · exact h

/-- A conversion gives a value of the kind that it is asked for. -/
theorem represents_convert (h : a.convert kind pos = .ok c) : c.Represents kind := by
  unfold convert at h
  split at h
  · split at h
    · cases h
      assumption
    · cases h
  · split at h
    · cases h
    · split at h
      · cases h
        assumption
      · cases h
  · split at h
    · cases h
    · split at h
      · split at h
        · cases h
          exact represents_ofCodePoint _ ‹_›
        · cases h
      · split at h
        · split at h
          · cases h
            assumption
          · split at h
            · cases h
            · obtain ⟨q, -, h⟩ := eq_ok_of_bind h
              exact represents_convertNumber h
        · exact represents_convertNumber h

theorem Fits.negate (h : a.Fits S kind) : a.negate.Fits S kind := by
  cases a <;> exact h

/-- A value that can be shifted is a real number, and the result is an integer. -/
theorem Fits.shift (hS : S) (h : a.Fits S kind) (hc : a.shift op b pos = .ok c) :
    c.Fits S kind := by
  have hnumber {m : Int} (hm : a.wholeNumber pos = .ok m) :
      kind.isInteger = true ∨ kind.isFloat = true ∧ S := by
    cases a with
    | int => exact h
    | rat => exact .inr ⟨h, hS⟩
    | float => exact h.elim
    | bool | str | complex => cases hm
  rw [Constant.shift] at hc
  obtain ⟨m, hm, hc⟩ := eq_ok_of_bind hc
  obtain ⟨n, -, hc⟩ := eq_ok_of_bind hc
  split at hc
  · cases hc
  · split at hc
    · cases hc
    · cases hc
      exact hnumber hm

theorem Fits.number (h : a.Fits S kind) (hstr : ∀ t, a ≠ str t) (hbool : ∀ v, a ≠ bool v) :
    kind.isInteger = true ∨ kind.isFloat = true ∨ kind.isComplex = true := by
  cases a with
  | bool v => exact absurd rfl (hbool v)
  | str t => exact absurd rfl (hstr t)
  | int => exact h.imp_right fun h => .inl h.1
  | rat => exact .inr (.inl h)
  | float => exact h.elim
  | complex => exact .inr h

/-- The result of an operation whose common type is that of one of the operands. -/
theorem fits_arith (h : a.Fits S kind ∨ b.Fits S kind) (hc : arith op a b (some kind) pos = .ok c) :
    c.Fits S kind := by
  unfold arith at hc
  split at hc
  · split at hc
    · cases hc
      exact h.elim id id
    · cases hc
  · cases hc
  · cases hc
  · cases hc
  · cases hc
  · rename_i ha ha' hb hb' _
    have hnumber : kind.isInteger = true ∨ kind.isFloat = true ∨ kind.isComplex = true :=
      h.elim (·.number ha ha') (·.number hb hb')
    rw [Option.any_some, Option.any_some] at hc
    split at hc
    · cases hc
    · split at hc
      · obtain ⟨m, -, hc⟩ := eq_ok_of_bind hc
        obtain ⟨n, -, hc⟩ := eq_ok_of_bind hc
        cases hc
        exact .inl ‹_›
      · have hreal := hnumber.resolve_left ‹_›
        split at hc
        · cases hc
        · split at hc
          · obtain ⟨z, -, hc⟩ := eq_ok_of_bind hc
            obtain ⟨w, -, hc⟩ := eq_ok_of_bind hc
            split at hc <;> cases hc
            exact hreal
          · rename_i hcomplex
            obtain ⟨x, -, hc⟩ := eq_ok_of_bind hc
            obtain ⟨y, -, hc⟩ := eq_ok_of_bind hc
            cases hc
            refine hreal.resolve_right fun hkind => hcomplex ?_
            rw [hkind]
            rfl

end Constant

/-- The value of a literal has the representation of the literal's kind. -/
theorem Literal.represents_constant {l : Literal} {c : Constant}
    (h : l.constant pos = .ok c) : c.Represents l.kind.untyped := by
  unfold Literal.constant at h
  split at h
  all_goals
    rename_i hkind
    rw [hkind]
  · obtain ⟨n, -, rfl⟩ := eq_ok_of_map (eq_ok_of_mapError h)
    rfl
  · obtain ⟨q, -, rfl⟩ := eq_ok_of_map (eq_ok_of_mapError h)
    rfl
  · cases h
    rfl
  · obtain ⟨n, -, rfl⟩ := eq_ok_of_map h
    rfl
  · obtain ⟨t, -, rfl⟩ := eq_ok_of_map h
    exact .inr rfl
  · obtain ⟨t, -, rfl⟩ := eq_ok_of_map h
    exact .inr rfl

/-! ## Operands -/

/-- Whether something is shifted in an expression. -/
def Expr.shifts : Expr → Bool
  | lit .. | ident .. => false
  | select _ e _ | unary _ _ e => e.shifts
  | binary _ op e e' => op = .shiftLeft || op = .shiftRight || e.shifts || e'.shifts
  | call _ f e => f.shifts || e.shifts

/-- Something is shifted in the declaration of a constant of a program. -/
def Sources.Shifts (sources : Sources) (p : Program) : Prop :=
  ∃ path o name decl, p.packages.contains path = true ∧ sources.outline? p path = some o ∧
    o.consts.get? name = some decl ∧ decl.value.shifts = true

/-- An operand whose type refers to what it may, and whose value is held as the kind of the type
asks. -/
structure Operand.Regular (sources : Sources) (p : Program) (limit : Nat)
    (T : Bool → SymbolId → Prop) (x : Operand) : Prop where
  type : x.type.Refers T
  fits : ∀ c kind, x.value = some c → p.kindOf limit x.type = some kind →
    c.Fits (sources.Shifts p) kind

/-- An operand whose value is represented as the kind of its type asks. -/
structure Operand.Exact (p : Program) (limit : Nat) (T : Bool → SymbolId → Prop) (x : Operand) :
    Prop where
  type : x.type.Refers T
  represents : ∀ c kind, x.value = some c → p.kindOf limit x.type = some kind → c.Represents kind

theorem Operand.Exact.regular (h : x.Exact p limit T) : x.Regular sources p limit T :=
  ⟨h.type, fun c kind hc hkind => (h.represents c kind hc hkind).fits⟩

/-- A symbol whose types refer to what they may.  A constant is held as the kind of its type asks,
without exceptions if it is declared with a type. -/
structure Symbol.Regular (sources : Sources) (p : Program) (limit : Nat)
    (T : Bool → SymbolId → Prop) (s : Symbol) : Prop where
  types : ∀ t ∈ s.types, t.Refers T
  const : ∀ value type, s.body = .const value type →
    (Resolving.constant value type).Regular sources p limit T
  declared : ∀ path name o decl c t kind, s.id = ⟨some path, name⟩ →
    sources.outline? p path = some o → o.consts.get? name = some decl →
    decl.spec.type.isSome = true → s.body = .const (some c) (some t) →
    p.kindOf limit t = some kind → c.Represents kind

/-- What the symbols of a package are to satisfy when they are resolved. -/
abbrev Surroundings.Regular (sources : Sources) (p : Program) (env : Surroundings)
    (package : Package) : Symbol → Prop :=
  Symbol.Regular sources p env.limit (env.References p package)

/-- What the operands in a package satisfy. -/
abbrev Surroundings.RegularIn (sources : Sources) (p : Program) (env : Surroundings)
    (package : Package) : Operand → Prop :=
  Operand.Regular sources p env.limit (env.References p package)

/-- `x` gives an operand that satisfies it, where symbols do when they are done. -/
abbrev Surroundings.GivesRegular (sources : Sources) (p : Program) (env : Surroundings)
    (package : Package) (S₀ : Store) (x : Resolving Operand) : Prop :=
  Gives (Store.DoneIn env (env.Regular sources p package) S₀) x (env.RegularIn sources p package)

namespace Operand

variable {y : Operand}

theorem regular_basic {value : Option Constant}
    (h : ∀ c, value = some c → c.Fits (sources.Shifts p) kind) :
    Regular sources p limit T ⟨value, .basic kind⟩ where
  type := Ty.refers_of_children rfl (List.forall_mem_nil _)
  fits c _ hc hkind := by
    cases hkind
    exact h c hc

theorem regular_unknown {t : Ty} (h : t.Refers T) : Regular sources p limit T ⟨none, t⟩ :=
  ⟨h, fun _ _ hc => by cases hc⟩

end Operand

theorem Ty.eq_basic_of_isUntyped {t : Ty} (h : t.isUntyped = true) : ∃ kind, t = .basic kind := by
  cases t with
  | basic kind => exact ⟨kind, rfl⟩
  | _ => cases h

/-- A constant without a type has the kind that its value has. -/
theorem Resolving.regular_constant (hx : x.Regular sources p limit T) :
    (constant x.value (if x.type.isUntyped then none else some x.type)).Regular sources p limit
      T := by
  cases huntyped : x.type.isUntyped with
  | true =>
    refine regular_basic fun c hc => ?_
    obtain ⟨kind, htype⟩ := Ty.eq_basic_of_isUntyped huntyped
    rw [hc]
    exact (hx.fits c kind hc (htype ▸ rfl)).untyped.fits
  | false => exact hx

namespace Resolving

variable {env : Surroundings} {resolve : String → Resolving Unit} {S₀ : Store} {y : Operand}

theorem lengthOf_regular : Gives J (lengthOf pos x) (Operand.Regular sources p limit T) := by
  unfold lengthOf
  split
  · exact .pure (regular_basic fun c hc => by cases hc)
  · split
    · refine .pure (regular_basic fun c hc => ?_)
      cases hc
      exact .inl rfl
    · exact .throw
  · exact problem_gives

section

variable (hstage : env.Stage p (env.Regular sources p package) package)
  (hresolve : Completes env (env.Regular sources p package) S₀ resolve)

include hstage hresolve

theorem kindOf_regular {t : Ty} (ht : t.Refers (env.References p package)) :
    Gives (Store.DoneIn env (env.Regular sources p package) S₀) (kindOf env resolve t)
      (· = p.kindOf env.limit t) :=
  kindOf_found hstage hresolve (fun _ _ hs _ => hs.types) ht

theorem convert_exact {target : Ty} (htarget : target.Refers (env.References p package)) :
    Gives (Store.DoneIn env (env.Regular sources p package) S₀) (convert env resolve x target pos)
      (Operand.Exact p env.limit (env.References p package)) := by
  rw [convert_eq]
  refine (kindOf_regular hstage hresolve htarget).bind fun kind hkind => ?_
  cases kind with
  | none =>
    -- a type without a kind says nothing of the value
    have hnone (value : Option Constant) :
        Operand.Exact p env.limit (env.References p package) ⟨value, target⟩ :=
      ⟨htarget, fun c kind _ h => by rw [← hkind] at h; cases h⟩
    rw [convertTo_none]
    split
    · refine (typeInfo_gives _).bind fun info _ => ?_
      split
      · exact .pure (hnone x.value)
      · exact problem_gives
    · exact problem_gives
  | some kind =>
    rw [convertTo]
    cases hvalue : x.value with
    | none => exact .pure ⟨htarget, fun _ _ hc => by cases hc⟩
    | some value =>
      refine .bind (Gives.result fun c hc => hc) fun c hc => .pure ⟨htarget, ?_⟩
      intro c' kind' hc' hkind'
      cases hc'
      rw [← hkind] at hkind'
      cases hkind'
      exact Constant.represents_convert hc

section

variable (hx : env.RegularIn sources p package x)

include hx

theorem unary_regular {op : UnaryOp} :
    env.GivesRegular sources p package S₀ (unary env resolve op pos x) := by
  unfold unary
  split
  · exact .pure hx
  · rename_i b hb
    refine .pure ⟨hx.type, fun c kind hc hkind => ?_⟩
    cases hc
    exact hx.fits (.bool b) kind hb hkind
  · exact problem_gives
  · exact problem_gives
  · exact problem_gives
  · exact .pure hx
  · rename_i value _ _ hvalue
    refine .pure ⟨hx.type, fun c kind hc hkind => ?_⟩
    cases hc
    exact (hx.fits value kind hvalue hkind).negate
  · rename_i n hn
    refine (kindOf_regular hstage hresolve hx.type).bind fun found _ => ?_
    refine .pure ⟨hx.type, fun c kind hc hkind => ?_⟩
    cases hc
    exact hx.fits (.int n) kind hn hkind
  · exact problem_gives

/-- The common type of two operands is the type of one of them. -/
theorem commonType_regular (hy : env.RegularIn sources p package y) :
    Gives (Store.DoneIn env (env.Regular sources p package) S₀) (commonType env resolve op pos x y)
      fun t => t = x.type ∨ t = y.type := by
  rw [commonType_eq]
  refine (kindOf_regular hstage hresolve hx.type).bind fun _ _ => ?_
  refine (kindOf_regular hstage hresolve hy.type).bind fun _ _ => ?_
  split
  · exact .pure (Ty.common?_cases ‹_›)
  · exact problem_gives

omit hstage hresolve in
theorem shift_regular (hshifts : sources.Shifts p) :
    Gives J (shift op pos x y) (env.RegularIn sources p package) := by
  rw [shift]
  split
  · rename_i a n ha hn
    refine .bind (Gives.result fun c hc => hc) fun c hc => .pure ?_
    split
    · refine regular_basic fun c' hc' => ?_
      cases hc'
      obtain ⟨m, -, hc⟩ := eq_ok_of_bind hc
      obtain ⟨n, -, hc⟩ := eq_ok_of_bind hc
      split at hc
      · cases hc
      · split at hc
        · cases hc
        · cases hc
          exact .inl rfl
    · refine ⟨hx.type, fun c' kind hc' hkind => ?_⟩
      cases hc'
      exact (hx.fits a kind ha hkind).shift hshifts hc
  · refine .pure ?_
    split
    · exact regular_basic fun c hc => by cases hc
    · exact regular_unknown hx.type

/-- An operator gives a value that fits the type of the result. -/
theorem binary_regular (hy : env.RegularIn sources p package y)
    (hshifts : op = .shiftLeft ∨ op = .shiftRight → sources.Shifts p) :
    env.GivesRegular sources p package S₀ (binary env resolve op pos x y) := by
  by_cases hop : op = .shiftLeft ∨ op = .shiftRight
  · rw [binary, if_pos hop]
    exact shift_regular hx (hshifts hop)
  · rw [binary_eq hop]
    refine (commonType_regular hstage hresolve hx hy).bind fun t ht => ?_
    have hrefers : t.Refers (env.References p package) := by
      rcases ht with rfl | rfl
      · exact hx.type
      · exact hy.type
    -- the operand that has the common type says what kind of values it takes
    have hfits {a b : Constant} {kind : Kind} (ha : x.value = some a) (hb : y.value = some b)
        (hkind : p.kindOf env.limit t = some kind) :
        a.Fits (sources.Shifts p) kind ∨ b.Fits (sources.Shifts p) kind := by
      rcases ht with rfl | rfl
      · exact .inl (hx.fits a kind ha hkind)
      · exact .inr (hy.fits b kind hb hkind)
    unfold combine
    dsimp only
    split
    · rename_i a b ha hb
      split
      · refine .bind (Gives.result fun c hc => hc) fun c _ => .pure ?_
        exact regular_basic fun c hc => by cases hc; exact .inr rfl
      · split
        · split
          · refine .pure ⟨hrefers, fun c kind hc hkind => ?_⟩
            cases hc
            exact (hfits ha hb hkind).elim id id
          · exact problem_gives
        · refine (kindOf_regular hstage hresolve hrefers).bind fun found hfound => ?_
          refine .bind (Gives.result fun c hc => hc) fun c hc => .pure ?_
          refine ⟨hrefers, fun c' kind hc' hkind => ?_⟩
          cases hc'
          rw [hfound, hkind] at hc
          exact Constant.fits_arith (hfits ha hb hkind) hc
    · refine .pure ?_
      split
      · exact regular_basic fun c hc => by cases hc
      · exact regular_unknown hrefers

end

/-! ## Expressions -/

theorem evalName_regular :
    env.GivesRegular sources p package S₀ (evalName env resolve iota pos name) := by
  cases hdeclared : env.outline.symbols.get? name with
  | some symbol =>
    cases hbody : symbol.body with
    | type info =>
      simp only [evalName, hdeclared, hbody]
      exact problem_gives
    | const value type =>
      -- the constant is done when it is read
      rw [evalName_const env hdeclared hbody]
      refine (lookUp_found hstage hresolve name).bind fun s hs => ?_
      dsimp only
      split
      · rename_i hconst
        obtain ⟨found, hfound, hconst⟩ := Option.map_eq_some_iff.1 hconst
        exact .pure ((hs.2 found hfound).2.const _ _ hconst)
      · exact problem_gives
  | none =>
    simp only [evalName, hdeclared]
    split
    · split
      · exact .pure (regular_basic fun c hc => by cases hc; exact .inl rfl)
      · exact problem_gives
    · exact .pure (regular_basic fun c hc => by cases hc; exact .inr rfl)
    · exact .pure (regular_basic fun c hc => by cases hc; exact .inr rfl)
    · exact problem_gives

omit hresolve in
theorem evalImported_regular (hscope : scope.ImportsFrom env.outline.imports) {label : String} :
    Gives J (evalImported env scope pos label name) (env.RegularIn sources p package) := by
  refine (imported_found hstage hscope).bind fun s hs => ?_
  split
  · rename_i value type hbody
    rcases hs.1 with hstub | hregular
    · cases hbody.symm.trans hstub
    · exact .pure (hregular.const value type hbody)
  · split
    · exact .pure (regular_basic fun c hc => by cases hc)
    · exact problem_gives

/-- The value of an expression fits its type. -/
theorem eval_regular (hscope : scope.ImportsFrom env.outline.imports) (e : Expr)
    (hshifts : e.shifts = true → sources.Shifts p) :
    env.GivesRegular sources p package S₀ (eval env resolve scope iota e) := by
  -- no type parameters are in reach of a conversion
  have hparams : ParamTable [] ({} : Table String Ty) :=
    ⟨fun _ _ ht => (by cases ht), List.forall_mem_nil _⟩
  have hconversion {label : Option String} {name : String} {pos pos' : Position} {e : Expr}
      (he : env.GivesRegular sources p package S₀ (eval env resolve scope iota e)) :
      env.GivesRegular sources p package S₀ (do
        let target ← typeNamed env scope {} pos' label name []
        convert env resolve (← eval env resolve scope iota e) target pos) := by
    refine (typeNamed_found hstage hscope hparams (List.forall_mem_nil _)).bind
      fun target htarget => ?_
    exact he.bind fun x _ => (convert_exact hstage hresolve htarget).mono fun _ h => h.regular
  induction e with
  | lit pos l =>
    refine .bind (Gives.result fun c hc => hc) fun c hc => .pure ?_
    refine regular_basic fun c' hc' => ?_
    cases hc'
    exact (Literal.represents_constant (eq_ok_of_mapError hc)).fits
  | ident pos name => exact evalName_regular hstage hresolve
  | select pos e name =>
    unfold eval
    split
    · exact evalImported_regular hstage hscope
    · exact problem_gives
  | unary pos op e ih => exact (ih hshifts).bind fun x hx => unary_regular hstage hresolve hx
  | binary pos op e e' ih ih' =>
    simp only [Expr.shifts, Bool.or_eq_true, decide_eq_true_eq] at hshifts
    exact (ih fun h => hshifts (.inl (.inr h))).bind fun x hx =>
      (ih' fun h => hshifts (.inr h)).bind fun y hy =>
        binary_regular hstage hresolve hx hy fun h => hshifts (.inl (.inl h))
  | call pos callee e _ ih =>
    replace ih := ih fun h => hshifts (by rw [Expr.shifts, h, Bool.or_true])
    unfold eval
    split
    · split
      · exact ih.bind fun x _ => lengthOf_regular
      · exact hconversion ih
    · exact hconversion ih
    · exact problem_gives

end

/-! ## Declarations -/

section

variable (hstage : env.Stage p (env.Regular sources p package) package)
  (hresolve : Completes env (env.Regular sources p package) S₀ resolve)
  (hstarted : S₀.progress.get? name = some .started)

include hstage hresolve hstarted

/-- A constant is held as the kind of its type asks when it is resolved. -/
theorem resolveConst_regular {decl : ConstDecl} (hdeclares : env.outline.DeclaresConst name)
    (hdecl : env.outline.consts.get? name = some decl)
    (houtline : sources.outline? p env.outline.path = some env.outline) :
    Yields env (env.Regular sources p package) S₀ name (resolveConst env resolve name decl) := by
  have hscope := hstage.outline.constScope name decl hdecl
  have hset {x : Operand} (hx : env.RegularIn sources p package x)
      (hexact : decl.spec.type.isSome = true → x.Exact p env.limit (env.References p package)) :
      Yields env (env.Regular sources p package) S₀ name
        (setBody name (.const x.value (if x.type.isUntyped then none else some x.type))) := by
    refine (setBody_done hstarted (Store.fits_const hdeclares _ _)).post
      (fun _ S hS => ⟨hS.1, fun s hs => ⟨fun t ht => ?_, fun value type hbody => ?_,
        fun path name' o decl' c t kind hid ho hdecl' hsome hbody hkind => ?_⟩⟩)
    · simp only [Symbol.types, hS.2 s hs, Option.mem_toList] at ht
      split at ht
      · cases ht
      · cases ht
        exact hx.type
    · rw [hS.2 s hs] at hbody
      cases hbody
      exact regular_constant hx
    · cases (hS.1.id_eq hstage.outline hs).symm.trans hid
      cases houtline.symm.trans ho
      cases hdecl.symm.trans hdecl'
      rw [hS.2 s hs] at hbody
      obtain ⟨hvalue, htype⟩ := SymbolBody.const.inj hbody
      split at htype
      · cases htype
      · cases htype
        exact (hexact hsome).represents c kind hvalue hkind
  rw [resolveConst]
  refine (eval_regular hstage hresolve hscope decl.value fun h => ⟨_, _, name, decl,
    Table.contains_of_get? hstage.own, houtline, hdecl, h⟩).bind_triple fun x hx => ?_
  cases htype : decl.spec.type with
  | none => exact hset hx fun h => by rw [htype] at h; cases h
  | some te =>
    have hparams : ParamTable [] ({} : Table String Ty) :=
      ⟨fun _ _ ht => (by cases ht), List.forall_mem_nil _⟩
    have hcarries := carries_references hstage hresolve (fun _ _ hs _ => hs.types) hscope hparams
    refine (hcarries.typeOf_gives (t := te) trivial).bind_triple fun target htarget => ?_
    exact (convert_exact hstage hresolve htarget).bind_triple fun y hy =>
      hset hy.regular fun _ => hy

theorem resolveType_regular {decl : TypeDecl} (hdeclares : env.outline.DeclaresType name)
    (hdecl : env.outline.types.get? name = some decl) :
    Yields env (env.Regular sources p package) S₀ name (resolveType env resolve name decl) := by
  have hG (s : Symbol) (info : TypeInfo) (hs : env.Regular sources p package s)
      (_ : s.body = .type info) := hs.types
  have hcarries := carries_references hstage hresolve hG
    (hstage.outline.typeScope name decl hdecl) (paramTypes_table decl.spec.params)
  refine (resolveType_found hstage hresolve hstarted hdeclares
    (hcarries.paramsOf_gives fun _ _ => trivial) (hcarries.typeOf_gives trivial) (fun _ h => h)
    (passes_refers hG) fun _ h => h).post (fun _ S hS => ⟨hS.1, fun s hs => ?_⟩)
  obtain ⟨params, type, behind, hbody, hparams, htype, hbehind, -⟩ := hS.2 s hs
  refine ⟨decl.forall_types hbody hparams htype hbehind, fun value type hconst => ?_,
    fun _ _ _ _ _ _ _ _ _ _ _ hconst => ?_⟩
  all_goals cases hbody.symm.trans hconst

end

end Resolving

/-! ## Loading -/

theorem Symbol.Regular.mono {T' : Bool → SymbolId → Prop}
    (h : s.Regular sources p limit T) (hT : ∀ isAlias id, T isAlias id → T' isAlias id) :
    s.Regular sources p limit T' :=
  ⟨fun t ht => (h.types t ht).mono hT, fun value type hbody =>
    ⟨(h.const value type hbody).type.mono hT, (h.const value type hbody).fits⟩, h.declared⟩

/-- In a loaded program references lead to declared types, and constants fit the kinds of their
types. -/
theorem Program.load_regular {patterns : List String}
    {log : List LogLine} (hload : Program.load sources patterns = (.ok p, log))
    (hpackage : p.packages.get? path = some package) (hs : package.symbols.get? name = some s) :
    s.Regular sources p Outline.aliasLimit p.Declares := by
  have hmono (packages : Table String Package) (path : String) (package : Package) (s : Symbol)
      (hpackage : p.packages.get? path = some package)
      (hs : s.Regular sources p Outline.aliasLimit (p.Knows packages)) :
      s.Regular sources p Outline.aliasLimit (p.Knows (packages.insert path package)) :=
    hs.mono fun _ _ hid => hid.insert hpackage
  refine ((Program.load_built hload).symbols hmono (fun env package hlimit houtline hstage => ?_)
    (fun _ _ h => h) hpackage hs).2.2.mono fun _ _ h => h.declares
  rw [← hlimit] at hstage ⊢
  exact Resolving.resolveSymbol_completes hstage
    (fun _ _ _ _ hresolve hstarted => Resolving.resolveType_regular hstage hresolve hstarted)
    fun _ _ _ _ hresolve hstarted hdeclares hdecl =>
      Resolving.resolveConst_regular hstage hresolve hstarted hdeclares hdecl houtline

/-- The value of a constant of a loaded program is represented as the kind of its type asks.  Only
with a real kind it may be an integer instead, in a program that shifts constants, or a complex
number; a constant that is declared with a type never is. -/
theorem Program.load_represents {patterns : List String} {log : List LogLine}
    (hload : Program.load sources patterns = (.ok p, log))
    (hpackage : p.packages.get? path = some package) (hs : package.symbols.get? name = some s)
    {c : Constant} {t : Ty} (hbody : s.body = .const (some c) (some t))
    (hkind : p.kindOf Outline.aliasLimit t = some kind) : (c.Represents kind ∨
      kind.isFloat = true ∧ ((∃ n, c = .int n) ∧ sources.Shifts p ∨ ∃ z, c = .complex z)) ∧
    ∀ o decl, sources.outline? p path = some o → o.consts.get? name = some decl →
      decl.spec.type.isSome = true → c.Represents kind := by
  have hregular := load_regular hload hpackage hs
  obtain ⟨hname, hpath, -⟩ := (load_sound hload path package hpackage).symbol name s hs
  have hid : s.id = ⟨some path, name⟩ := by rw [Symbol.id, hname, hpath]
  exact ⟨((hregular.const _ _ hbody).fits c kind rfl hkind).represents_or,
    fun o decl ho hdecl hsome =>
      hregular.declared path name o decl c t kind hid ho hdecl hsome hbody hkind⟩

/-- A constant that is declared as a shift of a real one. -/
def doubledSources : SourceTable where
  packages := ⟨[
    ("p", ⟨[("p.go", "package p\n\nconst Size float64 = 2\n\nconst Twice = Size << 1\n")]⟩)]⟩

/-- Whether a symbol is the integer 4 with a real type. -/
def isWholeReal (s : Symbol) : Bool :=
  match s.body with
  | .const (some (.int 4)) (some (.basic .float64)) => true
  | _ => false

theorem body_of_isWholeReal (h : isWholeReal s = true) :
    s.body = .const (some (.int 4)) (some (.basic .float64)) := by
  unfold isWholeReal at h
  split at h
  · assumption
  · cases h

/-- Twice the size is an integer, because it is shifted. -/
theorem Program.load_represents_doubled : ∃ p log package s,
    Program.load doubledSources.sources ["p"] = (.ok p, log) ∧
    p.packages.get? "p" = some package ∧ package.symbols.get? "Twice" = some s ∧
    s.body = .const (some (.int 4)) (some (.basic .float64)) ∧
    p.kindOf Outline.aliasLimit (.basic .float64) = some .float64 ∧
    ¬ (Constant.int 4).Represents .float64 ∧ doubledSources.sources.Shifts p := by
  obtain ⟨p, log, hload, package, hpackage, s, hs, hreal⟩ := Program.exists_load (P := fun p =>
    ∃ package ∈ p.packages.get? "p", ∃ s ∈ package.symbols.get? "Twice", isWholeReal s = true)
    (show (Program.load doubledSources.sources ["p"]).1.toOption.any _ = true by decide +kernel)
  have hbody := body_of_isWholeReal hreal
  have hnot : ¬ (Constant.int 4).Represents .float64 := fun h => by cases h
  refine ⟨p, _, package, s, hload, hpackage, hs, hbody, rfl, hnot, ?_⟩
  obtain ⟨-, ⟨-, hshifts⟩ | ⟨z, hz⟩⟩ :=
    (Program.load_represents hload hpackage hs hbody rfl).1.resolve_left hnot
  · exact hshifts
  · cases hz

end DeclBridge
