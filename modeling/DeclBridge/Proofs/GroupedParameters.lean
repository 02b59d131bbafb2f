import DeclBridge.Proofs.ReadingDepth
import DeclBridge.Proofs.Tolerance

/-!
# Parameters that share a type

Parameters and results can be declared in groups: names with commas between them, then the type
that they share, with dots before it or not.  `Groups` describes such a list as it is written.

A list is read item by item, and an item that is a single name is read as a type.  So of a group
only the last name gets the type of the group, and each name before it is taken for a type of that
name (`ParamGroup.built`).  There are as many entries as names, but they are the declared ones only where
the names are spelled like the type, and the list can be resolved only where they stand for types.
-/

namespace DeclBridge

open TypeExpr Resolving List Reader

variable {gs : List ParamGroup} {α β ε σ : Type} {comma n paren : Token} {count : Nat}
    {dots variadic : Bool} {pos : Position} {ps rs : List TypeExpr} {s s' : σ}
    {f : α → Computation ε σ β} {item : Reader α} {x : α} {ts : List TypeExpr}

structure ParamGroup where
  /-- The names before the last one. -/
  earlier : List Token
  last : Token
  /-- Whether dots stand before the type. -/
  dots : Bool
  type : TypeExpr

namespace ParamGroup

def names (g : ParamGroup) : List Token := g.earlier ++ [g.last]

/-- What a group declares: its type for each of the names. -/
def declared (g : ParamGroup) : List TypeExpr := g.names.map fun _ => g.type

def named (n : Token) : TypeExpr := .ref n.pos none n.text []

/-- What a group is read as: the names before the last one as types, then the type. -/
def built (g : ParamGroup) : List TypeExpr := g.earlier.map named ++ [g.type]

/-- The items that a group is read as, with the dots before them. -/
def items (g : ParamGroup) : List (TypeExpr × Bool) :=
  g.earlier.map (fun n => (named n, false)) ++ [(g.type, g.dots)]

def withName (n : Token) (g : ParamGroup) : ParamGroup := { g with earlier := n :: g.earlier }

theorem map_fst_items (g : ParamGroup) : g.items.map (·.1) = g.built := by
  simp [items, built, Function.comp_def]

theorem any_snd_items (g : ParamGroup) : g.items.any (·.2) = g.dots := by
  simp [items, any_append, Function.comp_def]

theorem length_built (g : ParamGroup) : g.built.length = g.names.length := by
  simp [built, names]

end ParamGroup

namespace Reader

open ParamGroup

/-! ## Lists as they are written -/

/-- Dots, or none, before the tokens of a type. -/
inductive Dots : Bool → List Token → List Token → Prop
  | without {ts : List Token} : Dots false ts ts
  | before {dots : Token} {ts : List Token} : dots.kind = .mark .ellipsis →
    Dots true (dots :: ts) ts

/-- The end of a list, with or without a comma before the closing mark. -/
inductive Ends : List Token → List Token → Prop
  | close {close : Token} {rest : List Token} : close.kind = .mark .rpar → Ends (close :: rest) rest
  | comma {comma close : Token} {rest : List Token} : comma.kind = .mark .comma →
    close.kind = .mark .rpar → Ends (comma :: close :: rest) rest

/-- The tokens after an opening parenthesis are groups with commas between them, up to the closing
parenthesis. -/
inductive Groups : List ParamGroup → List Token → List Token → Prop
  | last {name : Token} {dots : Bool} {type : TypeExpr} {ts ts' ends rest : List Token} :
    name.kind = .name → Dots dots ts ts' → typeExpr ts' = .ok (type, ends) → Ends ends rest →
    Groups [⟨[], name, dots, type⟩] (name :: ts) rest
  | next {name comma : Token} {dots : Bool} {type : TypeExpr} {ts ts' more rest : List Token}
      {gs : List ParamGroup} :
    name.kind = .name → Dots dots ts ts' → typeExpr ts' = .ok (type, comma :: more) →
    comma.kind = .mark .comma → Groups gs more rest →
    Groups (⟨[], name, dots, type⟩ :: gs) (name :: ts) rest
  | shared {name comma : Token} {ts rest : List Token} {g : ParamGroup} {gs : List ParamGroup} :
    name.kind = .name → comma.kind = .mark .comma → Groups (g :: gs) ts rest →
    Groups (g.withName name :: gs) (name :: comma :: ts) rest

variable {ts ts' rest : List Token} {type : TypeExpr}

theorem Groups.exists_name (h : Groups gs ts rest) : ∃ n more, ts = n :: more ∧ n.kind = .name := by
  cases h with
  | last hname | next hname | shared hname => exact ⟨_, _, rfl, hname⟩

/-! ## Items -/

theorem typeExpr_named (hn : n.kind = .name) (hcomma : comma.kind = .mark .comma) :
    typeExpr (n :: comma :: ts) = .ok (named n, comma :: ts) := by
  have hdot : comma.kind ≠ .mark .dot := by rw [hcomma]; decide
  have hbracket : comma.kind ≠ .mark .lsqb := by rw [hcomma]; decide
  have hname : qualifiedName (n :: comma :: ts) = .ok ((none, n.text), comma :: ts) := by
    rw [qualifiedName, bind_of_ok (name_of_kind hn), bind_of_ok (skipIf_of_ne hdot)]
    rfl
  rw [typeExpr_eq, typeOver_name hn, typeName_of_ok hname hbracket]
  rfl

theorem variadicType_of_dots (hdots : Dots dots ts ts') (htype : typeExpr ts' = .ok (type, rest)) :
    variadicType typeExpr ts = .ok ((type, dots), rest) := by
  have hskip : skipIf (.mark .ellipsis) ts = .ok (dots, ts') := by
    cases hdots with
    | before hkind => exact skipIf_of_kind hkind
    | without =>
      cases ts with
      | nil => rfl
      | cons t ts =>
        refine skipIf_of_ne fun hkind => ?_
        rw [typeExpr_of_head (by simp [hkind, beginsType])] at htype
        cases htype
  rw [variadicType, bind_of_ok hskip, bind_of_ok htype]
  rfl

theorem parameter_of_dots (hn : n.kind = .name) (hdots : Dots dots ts ts')
    (htype : typeExpr ts' = .ok (type, rest)) :
    parameter typeExpr (n :: ts) = .ok ((type, dots), rest) := by
  rw [parameter, either, bind_of_ok (name_of_kind hn), variadicType_of_dots hdots htype]

theorem parameter_of_comma (hn : n.kind = .name) (hcomma : comma.kind = .mark .comma) :
    parameter typeExpr (n :: comma :: ts) = .ok ((named n, false), comma :: ts) := by
  have hellipsis : comma.kind ≠ .mark .ellipsis := by rw [hcomma]; decide
  have hfails : variadicType typeExpr (comma :: ts) = .error (comma :: ts) := by
    rw [variadicType, bind_of_ok (skipIf_of_ne hellipsis),
      bind_of_error (typeExpr_of_head (by simp [hcomma, beginsType]))]
  have htype : variadicType typeExpr (n :: comma :: ts) = .ok ((named n, false), comma :: ts) :=
    variadicType_of_dots .without (typeExpr_named hn hcomma)
  rw [parameter, either, bind_of_ok (name_of_kind hn), hfails]
  simp only [htype, Nat.lt_irrefl, if_false]

/-! ## Lists -/

theorem closedFrom_next {xs : List α}
    {next : Token} {more : List Token} (hitem : item ts = .ok (x, comma :: next :: more))
    (hcomma : comma.kind = .mark .comma) (hnext : next.kind ≠ .mark .rpar)
    (hmore : closedFrom item .rpar count (next :: more) = .ok (xs, rest)) :
    closedFrom item .rpar (count + 1) ts = .ok (x :: xs, rest) := by
  rw [closedFrom, bind_of_ok hitem, bind_of_ok (skipIf_of_kind hcomma)]
  show (skipIf (.mark .rpar) >>= _) (next :: more) = _
  rw [bind_of_ok (skipIf_of_ne hnext)]
  show (closedFrom item .rpar count >>= _) (next :: more) = _
  rw [bind_of_ok hmore]
  rfl

theorem closedFrom_last {ends : List Token}
    (hitem : item ts = .ok (x, ends)) (hends : Ends ends rest) :
    closedFrom item .rpar (count + 1) ts = .ok ([x], rest) := by
  rw [closedFrom, bind_of_ok hitem]
  cases hends with
  | @close close rest hclose =>
    have hcomma : close.kind ≠ .mark .comma := by rw [hclose]; decide
    rw [bind_of_ok (skipIf_of_ne hcomma)]
    show (mark .rpar >>= _) _ = _
    rw [bind_of_ok (mark_of_kind hclose)]
    rfl
  | comma hcomma hclose =>
    rw [bind_of_ok (skipIf_of_kind hcomma)]
    show (skipIf (.mark .rpar) >>= _) _ = _
    rw [bind_of_ok (skipIf_of_kind hclose)]
    rfl

theorem Dots.length_le (h : Dots dots ts ts') : ts'.length ≤ ts.length := by
  cases h with
  | without => exact Nat.le_refl _
  | before => exact Nat.le_succ _

/-- Groups are read item by item: every name before the last of its group is an item of its own. -/
theorem closedFrom_groups (h : Groups gs ts rest) (hcount : ts.length < count) :
    closedFrom (parameter typeExpr) .rpar count ts = .ok (gs.flatMap items, rest) := by
  obtain ⟨count, rfl⟩ := Nat.exists_eq_add_one_of_ne_zero (Nat.ne_zero_of_lt hcount)
  induction h generalizing count with
  | last hname hdots htype hends =>
    exact closedFrom_last (parameter_of_dots hname hdots htype) hends
  | @next name comma dots type ts ts' more rest gs hname hdots htype hcomma hgroups ih =>
    obtain ⟨n, more, rfl, hn⟩ := hgroups.exists_name
    have hshorter := (typeExpr_agree ts' (Nat.le_refl _)).2 _ _ htype
    have hlength := hdots.length_le
    simp only [length_cons] at hcount hshorter
    obtain ⟨count, rfl⟩ := Nat.exists_eq_add_one_of_ne_zero (n := count) (by omega)
    exact closedFrom_next (parameter_of_dots hname hdots htype) hcomma (by rw [hn]; decide)
      (ih count (by simp only [length_cons]; omega))
  | @shared name comma ts rest g gs hname hcomma hgroups ih =>
    obtain ⟨n, more, rfl, hn⟩ := hgroups.exists_name
    simp only [length_cons] at hcount
    obtain ⟨count, rfl⟩ := Nat.exists_eq_add_one_of_ne_zero (n := count) (by omega)
    exact closedFrom_next (parameter_of_comma hname hcomma) hcomma (by rw [hn]; decide)
      (ih count (by simp only [length_cons]; omega))

theorem parameters_groups (hparen : paren.kind = .mark .lpar) (h : Groups gs ts rest) :
    parameters typeExpr (paren :: ts) = .ok ((gs.flatMap built, gs.any (·.dots)), rest) := by
  obtain ⟨n, more, rfl, hn⟩ := h.exists_name
  have hclose : n.kind ≠ .mark .rpar := by rw [hn]; decide
  have hitems : closed (parameter typeExpr) .rpar (n :: more) = .ok (gs.flatMap items, rest) :=
    closedFrom_groups h (Nat.lt_succ_self _)
  rw [parameters, bind_of_ok (mark_of_kind hparen), bind_of_ok (skipIf_of_ne hclose)]
  show (closed (parameter typeExpr) .rpar >>= _) _ = _
  rw [bind_of_ok hitems, map_flatMap, any_flatMap]
  simp only [map_fst_items, any_snd_items]
  rfl

/-! ## Function types -/

theorem typeExpr_func {f : Token} {mid : List Token}
    (hf : f.kind = .keyword .func) (hps : parameters typeExpr ts = .ok ((ps, variadic), mid))
    (hrs : results typeExpr mid = .ok (rs, rest)) :
    typeExpr (f :: ts) = .ok (.func f.pos ps rs variadic, rest) := by
  have hposition : position (f :: ts) = .ok (f.pos, f :: ts) := rfl
  have hkeyword : keyword .func (f :: ts) = .ok ((), ts) := by
    rw [keyword, bind_of_ok (token_of_kind hf)]
    rfl
  rw [typeExpr_eq, typeOver, nextKind_bind, hf]
  show funcType typeExpr (f :: ts) = _
  rw [funcType, bind_of_ok hposition, bind_of_ok hkeyword, signature, bind_of_ok hps]
  show (results typeExpr >>= _) mid = _
  rw [bind_of_ok hrs]
  rfl

theorem results_groups (hparen : paren.kind = .mark .lpar)
    (h : Groups gs ts rest) : results typeExpr (paren :: ts) = .ok (gs.flatMap built, rest) := by
  have hnext : nextIs (.mark .lpar) (paren :: ts) = .ok (true, paren :: ts) := by
    rw [nextIs, nextSatisfies, nextKind_bind, hparen]
    rfl
  rw [results, bind_of_ok hnext]
  show (parameters typeExpr >>= _) _ = _
  rw [bind_of_ok (parameters_groups hparen h)]
  rfl

end Reader

/-! ## What groups are resolved to -/

/-- A name that stands for a type, where `params` are the type parameters in reach. -/
def Surroundings.NamesType (env : Surroundings) (params : Table String Ty) (name : String) : Prop :=
  params.contains name = true ∨ env.outline.DeclaresType name ∨
    env.outline.symbols.contains name = false ∧ (predeclared? name).isSome = true

/-- A computation that ends with a result, and the state that it leaves. -/
def Succeeds {ε σ α : Type} (x : Computation ε σ α) (s s' : σ) : Prop :=
  ∃ a, x.run.run s = (.ok a, s')

theorem succeeds_bind {x : Computation ε σ α} :
    Succeeds (x >>= f) s s' ↔ ∃ a s₁, x.run.run s = (.ok a, s₁) ∧ Succeeds (f a) s₁ s' := by
  constructor
  · rintro ⟨b, h⟩
    obtain ⟨a, s₁, hx, hf⟩ := Computation.bind_eq_ok h
    exact ⟨a, s₁, hx, b, hf⟩
  · rintro ⟨a, s₁, hx, b, hf⟩
    exact ⟨b, by rw [Computation.run_bind_ok hx, hf]⟩

/-- Where the result of the first part does not matter for the rest to succeed. -/
theorem succeeds_bind_iff {x : Computation ε σ α}
    {P : σ → σ → Prop} (hf : ∀ a s₁, Succeeds (f a) s₁ s' ↔ P s₁ s') :
    Succeeds (x >>= f) s s' ↔ ∃ s₁, Succeeds x s s₁ ∧ P s₁ s' := by
  rw [succeeds_bind]
  constructor
  · rintro ⟨a, s₁, hx, h⟩
    exact ⟨s₁, ⟨a, hx⟩, (hf a s₁).1 h⟩
  · rintro ⟨s₁, ⟨a, hx⟩, h⟩
    exact ⟨a, s₁, hx, (hf a s₁).2 h⟩

theorem succeeds_pure {a : α} : Succeeds (pure a : Computation ε σ α) s s' ↔ s = s' := by
  constructor
  · rintro ⟨b, h⟩
    cases h
    rfl
  · rintro rfl
    exact ⟨a, rfl⟩

theorem not_succeeds_throw {e : ε} : ¬ Succeeds (throw e : Computation ε σ α) s s' := by
  rintro ⟨b, h⟩
  cases h

namespace Resolving

open ParamGroup

variable {env : Surroundings} {resolve : String → Resolving Unit} {scope : Scope}
  {params : Table String Ty} {S S₁ : Store}

/-- A name is resolved where it stands for a type, and that changes nothing. -/
theorem typeNamed_succeeds {name : String} {args : List Ty} :
    Succeeds (typeNamed env scope params pos none name args) S S₁ ↔
      env.NamesType params name ∧ S = S₁ := by
  have hok {t : Ty} (h : env.NamesType params name) : Succeeds (pure t : Resolving Ty) S S₁ ↔
      env.NamesType params name ∧ S = S₁ := succeeds_pure.trans (iff_and_self.2 fun _ => h)
  have hproblem {why : Problem} (h : ¬ env.NamesType params name) :
      Succeeds (problem why pos : Resolving Ty) S S₁ ↔ env.NamesType params name ∧ S = S₁ :=
    iff_of_false not_succeeds_throw fun hnames => h hnames.1
  have hparams (h : params.get? name = none) : ¬ params.contains name = true := fun hcontains => by
    obtain ⟨_, hget⟩ := Table.contains_iff.1 hcontains
    cases h.symm.trans hget
  simp only [typeNamed]
  cases hparam : params.get? name with
  | some param => exact hok (.inl (Table.contains_of_get? hparam))
  | none =>
    cases hsymbol : env.outline.symbols.get? name with
    | some s =>
      have hcontains := Table.contains_of_get? hsymbol
      cases hbody : s.body with
      | type info =>
        simp only [hbody]
        exact hok (.inr (.inl ⟨s, info, hsymbol, hbody⟩))
      | const value type =>
        simp only [hbody]
        refine hproblem ?_
        rintro (h | ⟨s', info, hs', hinfo⟩ | ⟨h, -⟩)
        · exact hparams hparam h
        · cases hsymbol.symm.trans hs'
          cases hbody.symm.trans hinfo
        · cases hcontains.symm.trans h
    | none =>
      have hcontains : env.outline.symbols.contains name = false := by
        rw [Table.contains, hsymbol]
        rfl
      cases hpre : predeclared? name with
      | some t => exact hok (.inr (.inr ⟨hcontains, by rw [hpre]; rfl⟩))
      | none =>
        refine hproblem ?_
        rintro (h | ⟨s', info, hs', -⟩ | ⟨-, h⟩)
        · exact hparams hparam h
        · cases hsymbol.symm.trans hs'
        · rw [hpre] at h
          cases h

theorem typesOf_nil_succeeds : Succeeds (typesOf env resolve scope params []) S S₁ ↔ S = S₁ := by
  simp only [typesOf]
  exact succeeds_pure

theorem typesOf_cons_succeeds {t : TypeExpr} :
    Succeeds (typesOf env resolve scope params (t :: ts)) S S₁ ↔
      ∃ S', Succeeds (typeOf env resolve scope params t) S S' ∧
        Succeeds (typesOf env resolve scope params ts) S' S₁ := by
  simp only [typesOf]
  refine succeeds_bind_iff fun a S' => ?_
  rw [succeeds_bind_iff (P := Eq) fun _ _ => succeeds_pure]
  simp

/-- A group that is read as types is resolved where its type is and the names before the last one
stand for types. -/
theorem typesOf_built_succeeds {g : ParamGroup} :
    Succeeds (typesOf env resolve scope params (g.built ++ ts)) S S₁ ↔
      (∀ n ∈ g.earlier, env.NamesType params n.text) ∧
        Succeeds (typesOf env resolve scope params (g.type :: ts)) S S₁ := by
  rw [built, append_assoc, singleton_append]
  induction g.earlier with
  | nil => simp
  | cons n earlier ih =>
    have hnamed (S' : Store) : Succeeds (typeOf env resolve scope params (named n)) S S' ↔
        env.NamesType params n.text ∧ S = S' := by
      rw [named, typeOf, succeeds_bind_iff (P := fun S S' => env.NamesType params n.text ∧ S = S')
        fun _ _ => typeNamed_succeeds]
      simp only [typesOf_nil_succeeds, exists_eq_left']
    rw [map_cons, cons_append, typesOf_cons_succeeds, forall_mem_cons]
    simp only [hnamed]
    constructor
    · rintro ⟨S', ⟨hn, rfl⟩, h⟩
      exact ⟨⟨hn, (ih.1 h).1⟩, (ih.1 h).2⟩
    · rintro ⟨⟨hn, hearlier⟩, h⟩
      exact ⟨S, ⟨hn, rfl⟩, ih.2 ⟨hearlier, h⟩⟩

theorem typesOf_groups_succeeds :
    Succeeds (typesOf env resolve scope params (gs.flatMap built)) S S₁ ↔
      (∀ g ∈ gs, ∀ n ∈ g.earlier, env.NamesType params n.text) ∧
        Succeeds (typesOf env resolve scope params (gs.map (·.type))) S S₁ := by
  induction gs generalizing S with
  | nil => simp
  | cons g gs ih =>
    rw [flatMap_cons, typesOf_built_succeeds, typesOf_cons_succeeds, map_cons,
      typesOf_cons_succeeds, forall_mem_cons]
    simp only [ih]
    grind

theorem typeOf_func_succeeds :
    Succeeds (typeOf env resolve scope params (.func pos ps rs variadic)) S S₁ ↔
      ∃ S', Succeeds (typesOf env resolve scope params ps) S S' ∧
        Succeeds (typesOf env resolve scope params rs) S' S₁ := by
  simp only [typeOf]
  refine succeeds_bind_iff fun a S' => ?_
  rw [succeeds_bind_iff (P := Eq) fun _ _ => succeeds_pure]
  simp

end Resolving

/-! ## Function types that are written in groups -/

namespace ParamGroup

/-- Types that are read from groups are the declared ones, apart from their places, where each name
before the last one of its group is spelled like the type. -/
theorem map_unplaced_flatMap_built :
    (gs.flatMap built).map unplaced = (gs.flatMap declared).map unplaced ↔
      ∀ g ∈ gs, ∀ n ∈ g.earlier, (named n).unplaced = g.type.unplaced := by
  induction gs with
  | nil => simp
  | cons g gs ih =>
    have hgroup : g.built.map unplaced = g.declared.map unplaced ↔
        ∀ n ∈ g.earlier, (named n).unplaced = g.type.unplaced := by
      simp [built, declared, names, Function.comp_def, eq_replicate_iff]
    rw [flatMap_cons, flatMap_cons, map_append, map_append,
      forall_mem_cons, ← hgroup, ← ih]
    refine ⟨fun h => append_inj h ?_, fun h => by rw [h.1, h.2]⟩
    simp [length_built, declared]

/-- A function type with parameters or results in groups has one entry for each name.  The entry of
the last name of a group is the type of the group, and the entry of a name before it is the type
that this name would stand for.  So the entries are the declared types exactly where the names are
spelled like them, and the function type can be resolved exactly where it can be with one entry for
each group and those names all stand for types. -/
theorem typeExpr_func_groups {gs : List ParamGroup} {f paren : Token} {ts rest : List Token}
    (hf : f.kind = .keyword .func) (hparen : paren.kind = .mark .lpar)
    (h : Reader.Groups gs ts rest) : (∀ rs rest', results typeExpr rest = .ok (rs, rest') →
      typeExpr (f :: paren :: ts) =
        .ok (.func f.pos (gs.flatMap built) rs (gs.any (·.dots)), rest')) ∧ (∀ ps variadic before,
      parameters typeExpr before = .ok ((ps, variadic), paren :: ts) →
      typeExpr (f :: before) = .ok (.func f.pos ps (gs.flatMap built) variadic, rest)) ∧
    (gs.flatMap built).length = (gs.flatMap names).length ∧
    ((gs.flatMap built).map unplaced = (gs.flatMap declared).map unplaced ↔
      ∀ g ∈ gs, ∀ n ∈ g.earlier, (named n).unplaced = g.type.unplaced) ∧
    ∀ env resolve scope params S S₁ others variadic, (Succeeds (typeOf env resolve scope params
          (.func f.pos (gs.flatMap built) others variadic)) S S₁ ↔
        (∀ g ∈ gs, ∀ n ∈ g.earlier, env.NamesType params n.text) ∧
          Succeeds (typeOf env resolve scope params
            (.func f.pos (gs.map (·.type)) others variadic)) S S₁) ∧
      (Succeeds (typeOf env resolve scope params
          (.func f.pos others (gs.flatMap built) variadic)) S S₁ ↔
        (∀ g ∈ gs, ∀ n ∈ g.earlier, env.NamesType params n.text) ∧
          Succeeds (typeOf env resolve scope params
            (.func f.pos others (gs.map (·.type)) variadic)) S S₁) := by
  refine ⟨fun rs rest' hrs => typeExpr_func hf (parameters_groups hparen h) hrs,
    fun ps variadic before hps => typeExpr_func hf hps (results_groups hparen h),
    ?_, map_unplaced_flatMap_built, ?_⟩
  · simp [length_flatMap, length_built]
  · intro env resolve scope params S S₁ others variadic
    simp only [typeOf_func_succeeds, typesOf_groups_succeeds]
    grind

/-- The tokens of `(a, b int, c ...error)` after the opening parenthesis. -/
def sharedTokens : List Token :=
  [⟨.name, "a", ⟨1, 6⟩⟩, ⟨.mark .comma, ",", ⟨1, 7⟩⟩, ⟨.name, "b", ⟨1, 9⟩⟩, ⟨.name, "int", ⟨1, 11⟩⟩,
    ⟨.mark .comma, ",", ⟨1, 14⟩⟩, ⟨.name, "c", ⟨1, 16⟩⟩, ⟨.mark .ellipsis, "...", ⟨1, 18⟩⟩,
    ⟨.name, "error", ⟨1, 21⟩⟩, ⟨.mark .rpar, ")", ⟨1, 26⟩⟩]

/-- Of three parameters in two groups, the first is read as having a type `a`, and in a package that
declares no such type the function type cannot be resolved. -/
theorem typeExpr_func_groups_shared :
    (TokenStream.ofFragment "func(a, b int, c ...error)").tokens =
      ⟨.keyword .func, "func", ⟨1, 1⟩⟩ :: ⟨.mark .lpar, "(", ⟨1, 5⟩⟩ :: sharedTokens ∧
    typeExpr (⟨.keyword .func, "func", ⟨1, 1⟩⟩ :: ⟨.mark .lpar, "(", ⟨1, 5⟩⟩ ::
      sharedTokens) = .ok (.func ⟨1, 1⟩ [.ref ⟨1, 6⟩ none "a" [], .ref ⟨1, 11⟩ none "int" [],
        .ref ⟨1, 21⟩ none "error" []] [] true, []) ∧
    ¬ ∃ S S₁, Succeeds (typeOf ⟨{ path := "p" }, {}, 8⟩ (fun _ => pure ()) ⟨none, {}⟩ {}
      (.func ⟨1, 1⟩ [.ref ⟨1, 6⟩ none "a" [], .ref ⟨1, 11⟩ none "int" [],
        .ref ⟨1, 21⟩ none "error" []] [] true)) S S₁ := by
  have hgroups : Reader.Groups
      [⟨[⟨.name, "a", ⟨1, 6⟩⟩], ⟨.name, "b", ⟨1, 9⟩⟩, false, .ref ⟨1, 11⟩ none "int" []⟩,
        ⟨[], ⟨.name, "c", ⟨1, 16⟩⟩, true, .ref ⟨1, 21⟩ none "error" []⟩] sharedTokens [] :=
    .shared (g := ⟨[], _, _, _⟩) rfl rfl
      (.next rfl .without rfl rfl (.last rfl (.before rfl) rfl (.close rfl)))
  obtain ⟨hread, -, -, -, hresolve⟩ := @typeExpr_func_groups _ ⟨.keyword .func, "func", ⟨1, 1⟩⟩
    ⟨.mark .lpar, "(", ⟨1, 5⟩⟩ _ _ rfl rfl hgroups
  refine ⟨by decide +kernel, hread [] [] rfl, ?_⟩
  rintro ⟨S, S₁, h⟩
  obtain ⟨hnames, -⟩ := (hresolve _ _ _ _ S S₁ [] true).1.1 h
  rcases hnames _ mem_cons_self _ mem_cons_self with h | ⟨s, info, hs, -⟩ | ⟨-, h⟩
  · cases h
  · cases hs
  · exact absurd h (by decide +kernel)

end ParamGroup

end DeclBridge
