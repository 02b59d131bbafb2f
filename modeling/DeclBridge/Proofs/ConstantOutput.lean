import DeclBridge.Proofs.Literals
import DeclBridge.Proofs.Companions

/-!
# Constants in the output

A constant of a declared type is written with the name of the type and with a literal, and the type is
written with the text of what is behind it.  The evaluation of constants, the literals and the texts
of basic types know nothing of each other.  That they agree is a matter of where the texts come from:
every definition of a finished run was made from the symbol of its name (`Plan.Composed`), and the
value of a symbol has the representation that goes with its type.
-/

namespace DeclBridge

variable {s : Symbol}

/-! ## Where texts come from -/

namespace Plan

variable {plan : Plan} {e : Emission} {k n : String} {s : Symbol} {text : Text}

/-- A text was made from a symbol of its name, or stands for a type of which nothing was written. -/
def Accounts (plan : Plan) (k n : String) (text : Text) : Prop :=
  (∃ s, plan.Place k s ∧ s.name = n ∧ plan.Makes k s text) ∨
  ∃ path, plan.names.names.get? path = some k ∧ plan.program.TypeAt path n ∧
    plan.Stubs ⟨some path, n⟩ text ∧ ∀ s, plan.Place k s → s.name = n → plan.rendered s = []

/-- Every text that is not a reservation is accounted for. -/
def Composed (plan : Plan) (e : Emission) : Prop :=
  ∀ k n text, e.text? k n = some text → text ≠ .empty → plan.Accounts k n text

theorem Composed.withText (h : plan.Composed e) (hk : (e.module? k).isSome)
    (hnew : text ≠ .empty → plan.Accounts k n text) :
    plan.Composed (e.update k (·.withText n text)) := by
  intro k' n' text' htext hne
  rw [Emission.text?_withText hk] at htext
  split at htext
  · obtain ⟨rfl, rfl⟩ := ‹_ ∧ _›
    cases htext
    exact hnew hne
  · exact h k' n' text' htext hne

theorem maintains_composed (hsound : plan.program.Sound) (hrefers : plan.program.RefersToTypes) :
    plan.Maintains fun _ => plan.Composed where
  same hquiet h k n text htext := h k n text (by rwa [hquiet.texts] at htext)
  imported _ h k n text htext :=
    h k n text (by rwa [(Emission.sameTexts_addImport _ _ _).texts] at htext)
  opened _ _ _ h := h
  reserve _ _ _ _ hk _ h := h.withText hk fun hne => absurd rfl hne
  write {_ _ _ s _} hplace hk _ hmakes _ h := h.withText hk fun _ => .inl ⟨s, hplace, rfl, hmakes⟩
  unknown {_ _ r _} _ htext hr hraises hk _ hnone h := by
    obtain ⟨s, hplace, -, hcites⟩ := hraises.cited
    exact h.withText hk fun _ =>
      .inr ⟨r.path, hr, hcites.typeAt hsound hrefers hplace, htext, hnone⟩
  closed _ _ _ _ h := h
  noted _ _ _ h := h

/-- In a state without reservations, the text of a name was made from the symbol of that name. -/
theorem Composed.makes (h : plan.Composed e) (hsound : plan.program.Sound)
    (hinj : NameTable.Injective plan.names.names) (he : e.Sound plan)
    (hreserved : ∀ k n, e.reserved k n = false) {m : Module} (hm : e.module? k = some m)
    (htext : m.definitions.get? n = some text) {package : Package}
    (hpackage : plan.program.packages.get? m.packagePath = some package)
    (hs : package.symbols.get? n = some s) (hrendered : s.isType = true → plan.rendered s ≠ []) :
    plan.Makes k s text := by
  have hk := (he.modules k m hm).path
  have hname : s.name = n := ((hsound _ package hpackage).symbol n s hs).1
  have htext' : e.text? k n = some text := by rw [Emission.text?, hm]; exact htext
  have hne : text ≠ .empty := by
    rintro rfl
    have hfree := hreserved k n
    rw [Emission.reserved_eq_any, htext'] at hfree
    cases hfree
  rcases h k n text htext' hne with ⟨s', hplace, hname', hmakes⟩ | ⟨path, hpath, htype, -, hnone⟩
  · obtain ⟨package', hpackage', hs'⟩ := Emitting.mem_writable_of_place hinj hk hplace
    cases hpackage.symm.trans hpackage'
    have hget := hsound.get?_of_mem hpackage (Emitting.mem_values_of_writable hs')
    rw [hname', hs] at hget
    cases hget
    exact hmakes
  · cases hinj hpath hk
    obtain ⟨s', info, hs', hbody⟩ := htype package hpackage
    cases hs.symm.trans hs'
    have hplace : plan.Place k s := ⟨m.packagePath, package, hk, hpackage, List.mem_filter.2
      ⟨List.mem_mergeSort.2 (Table.mem_values_of_get? hs), by rw [Symbol.isWritable, hbody]⟩⟩
    exact absurd (hnone s hplace hname) (hrendered (by rw [Symbol.isType, hbody]))

end Plan

/-! ## Texts of constants and of basic types -/

namespace Emitting

variable {plan : Plan} {e e' : Emission} {k path : String} {text : Text} {value : Constant}
  {id : SymbolId} {args : List Ty}

theorem refer_eq_ok {define : Symbol → String → Emitting Unit} {definition name : String}
    (h : (refer plan define k definition path name).run.run e = (.ok text, e')) :
    ∃ owner, plan.names.names.get? path = some owner ∧
      text = if owner = k then (name : Text) else owner ++ "." ++ name := by
  rw [refer] at h
  obtain ⟨owner, e₁, howner, h⟩ := Computation.bind_eq_ok h
  obtain ⟨_, e₂, -, h⟩ := Computation.bind_eq_ok h
  obtain ⟨_, e₃, -, h⟩ := Computation.bind_eq_ok h
  obtain ⟨_, e₄, -, h⟩ := Computation.bind_eq_ok h
  cases h
  exact ⟨owner, moduleFor_eq_ok howner, rfl⟩

/-- A constant of a declared type is written with the name of the type and with its literal. -/
theorem makes_const (h : plan.Makes k s text)
    (hbody : s.body = .const (some value) (some (.named id args))) (hpath : id.package = some path) :
    ∃ owner literal, ∃ typeArgs : Text, plan.names.names.get? path = some owner ∧
      value.literal? = .ok (some literal) ∧ text = "export const " ++ s.name ++ ": " ++
        ((if owner = k then (id.name : Text) else owner ++ "." ++ id.name) ++ typeArgs) ++ " = " ++
          literal := by
  obtain ⟨limit, count, e, e', hrun⟩ := h
  rw [symbolText, hbody] at hrun
  obtain ⟨found, e₁, hliteral, hrun⟩ := Computation.bind_eq_ok hrun
  cases hvalue : value.literal? with
  | error why =>
    rw [hvalue] at hliteral
    cases hliteral
  | ok found' =>
    rw [hvalue] at hliteral
    cases hliteral
    cases found with
    | none =>
      obtain ⟨cited, e₂, -, hrun⟩ := Computation.bind_eq_ok hrun
      obtain ⟨_, e₃, -, hrun⟩ := Computation.bind_eq_ok hrun
      cases hrun
    | some literal =>
      obtain ⟨typeName, e₂, hname, hrun⟩ := Computation.bind_eq_ok hrun
      cases hrun
      cases limit with
      | zero => cases hname
      | succ limit =>
        rw [expandedText, typeText, referenceText, hpath] at hname
        obtain ⟨name, e₃, hrefer, hname⟩ := Computation.bind_eq_ok hname
        obtain ⟨argTexts, e₄, -, hname⟩ := Computation.bind_eq_ok hname
        cases hname
        obtain ⟨owner, howner, rfl⟩ := refer_eq_ok hrefer
        exact ⟨owner, literal, _, howner, rfl, rfl⟩

/-- A constant refers to its type, so the type has its definition. -/
theorem exists_target_of_const {literal : Text} {owner : String} (hsound : e.Sound plan)
    (hexplored : plan.Explored e s)
    (hbody : s.body = .const (some value) (some (.named id args)))
    (hliteral : value.literal? = .ok (some literal)) (hpath : id.package = some path)
    (howner : plan.names.names.get? path = some owner) :
    ∃ target, e.module? owner = some target ∧ target.has id.name = true := by
  have hrendered : .named id args ∈ plan.rendered s := by simp [Plan.rendered, hbody, hliteral]
  have hmentions : plan.Mentions (.named id args) path id.name :=
    ⟨_, .refl, args, .inl (by rw [← hpath]; exact .refl)⟩
  obtain ⟨r, hr, hrpath, hrname⟩ := (hexplored _ hrendered).2 path id.name hmentions
  obtain ⟨k, target, -, hk, htarget, hhas, -⟩ := hsound.references r hr
  rw [hrpath, howner] at hk
  cases hk
  exact ⟨target, htarget, hrname ▸ hhas⟩

/-- A type with a basic type behind it is written with the text of that one. -/
theorem makes_basic {info : TypeInfo} {kind : Kind}
    (hover : ∀ name, plan.override? name = none) (h : plan.Makes k s text)
    (hbody : s.body = .type info) (hisAlias : info.isAlias = false)
    (hkind : info.underlying = some (.basic kind)) :
    ∃ params : Text, text = "export type " ++ (s.name ++ params) ++ " = " ++ plan.basicText kind := by
  obtain ⟨limit, count, e, e', hrun⟩ := h
  rw [symbolText, hbody] at hrun
  obtain ⟨made, e₁, hmade, hrun⟩ := Computation.bind_eq_ok hrun
  cases hrun
  rw [typeDefinition] at hmade
  obtain ⟨params, e₂, -, hmade⟩ := Computation.bind_eq_ok hmade
  rw [hover, hisAlias, hkind] at hmade
  cases limit with
  | zero =>
    obtain ⟨basic, e₃, hbasic, -⟩ := Computation.bind_eq_ok hmade
    cases hbasic
  | succ limit =>
    obtain ⟨basic, e₃, hbasic, hmade⟩ := Computation.bind_eq_ok hmade
    cases hmade
    rw [presentText, expandedText, typeText] at hbasic
    cases hbasic
    exact ⟨params, rfl⟩

end Emitting

/-- The text of a type with literals: its name, and for a number what kind of number it is. -/
def Primitive.text (primitive : Primitive) (kind : Kind) : Text :=
  match primitive with
  | .boolean | .string => primitive.name
  | .number => ↑("number /* " ++ kind.spelling ++ " */")

theorem Plan.basicText_eq {plan : Plan} {kind : Kind} {primitive : Primitive}
    (hover : ∀ name, plan.override? name = none) (h : kind.primitive? = some primitive) :
    plan.basicText kind = primitive.text kind := by
  rw [basicText, hover]
  rw [Kind.primitive?] at h
  dsimp only
  split_ifs at h ⊢ <;> cases h <;> rfl

namespace Program

variable {sources : Sources} {patterns : List String} {p : Program} {log : List LogLine}
  {primary : Selection} {others : List Selection} {options : Options}

/-- A constant whose type has a basic type behind it is written with a literal of the primitive type
that its type is defined as, and a large integer as a big integer. -/
theorem emit_typed_const (hload : Program.load sources patterns = (.ok p, log)) {run : Run}
    (hrun : p.emit primary others options = .ok run) (hover : options.overrides.entries = [])
    {m : Module} (hm : m ∈ run.graph.modules.values) {n : String} {text : Text}
    (htext : m.definitions.get? n = some text) {package : Package}
    (hpackage : p.packages.get? m.packagePath = some package) {s : Symbol}
    (hs : package.symbols.get? n = some s) {value : Constant} {id : SymbolId} {args : List Ty}
    (hbody : s.body = .const (some value) (some (.named id args))) {kind : Kind}
    (hkind : (p.typeInfo id).underlying = some (.basic kind)) :
    ∃ target ∈ run.graph.modules.values, ∃ (params typeArgs literal : Text) (primitive : Primitive),
      id.package = some target.packagePath ∧
      text = "export const " ++ n ++ ": " ++ ((if target.name = m.name then (id.name : Text)
        else target.name ++ "." ++ id.name) ++ typeArgs) ++ " = " ++ literal ∧
      target.definitions.get? id.name =
        some ("export type " ++ (id.name ++ params) ++ " = " ++ primitive.text kind) ∧
      (¬ value.Large ∧ primitive.Literal literal ∨ value.Large ∧ primitive = .number ∧
        ∃ cs, Numeral.BigInt cs ∧ literal = String.ofList cs) := by
  have hsound := load_sound hload
  have hrefers := load_refersToTypes hload
  obtain ⟨e, hmade, rfl⟩ := exists_walk hrun
  set plan := Plan.ofRequest p primary others options
  have hinj : NameTable.Injective plan.names.names := NameTable.build_injective _ _ _
  have hover : ∀ name, plan.override? name = none := by
    intro name
    show options.overrides.get? name = none
    rw [Table.get?, hover]
    rfl
  have hstart : plan.Composed plan.start := by
    intro k n text htext
    cases htext
  obtain ⟨⟨hsound', hgrows⟩, hcomposed⟩ := walk_maintains hsound rfl
    (Plan.maintains_composed hsound hrefers)
    (fun k s e' _ hk h => h.withText hk fun hne => absurd rfl hne) hstart hmade
  obtain ⟨⟨-, hcovers⟩, -⟩ := walk_covers hsound rfl hmade
  have hreserved : ∀ k n, e.reserved k n = false := fun k n => hgrows.reserved k n
  have hget := hsound'.module?_name hm
  have hname : s.name = n := ((hsound _ package hpackage).symbol n s hs).1
  obtain ⟨path, package', t, hpath, hpackage', ht, htbody⟩ := typeInfo_eq hkind
  have htname : t.name = id.name := ((hsound _ package' hpackage').symbol _ t ht).1
  have hregular := (load_regular hload hpackage hs).const _ _ hbody
  -- a constant is of a type that is no alias
  have hisAlias : (p.typeInfo id).isAlias = false := by
    obtain ⟨t', info, ht', htbody', hisAlias⟩ :=
      (Ty.refers_named.1 hregular.type).1 path package' hpath hpackage'
    cases ht.symm.trans ht'
    cases htbody.symm.trans htbody'
    exact hisAlias
  obtain ⟨owner, literal, typeArgs, howner, hliteral, rfl⟩ := Emitting.makes_const
    (hcomposed.makes hsound hinj hsound' hreserved hget htext hpackage hs fun htype => by
      rw [Symbol.isType, hbody] at htype
      cases htype) hbody hpath
  have hplace : plan.Place m.name s := by
    refine ⟨m.packagePath, package, (hsound'.modules _ m hget).path, hpackage,
      List.mem_filter.2 ⟨List.mem_mergeSort.2 (Table.mem_values_of_get? hs), ?_⟩⟩
    rw [Symbol.isWritable, hbody]
    rfl
  have htaken : e.taken m.name s.name = true := by
    rw [Emission.taken, hget, hname]
    exact Table.contains_of_get? htext
  obtain ⟨target, htarget, hhas⟩ := Emitting.exists_target_of_const hsound'
    (hcovers m.name s hplace htaken (hreserved _ _)) hbody hliteral hpath howner
  obtain ⟨definition, hdefinition⟩ := Table.contains_iff.1 hhas
  have hfits := hsound'.modules owner target htarget
  have htpath : target.packagePath = path := hinj hfits.path howner
  have hrendered : plan.rendered t ≠ [] := by
    simp [Plan.rendered, htbody, hover, TypeInfo.written, hisAlias, hkind]
  obtain ⟨params, hparams⟩ := Emitting.makes_basic hover (hcomposed.makes hsound hinj hsound'
    hreserved htarget hdefinition (htpath ▸ hpackage') ht fun _ => hrendered) htbody hisAlias hkind
  obtain ⟨primitive, hprimitive, hform⟩ := Constant.literal_of_fits
    (hregular.fits value kind rfl (kindOf_named 999 args hkind)) hliteral
  refine ⟨target, Table.mem_values_of_get? htarget, params, typeArgs, literal, primitive,
    htpath ▸ hpath, ?_, ?_, hform⟩
  · rw [hname, hfits.name]
  · rw [hdefinition, hparams, htname, Plan.basicText_eq hover hprimitive]

/-- The constant `Red` is written with the name of its type and with a string. -/
theorem emit_typed_const_pen : ∃ log run,
    Program.load penSources.sources ["p"] = (.ok penProgram, log) ∧
    penProgram.emit ⟨"p", []⟩ [] {} = .ok run ∧ ∃ m ∈ run.graph.modules.values,
      m.definitions.get? "Red" = some (.ofString "export const Red: Color = \"red\"") ∧
      ∃ target ∈ run.graph.modules.values, ∃ (params typeArgs literal : Text) (primitive : Primitive),
        (some "p" : Option String) = some target.packagePath ∧
        ("export const Red: Color = \"red\"" : Text) = "export const " ++ "Red" ++ ": " ++
          ((if target.name = m.name then ("Color" : Text) else target.name ++ "." ++ "Color") ++
            typeArgs) ++ " = " ++ literal ∧ target.definitions.get? "Color" =
          some ("export type " ++ ("Color" ++ params) ++ " = " ++ primitive.text .string) ∧
        (¬ (Constant.str "red").Large ∧ primitive.Literal literal ∨
          (Constant.str "red").Large ∧ primitive = .number ∧
            ∃ cs, Numeral.BigInt cs ∧ literal = String.ofList cs) := by
  obtain ⟨log, hload⟩ := load_penSources
  have hfacts : (penProgram.emit ⟨"p", []⟩ [] {}).toOption.map (fun run =>
      run.graph.modules.values.map fun m => (m.packagePath, m.definitions.get? "Red")) =
      some [("p", some (.ofString "export const Red: Color = \"red\""))] := by cbv
  obtain ⟨run, hok, hfacts⟩ := Option.map_eq_some_iff.1 hfacts
  have hrun := eq_ok_of_toOption hok
  obtain ⟨m, hm, heq⟩ : ∃ m ∈ run.graph.modules.values, (m.packagePath, m.definitions.get? "Red") =
      ("p", some (.ofString "export const Red: Color = \"red\"")) := by
    rw [← List.mem_map, hfacts]
    exact List.mem_singleton.2 rfl
  obtain ⟨hpath, htext⟩ := Prod.mk.inj heq
  exact ⟨log, run, hload, hrun, m, hm, htext, emit_typed_const hload hrun rfl hm htext
    (by rw [hpath]; rfl) rfl rfl rfl⟩

/-- Two packages: an integer type, and a constant of that type which a double does not hold. -/
def farSources : SourceTable where
  packages := ⟨[
    ("p", ⟨[("p.go", "package p\nimport \"q\"\nconst Far q.Place = 1 << 60\n")]⟩),
    ("q", ⟨[("q.go", "package q\ntype Place int64\n")]⟩)]⟩

/-- The type is defined as a number, and the literal of the constant is none. -/
theorem emit_large_const : ∃ p log run, Program.load farSources.sources ["p"] = (.ok p, log) ∧
    p.emit ⟨"p", []⟩ [] {} = .ok run ∧ run.graph.modules.values.map (·.definitions.entries) =
      [[("Far", .ofString "export const Far: q.Place = 1152921504606846976n")],
        [("Place", .ofString "export type Place = number /* int64 */")]] ∧
    ¬ Primitive.number.Literal "1152921504606846976n" := by
  obtain ⟨p, log, hload, hfacts⟩ := exists_load (P := fun p =>
    (p.emit ⟨"p", []⟩ [] {}).toOption.any fun run =>
      run.graph.modules.values.map (·.definitions.entries) =
        [[("Far", .ofString "export const Far: q.Place = 1152921504606846976n")],
          [("Place", .ofString "export type Place = number /* int64 */")]])
    (show (load farSources.sources ["p"]).1.toOption.any _ = true by decide +kernel)
  obtain ⟨run, hrun, hfacts⟩ := exists_ok_of_any hfacts
  refine ⟨p, log, run, hload, hrun, hfacts, ?_⟩
  rintro ⟨cs, hcs, heq⟩
  have hdigits : "1152921504606846976n".toList = Nat.toDigits 10 (2 ^ 60) ++ ['n'] := by
    decide +kernel
  rw [Text.ofString_inj, ← String.toList_inj, hdigits, String.toList_ofList] at heq
  refine hcs.not_bigInt ⟨[], _, .inl rfl, Numeral.whole_toDigits (2 ^ 60), ?_⟩
  rw [← heq, List.nil_append]

end Program

end DeclBridge
