import DeclBridge.Proofs.ConstantOutput
import DeclBridge.Proofs.MovedOutput
import DeclBridge.Proofs.TypeLayout

/-!
# What the texts of types are read as

`Plan.Denotes` says which type of the output language a type stands for: a pointer for its element
or null, a struct for an object with the embedded types merged in, a union for its terms, and so on.
The text of a type is read as just that (`Emitting.expandedText_reads`), up to the order and the
repetition of alternatives.

Names are copied into the output as they are.  They have to be identifiers there as well, and not
words that the output language reserves (`Plan.WellNamed`); the text of a type with such a name has
no reading at all (`Emitting.not_reads_reserved`).
-/

namespace DeclBridge

open StructShape List

variable {texts : List Text} {k name : String} {plan : Plan} {A : Alphabet}

open TypeGrammar

namespace Plan

/-! ## What types stand for -/

/-- The type that stands for what has no type in the output. -/
def fallbackTree (plan : Plan) : TypeTree := .ofWord plan.options.fallback

def basicTree (plan : Plan) (kind : Kind) : TypeTree :=
  match kind.primitive? with
  | some primitive => .keyword primitive.name
  | none => plan.fallbackTree

def predeclaredTree (plan : Plan) (name : String) : TypeTree :=
  if name = "comparable" then .union [.keyword "string", .keyword "number"]
  else if name = "error" then plan.fallbackTree
  else .ofWord name

/-- A type is the union of others, up to the order and the repetition of alternatives. -/
structure Unites (plan : Plan) (Us : List TypeTree) (T : TypeTree) : Prop where
  none : Us = [] → T = plan.fallbackTree
  some : Us ≠ [] → ∀ V, V ∈ T.alternatives ↔ ∃ U ∈ Us, V ∈ U.alternatives

/-- The type of the output that a type stands for in a module. -/
inductive Denotes (plan : Plan) (k : String) : Ty → TypeTree → Prop
  | basic {kind : Kind} : Denotes plan k (.basic kind) (plan.basicTree kind)
  | pointer {elem : Ty} {T U : TypeTree} (h : Denotes plan k elem U)
      (hT : ∀ V, V ∈ T.alternatives ↔ V ∈ U.alternatives ∨ V = .null) :
      Denotes plan k (.pointer elem) T
  | array {elem : Ty} {length : Int} {T : TypeTree} (h : Denotes plan k elem T) :
      Denotes plan k (.array elem length) (.array T)
  | slice {elem : Ty} {T : TypeTree} (h : Denotes plan k elem T) :
      Denotes plan k (.slice elem) (.array T)
  | map {key elem : Ty} {T : TypeTree} (h : Denotes plan k elem T) :
      Denotes plan k (.map key elem) (.record T)
  | struct {fields : List (Field Ty)} {shape : StructShape Ty} {members : List (Member TypeTree)}
      {embeds : List TypeTree} {parts : List (List TypeTree)} {T : TypeTree}
      (hshape : ofStruct plan.program.typeInfo plan.options.includeUnexported fields =
        .ok shape)
      (hnames : members.map (fun m => (m.name, m.optional)) =
        shape.properties.map fun p => ((p.name : Text), p.optional))
      (htypes : List.Forall₂ (Denotes plan k) (shape.properties.map (·.type))
        (members.map (·.type)))
      (hembeds : List.Forall₂ (Denotes plan k) shape.embeds embeds)
      (hmerged : List.Forall₂ Merged embeds parts)
      (hT : T.conjuncts = .object members :: parts.flatten) :
      Denotes plan k (.struct fields) T
  | named {path name owner : String} {args : List Ty} {Ts : List TypeTree}
      (howner : plan.names.names.get? path = some owner)
      (hargs : List.Forall₂ (Denotes plan k) args Ts) :
      Denotes plan k (.named ⟨some path, name⟩ args)
        (.ref (if owner = k then [(name : Text)] else [(owner : Text), (name : Text)]) Ts)
  | aliased {path name owner : String} {args : List Ty} {Ts : List TypeTree}
      (howner : plan.names.names.get? path = some owner)
      (hargs : List.Forall₂ (Denotes plan k) args Ts) :
      Denotes plan k (.aliased ⟨some path, name⟩ args)
        (.ref (if owner = k then [(name : Text)] else [(owner : Text), (name : Text)]) Ts)
  | predeclared {name : String} {args : List Ty} :
      Denotes plan k (.named ⟨none, name⟩ args) (plan.predeclaredTree name)
  | predeclaredAlias {name : String} {args : List Ty} :
      Denotes plan k (.aliased ⟨none, name⟩ args) (plan.predeclaredTree name)
  | interface {embeds : List Ty} {methods : List String} {Us : List TypeTree} {T : TypeTree}
      (hterms : List.Forall₂ (Denotes plan k)
        ((plan.program.termSet (.interface embeds methods)).getD []) Us)
      (hT : plan.Unites Us T) : Denotes plan k (.interface embeds methods) T
  | union {terms : List (Term Ty)} {Us : List TypeTree} {T : TypeTree}
      (hterms : List.Forall₂ (Denotes plan k) (terms.map (·.type)) Us) (hT : plan.Unites Us T) :
      Denotes plan k (.union terms) T
  | param {name : String} {index : Nat} : Denotes plan k (.param name index) (.ref [name] [])
  | chan {elem : Ty} {dir : ChanDir} : Denotes plan k (.chan elem dir) plan.fallbackTree
  | func {params results : List Ty} {variadic : Bool} :
      Denotes plan k (.func params results variadic) plan.fallbackTree

/-! ## Names and merged types -/

/-- The text of a type comes to a type inside it, or among the terms of an interface. -/
def Reaches (plan : Plan) : Ty → Ty → Prop :=
  Relation.ReflTransGen fun t c => plan.Writes t c ∨ plan.Expands t c

/-- The text of a type comes to a type with a name. -/
def Spells (plan : Plan) (t : Ty) (id : SymbolId) : Prop :=
  ∃ args, plan.Reaches t (.named id args) ∨ plan.Reaches t (.aliased id args)

/-- The names in the text of a type are ones that the output language allows. -/
structure WellNamed (plan : Plan) (A : Alphabet) (t : Ty) : Prop where
  declared : ∀ path name, plan.Spells t ⟨some path, name⟩ → A.Name name
  modules : ∀ path name owner, plan.Spells t ⟨some path, name⟩ →
    plan.names.names.get? path = some owner → A.Name owner
  predeclared : ∀ name, plan.Spells t ⟨none, name⟩ → A.Word name
  params : ∀ name index, plan.Reaches t (.param name index) → A.Name name

/-- The types that are merged into others in the text of a type are no unions, except with null at
the end. -/
def MergesPlainly (plan : Plan) (A : Alphabet) (refer : (path name : String) → Emitting Text)
    (t : Ty) : Prop :=
  ∀ fields shape, plan.Reaches t (.struct fields) →
    ofStruct plan.program.typeInfo plan.options.includeUnexported fields = .ok shape →
    ∀ type ∈ shape.embeds, ∀ limit text e e',
      (Emitting.expandedText plan refer limit type).run.run e = (.ok text, e') →
      ∀ Ts, A.Reads text (.union Ts) → ∃ rest : Text, text = rest ++ " | null"

variable {t c : Ty} {refer : (path name : String) → Emitting Text}

theorem WellNamed.of_reaches (h : plan.WellNamed A t) (hc : plan.Reaches t c) :
    plan.WellNamed A c := by
  have hspells : ∀ {id}, plan.Spells c id → plan.Spells t id := by
    rintro id ⟨args, hid | hid⟩
    · exact ⟨args, .inl (hc.trans hid)⟩
    · exact ⟨args, .inr (hc.trans hid)⟩
  exact ⟨fun path name hid => h.declared path name (hspells hid),
    fun path name owner hid => h.modules path name owner (hspells hid),
    fun name hid => h.predeclared name (hspells hid),
    fun name index hparam => h.params name index (hc.trans hparam)⟩

theorem MergesPlainly.of_reaches (h : plan.MergesPlainly A refer t) (hc : plan.Reaches t c) :
    plan.MergesPlainly A refer c :=
  fun fields shape hfields => h fields shape (hc.trans hfields)

/-- The name of a type as it is seen from a module. -/
def SeenAs (plan : Plan) (k path name : String) (text : Text) : Prop :=
  ∃ owner, plan.names.names.get? path = some owner ∧
    text = if owner = k then (name : Text) else owner ++ "." ++ name

/-- A text is read as what a type stands for. -/
def ReadAs (plan : Plan) (A : Alphabet) (k : String) (t : Ty) (text : Text) : Prop :=
  ∃ T, Join A text T ∧ plan.Denotes k t T

/-! ## Texts that the plan has -/

theorem join_fallback (h : A.Word plan.options.fallback) {c : Text} (hc : .ofChar '*' ∉ c.points) :
    Join A (plan.options.fallback ++ (" /* " ++ c ++ " */")) plan.fallbackTree :=
  (h.factor.comment hc).join

theorem ofString_append (s s' : String) :
    Text.ofString (s ++ s') = Text.ofString s ++ Text.ofString s' := by
  rw [Text.ofString, String.toList_append, map_append]
  rfl

theorem not_mem_spelling (kind : Kind) : .ofChar '*' ∉ (kind.spelling : Text).points := by
  cases kind <;> decide

theorem join_basicText (hover : ∀ name, plan.override? name = none)
    (hfallback : A.Word plan.options.fallback) (kind : Kind) :
    Join A (plan.basicText kind) (plan.basicTree kind) := by
  simp only [basicText, hover, basicTree, Kind.primitive?]
  split_ifs with hbool hstring hnumber
  · exact (factor_keyword (by decide)).join
  · exact (factor_keyword (by decide)).join
  · have hnumber : Factor A "number" (.keyword "number") := factor_keyword (by decide)
    rw [ofString_append, ofString_append]
    exact (hnumber.comment (not_mem_spelling kind)).join
  · rw [text_append_assoc, text_append_assoc]
    exact join_fallback hfallback (not_mem_spelling kind)

theorem join_predeclaredText (hover : ∀ name, plan.override? name = none)
    (hfallback : A.Word plan.options.fallback) (hname : A.Word name) :
    Join A (plan.predeclaredText name) (plan.predeclaredTree name) := by
  simp only [predeclaredText, hover, predeclaredTree]
  split
  · have hstring : Meet A "string" (.keyword "string") := (factor_keyword (by decide)).meet
    have hnumber : Meet A ("number" ++ (" /* " ++ ("comparable" : Text) ++ " */"))
        (.keyword "number") :=
      ((factor_keyword (by decide)).comment (by decide)).meet
    exact ⟨[("string", .keyword "string"), (_, .keyword "number")], cons_ne_nil _ _,
      forall_mem_cons.2 ⟨hstring, forall_mem_singleton.2 hnumber⟩, rfl, rfl⟩
  · have herror : .ofChar '*' ∉ ("error" : Text).points := by decide
    exact join_fallback hfallback herror
  · rename_i hcomparable herror
    rw [if_neg hcomparable, if_neg herror]
    exact hname.factor.join

theorem join_alternativesText (hfallback : A.Word plan.options.fallback)
    {Us : List TypeTree} (h : List.Forall₂ (Join A) texts Us) :
    ∃ T, Join A (Emitting.alternativesText plan texts) T ∧ plan.Unites Us T := by
  rw [Emitting.alternativesText]
  by_cases hempty : texts = []
  · subst hempty
    cases h
    exact ⟨plan.fallbackTree, hfallback.factor.join, fun _ => rfl, fun hne => absurd rfl hne⟩
  · obtain ⟨T, hT, halternatives⟩ := join_alternatives hempty h
    refine ⟨T, ?_, fun hnil => ?_, fun _ => halternatives⟩
    · rwa [if_neg (by simpa using hempty)]
    · subst hnil
      cases h
      exact absurd rfl hempty

/-! ## Texts of parts -/

theorem exists_trees {ts : List Ty} (h : List.Forall₂ (plan.ReadAs A k) ts texts) :
    ∃ Ts, List.Forall₂ (Join A) texts Ts ∧ List.Forall₂ (plan.Denotes k) ts Ts := by
  induction h with
  | nil => exact ⟨[], .nil, .nil⟩
  | cons hfirst _ ih =>
    obtain ⟨T, hjoin, hdenotes⟩ := hfirst
    obtain ⟨Ts, hjoins, hall⟩ := ih
    exact ⟨T :: Ts, .cons hjoin hjoins, .cons hdenotes hall⟩

theorem exists_members {properties : List (Property Ty)} {texts : List (Property Text)}
    (h : List.Forall₂ (fun p q => q.name = p.name ∧ q.optional = p.optional ∧
      plan.ReadAs A k p.type q.type) properties texts) :
    ∃ members : List (Member TypeTree), List.Forall₂ (MemberText A) texts members ∧
      members.map (fun m => (m.name, m.optional)) =
        properties.map (fun p => ((p.name : Text), p.optional)) ∧
      List.Forall₂ (plan.Denotes k) (properties.map (·.type)) (members.map (·.type)) := by
  induction h with
  | nil => exact ⟨[], .nil, rfl, .nil⟩
  | @cons p q properties texts hfirst _ ih =>
    obtain ⟨hname, hoptional, T, hjoin, hdenotes⟩ := hfirst
    obtain ⟨members, hjoins, hnames, hall⟩ := ih
    refine ⟨⟨q.name, q.optional, T⟩ :: members, .cons ⟨rfl, rfl, hjoin⟩ hjoins, ?_,
      .cons hdenotes hall⟩
    rw [map_cons, map_cons, hnames, hname, hoptional]

theorem exists_merged {embeds : List Ty} (h : List.Forall₂ (fun t text => plan.ReadAs A k t text ∧
      ∀ Ts, A.Reads text (.union Ts) → ∃ rest : Text, text = rest ++ " | null") embeds texts) :
    ∃ Es parts, List.Forall₂ (plan.Denotes k) embeds Es ∧ List.Forall₂ Merged Es parts ∧
      List.Forall₂ (MergedText A) texts parts := by
  induction h with
  | nil => exact ⟨[], [], .nil, .nil, .nil⟩
  | @cons t text embeds texts hfirst _ ih =>
    obtain ⟨⟨T, hjoin, hdenotes⟩, hplain⟩ := hfirst
    obtain ⟨Es, parts, hall, hmerged, hmeets⟩ := ih
    obtain ⟨Us, hUs, hmerge⟩ := hjoin.merged fun Ts hTs => by
      obtain ⟨rest, rfl⟩ := hplain Ts (hTs ▸ hjoin.reads)
      exact isSuffixOf_iff_suffix.2 (suffix_append _ _)
    exact ⟨T :: Es, Us :: parts, .cons hdenotes hall, .cons hmerge hmerged, .cons hUs hmeets⟩

theorem names_reference (hnamed : plan.WellNamed A t) {path owner : String}
    (hspells : plan.Spells t ⟨some path, name⟩) (howner : plan.names.names.get? path = some owner) :
    Names A (if owner = k then (name : Text) else owner ++ "." ++ name)
      (if owner = k then [(name : Text)] else [(owner : Text), (name : Text)]) := by
  have hname := hnamed.declared path name hspells
  split_ifs
  · exact hname.names
  · exact (hnamed.modules path name owner hspells howner).qualified hname

end Plan

namespace Emitting

open Plan

section Types

variable {refer : (path name : String) → Emitting Text} {limit : Nat}

theorem objectText_readAs {render : Ty → Emitting Text} {fields : List (Field Ty)}
    {shape : StructShape Ty}
    (hshape : ofStruct plan.program.typeInfo plan.options.includeUnexported fields = .ok shape)
    (htypes : ∀ type ∈ shape.types, Gives (fun _ => True) (render type) (plan.ReadAs A k type))
    (hembeds : ∀ type ∈ shape.embeds, Gives (fun _ => True) (render type) fun text =>
      ∀ Ts, A.Reads text (.union Ts) → ∃ rest : Text, text = rest ++ " | null") :
    Gives (fun _ => True) (objectText (shape.map render)) (plan.ReadAs A k (.struct fields)) := by
  rw [objectText_map]
  have hproperties : ∀ p ∈ shape.properties, Gives (fun _ => True)
      (do return (⟨p.name, p.optional, ← render p.type⟩ : Property Text)) fun q =>
        q.name = p.name ∧ q.optional = p.optional ∧ plan.ReadAs A k p.type q.type := by
    intro p hp
    refine (htypes p.type (mem_append_left _ (mem_map_of_mem hp))).bind fun text h => ?_
    exact .pure ⟨rfl, rfl, h⟩
  refine (Returns.mapM_forall₂ hproperties).bind fun properties hmembers => ?_
  have hboth := fun type htype =>
    Gives.both (htypes type (mem_append_right _ htype)) (hembeds type htype)
  refine (Returns.mapM_forall₂ hboth).bind fun embeds hmerged => ?_
  obtain ⟨members, htexts, hnames, hdenotes⟩ := exists_members hmembers
  obtain ⟨Es, parts, hdenotes', hparts, hparts'⟩ := exists_merged hmerged
  obtain ⟨T, hT, hconjuncts⟩ := meet_object htexts hparts'
  exact .pure ⟨T, hT.join, .struct hshape hnames hdenotes hdenotes' hparts hconjuncts⟩

theorem referenceText_readAs {t : Ty} (hnamed : plan.WellNamed A t) {path : String}
    (hspells : plan.Spells t ⟨some path, name⟩) {args : List Ty} {argTexts : Emitting (List Text)}
    (hrefer : Gives (fun _ => True) (refer path name) (plan.SeenAs k path name))
    (hargs : Gives (fun _ => True) argTexts (List.Forall₂ (plan.ReadAs A k) args)) :
    Gives (fun _ => True) (referenceText plan refer ⟨some path, name⟩ argTexts) fun text =>
      ∃ owner Ts, plan.names.names.get? path = some owner ∧
        List.Forall₂ (plan.Denotes k) args Ts ∧ Join A text
          (.ref (if owner = k then [(name : Text)] else [(owner : Text), (name : Text)]) Ts) := by
  rw [referenceText]
  refine hrefer.bind fun text htext => hargs.bind fun texts htexts => ?_
  obtain ⟨owner, howner, rfl⟩ := htext
  obtain ⟨Ts, hjoins, hdenotes⟩ := exists_trees htexts
  exact .pure ⟨owner, Ts, howner, hdenotes,
    ((names_reference hnamed hspells howner).applied hjoins).join⟩

section

variable (hover : ∀ name, plan.override? name = none) (hfallback : A.Word plan.options.fallback)
  (hrefer : ∀ path name, Gives (fun _ => True) (refer path name) (plan.SeenAs k path name))

include hover hfallback hrefer

/-- The text of a type is read as what the type stands for, if that holds of the terms of
interfaces. -/
theorem expandedText_readAs (hexpand : ∀ u, plan.WellNamed A u → plan.MergesPlainly A refer u →
      Gives (fun _ => True) (expandedText plan refer limit u) (plan.ReadAs A k u))
    (t : Ty) (hnamed : plan.WellNamed A t) (hmerges : plan.MergesPlainly A refer t) :
    Gives (fun _ => True) (expandedText plan refer (limit + 1) t) (plan.ReadAs A k t) := by
  rw [expandedText]
  -- the hypotheses pass to every type that is written out inside `t`
  have hinside : ∀ {t c : Ty}, plan.WellNamed A t → plan.MergesPlainly A refer t →
      plan.Writes t c →
      (plan.WellNamed A c → plan.MergesPlainly A refer c → Gives (fun _ => True)
        (typeText plan refer (expandedText plan refer limit) c) (plan.ReadAs A k c)) →
      Gives (fun _ => True) (typeText plan refer (expandedText plan refer limit) c)
        (plan.ReadAs A k c) := fun hn hm hw ih =>
    ih (hn.of_reaches (.single (.inl hw))) (hm.of_reaches (.single (.inl hw)))
  induction t with
  | basic kind => exact .pure ⟨_, join_basicText hover hfallback kind, .basic⟩
  | param name index =>
    exact .pure ⟨_, (hnamed.params name index .refl).names.factor.join, .param⟩
  | chan elem dir =>
    have hchan : .ofChar '*' ∉ ("chan" : Text).points := by decide
    exact .pure ⟨_, join_fallback hfallback hchan, .chan⟩
  | func params results variadic =>
    have hfunc : .ofChar '*' ∉ ("func" : Text).points := by decide
    exact .pure ⟨_, join_fallback hfallback hfunc, .func⟩
  | pointer elem ih =>
    refine (hinside hnamed hmerges .pointer ih).bind fun text htext => ?_
    obtain ⟨T, hT, hdenotes⟩ := htext
    obtain ⟨U, hU, halternatives⟩ := hT.nullable
    exact .pure ⟨U, hU, .pointer hdenotes halternatives⟩
  | array elem length ih =>
    refine (hinside hnamed hmerges .array ih).bind fun text htext => ?_
    obtain ⟨T, hT, hdenotes⟩ := htext
    exact .pure ⟨_, hT.arrayOf.join, .array hdenotes⟩
  | slice elem ih =>
    refine (hinside hnamed hmerges .slice ih).bind fun text htext => ?_
    obtain ⟨T, hT, hdenotes⟩ := htext
    exact .pure ⟨_, hT.arrayOf.join, .slice hdenotes⟩
  | map key elem _ ih =>
    refine (hinside hnamed hmerges .map ih).bind fun text htext => ?_
    obtain ⟨T, hT, hdenotes⟩ := htext
    exact .pure ⟨_, hT.recordOf.join, .map hdenotes⟩
  | struct fields ih =>
    rw [typeText, fieldTexts_eq, ofFields_eq_map]
    refine .bind (Gives.result fun shape hshape => eq_ok_of_map hshape) fun _ hmap => ?_
    obtain ⟨shape, hshape, rfl⟩ := hmap
    have htypes : ∀ type ∈ shape.types, Gives (fun _ => True)
        (typeText plan refer (expandedText plan refer limit) type) (plan.ReadAs A k type) := by
      intro type htype
      obtain ⟨f, hf, hshow⟩ := (mem_types_ofFields hshape).1 htype
      obtain ⟨g, hg, heq⟩ := mem_map.1 hf
      obtain ⟨rfl, rfl⟩ := Prod.mk.inj heq
      exact hinside hnamed hmerges (.field hg hshow) (ih g hg)
    exact objectText_readAs hshape htypes fun type htype => .of_run fun e text e' hrun =>
      hmerges fields shape .refl hshape type htype (limit + 1) text e e' hrun
  | named symbol args ih =>
    obtain ⟨package, name⟩ := symbol
    rw [typeText, typeTexts_eq]
    cases package with
    | none =>
      have hname : A.Word name := hnamed.predeclared name ⟨args, .inl .refl⟩
      exact .pure ⟨_, join_predeclaredText hover hfallback hname, .predeclared⟩
    | some path =>
      have hargs := Returns.mapM_forall₂ fun a ha => hinside hnamed hmerges (.arg ha) (ih a ha)
      refine (referenceText_readAs hnamed ⟨args, .inl .refl⟩ (hrefer path name) hargs).mono ?_
      rintro text ⟨owner, Ts, howner, hdenotes, hjoin⟩
      exact ⟨_, hjoin, .named howner hdenotes⟩
  | aliased symbol args ih =>
    obtain ⟨package, name⟩ := symbol
    rw [typeText, typeTexts_eq]
    cases package with
    | none =>
      have hname : A.Word name := hnamed.predeclared name ⟨args, .inr .refl⟩
      exact .pure ⟨_, join_predeclaredText hover hfallback hname, .predeclaredAlias⟩
    | some path =>
      have hargs := Returns.mapM_forall₂ fun a ha => hinside hnamed hmerges (.aliasArg ha) (ih a ha)
      refine (referenceText_readAs hnamed ⟨args, .inr .refl⟩ (hrefer path name) hargs).mono ?_
      rintro text ⟨owner, Ts, howner, hdenotes, hjoin⟩
      exact ⟨_, hjoin, .aliased howner hdenotes⟩
  | interface embeds methods =>
    rw [typeText]
    have hterms : ∀ u ∈ (plan.program.termSet (.interface embeds methods)).getD [],
        Gives (fun _ => True) (expandedText plan refer limit u) (plan.ReadAs A k u) := by
      intro u hu
      have hexpands : plan.Expands (.interface embeds methods) u := by
        cases hterms : plan.program.termSet (.interface embeds methods) with
        | none =>
          rw [hterms] at hu
          exact absurd hu not_mem_nil
        | some terms =>
          rw [hterms] at hu
          exact ⟨embeds, methods, terms, .refl, hterms, hu⟩
      exact hexpand u (hnamed.of_reaches (.single (.inr hexpands)))
        (hmerges.of_reaches (.single (.inr hexpands)))
    refine (Returns.mapM_forall₂ hterms).bind fun texts htexts => ?_
    obtain ⟨Us, hjoins, hdenotes⟩ := exists_trees htexts
    obtain ⟨T, hT, hunites⟩ := join_alternativesText hfallback hjoins
    exact .pure ⟨T, hT, .interface hdenotes hunites⟩
  | union terms ih =>
    rw [typeText, termTexts_eq]
    have hterms : ∀ t ∈ terms, Gives (fun _ => True)
        (typeText plan refer (expandedText plan refer limit) t.type) (plan.ReadAs A k t.type) :=
      fun t ht => hinside hnamed hmerges (.term ht) (ih t ht)
    refine (Returns.mapM_forall₂ hterms).bind fun texts htexts => ?_
    obtain ⟨Us, hjoins, hdenotes⟩ := exists_trees (forall₂_map_left_iff.2 htexts)
    obtain ⟨T, hT, hunites⟩ := join_alternativesText hfallback hjoins
    exact .pure ⟨T, hT, .union hdenotes hunites⟩

/-- The text of a type, as long as it does not go round in circles. -/
theorem gives_readAs
    (limit : Nat) (t : Ty) (hnamed : plan.WellNamed A t) (hmerges : plan.MergesPlainly A refer t) :
    Gives (fun _ => True) (expandedText plan refer limit t) (plan.ReadAs A k t) := by
  induction limit generalizing t with
  | zero => exact .throw
  | succ limit ih => exact expandedText_readAs hover hfallback hrefer ih t hnamed hmerges

end

end Types

/-! ## One reading -/

/-- The alphabet without letters beyond ASCII. -/
def ascii : Alphabet := ⟨fun _ => false, fun _ => false⟩

def planFor (p : Program) (name : String) : Plan := .ofRequest p ⟨"p", [name]⟩ [] {}

/-- The texts of types in the definition of a symbol of the package `p`. -/
def textIn (p : Program) (name : String) : Ty → Emitting Text :=
  expandedText (planFor p name)
    (refer (planFor p name) (define (planFor p name) 2 2) "index" name) 2

/-- A reference to the type `Node` of the package `p`. -/
def nodeRef : Ty := .named ⟨some "p", "Node"⟩ []

/-- A struct with a node merged into it and with a list of nodes. -/
def nodeType : Ty :=
  .struct [⟨"Node", .pointer nodeRef, "", true, true, {}⟩,
    ⟨"Kids", .slice (.pointer nodeRef), "", false, true, {}⟩]

/-- A package in which `Node` is that struct. -/
def nodeProgram : Program where
  packages := ⟨[("p", { path := "p", name := "p", symbols := ⟨[
    ("Node", ⟨"Node", some "p", {}, .type { underlying := some nodeType }⟩)]⟩ })]⟩

/-- A text without interfaces to expand comes to parts of the type only. -/
theorem mem_parts_of_reaches {t c : Ty} (hplain : ∀ embeds methods, .interface embeds methods ∉ t.parts)
    (h : plan.Reaches t c) : c ∈ t.parts := by
  induction h with
  | refl => exact Ty.self_mem_parts t
  | tail _ hstep ih =>
    rcases hstep with hstep | ⟨embeds, methods, terms, hinterface, -, -⟩
    · exact Ty.parts_trans ih (Plan.Visits.mem_parts (.single hstep))
    · exact absurd (Ty.parts_trans ih hinterface.mem_parts) (hplain embeds methods)

/-- The types that the text of the struct comes to. -/
def nodeParts : List Ty :=
  [nodeType, .pointer nodeRef, nodeRef, .slice (.pointer nodeRef), .pointer nodeRef, nodeRef]

theorem mem_nodeParts_of_reaches {c : Ty} (h : plan.Reaches nodeType c) : c ∈ nodeParts := by
  refine mem_parts_of_reaches (t := nodeType) (fun embeds methods hmem => ?_) h
  change _ ∈ nodeParts at hmem
  simp [nodeParts, nodeType, nodeRef] at hmem

theorem wellNamed_nodeType : (planFor nodeProgram "Node").WellNamed ascii nodeType := by
  have hspells : ∀ {id}, (planFor nodeProgram "Node").Spells nodeType id →
      id = ⟨some "p", "Node"⟩ := by
    rintro id ⟨args, h | h⟩
    · have hmem := mem_nodeParts_of_reaches h
      simp only [nodeParts, nodeType, nodeRef, mem_cons, reduceCtorEq, Ty.named.injEq,
        not_mem_nil, or_false, false_or, or_self] at hmem
      exact hmem.1
    · have hmem := mem_nodeParts_of_reaches h
      simp [nodeParts, nodeType, nodeRef] at hmem
  have howner : (planFor nodeProgram "Node").names.names.get? "p" = some "index" := by
    decide +kernel
  refine ⟨fun path name h => ?_, fun path name owner h hget => ?_, fun name h => ?_,
    fun name index h => ?_⟩
  · cases hspells h
    exact ⟨rfl, by decide, by decide⟩
  · cases hspells h
    cases howner.symm.trans hget
    exact ⟨rfl, by decide, by decide⟩
  · cases hspells h
  · have hmem := mem_nodeParts_of_reaches h
    simp [nodeParts, nodeType, nodeRef] at hmem

theorem exists_rest_nullable (type : Text) :
    ∃ rest : Text, TypeText.nullable type = rest ++ " | null" := by
  rw [TypeText.nullable]
  split_ifs with hends
  · obtain ⟨rest, hrest⟩ := isSuffixOf_iff_suffix.1 hends
    exact ⟨⟨rest⟩, congrArg Text.mk hrest.symm⟩
  · exact ⟨type, rfl⟩

theorem mergesPlainly_nodeType {refer : (path name : String) → Emitting Text} :
    (planFor nodeProgram "Node").MergesPlainly ascii refer nodeType := by
  intro fields shape hfields hshape type htype limit text e e' hrun Ts _
  have hmem := mem_nodeParts_of_reaches hfields
  simp only [nodeParts, nodeType, nodeRef, mem_cons, reduceCtorEq, Ty.struct.injEq,
    not_mem_nil, or_false] at hmem
  subst hmem
  have hembeds : ofStruct (planFor nodeProgram "Node").program.typeInfo false
      [⟨"Node", .pointer nodeRef, "", true, true, {}⟩,
        ⟨"Kids", .slice (.pointer nodeRef), "", false, true, {}⟩] =
      .ok ⟨[⟨"Kids", false, .slice (.pointer nodeRef)⟩], [.pointer nodeRef]⟩ := by cbv
  cases hshape.symm.trans hembeds
  cases mem_singleton.1 htype
  cases limit with
  | zero => cases hrun
  | succ limit =>
    obtain ⟨type, e₁, -, hrun⟩ := Computation.bind_eq_ok hrun
    cases hrun
    exact exists_rest_nullable type

/-- The text of a type has one reading, and that is the type it stands for. -/
theorem expandedText_reads (A : Alphabet) {plan : Plan} {limit depth count : Nat}
    {k definition : String} {t : Ty} {e e' : Emission} {text : Text}
    (hover : ∀ name, plan.override? name = none) (hfallback : A.Word plan.options.fallback)
    (hnamed : plan.WellNamed A t)
    (hmerges : plan.MergesPlainly A (refer plan (define plan limit count) k definition) t)
    (h : (expandedText plan (refer plan (define plan limit count) k definition) depth t).run.run e =
      (.ok text, e')) : ∃ T, plan.Denotes k t T ∧ ∀ U, A.Reads text U ↔ U = T := by
  have hrefer : ∀ path name, Gives (fun _ => True)
      (refer plan (define plan limit count) k definition path name) (plan.SeenAs k path name) :=
    fun path name => .of_run fun _ _ _ hrun => refer_eq_ok hrun
  obtain ⟨-, T, hT, hdenotes⟩ := (gives_readAs hover hfallback hrefer depth t hnamed hmerges).ok
    trivial h
  refine ⟨T, hdenotes, fun U => ⟨fun hU => hU.unique hT.reads, ?_⟩⟩
  rintro rfl
  exact hT.reads

/-- The text of the struct is read as an object with a node merged into it. -/
theorem expandedText_reads_node : ∃ text e',
    (textIn nodeProgram "Node" nodeType).run.run {} = (.ok text, e') ∧
    text = "\x7b \"Kids\": (Node | null)[] \x7d & Partial<Node>" ∧
    ∃ T, (planFor nodeProgram "Node").Denotes "index" nodeType T ∧
      ∀ U, ascii.Reads text U ↔ U = T := by
  have htext : ((textIn nodeProgram "Node" nodeType).run.run {}).1.toOption =
      some (.ofString "\x7b \"Kids\": (Node | null)[] \x7d & Partial<Node>") := by decide +kernel
  have hrun : (textIn nodeProgram "Node" nodeType).run.run {} =
      (.ok _, ((textIn nodeProgram "Node" nodeType).run.run {}).2) :=
    Prod.ext (eq_ok_of_toOption htext) rfl
  refine ⟨_, _, hrun, rfl, ?_⟩
  refine expandedText_reads ascii (fun name => ?_) (.inl (by decide)) wellNamed_nodeType
    mergesPlainly_nodeType hrun
  rfl

/-- A package with a type that has a reserved word as its name. -/
def classSources : SourceTable where
  packages := ⟨[("p", ⟨[("p.go", "package p\ntype class struct { Base []*class }\n")]⟩)]⟩

/-- The text of a type that refers to it has no reading. -/
theorem not_reads_reserved : ∃ p log text e',
    Program.load classSources.sources ["p"] = (.ok p, log) ∧
    (textIn p "class" (.slice (.pointer (.named ⟨some "p", "class"⟩ [])))).run.run {} =
      (.ok text, e') ∧ text = "(class | null)[]" ∧ ∀ T, ¬ ascii.Reads text T := by
  obtain ⟨p, log, hload, htext⟩ := Program.exists_load (P := fun p =>
    ((textIn p "class" (.slice (.pointer (.named ⟨some "p", "class"⟩ [])))).run.run {}).1.toOption =
      some (.ofString "(class | null)[]"))
    (show (Program.load classSources.sources ["p"]).1.toOption.any _ = true by decide +kernel)
  refine ⟨p, log, _, _, hload, Prod.ext (eq_ok_of_toOption htext) rfl, rfl, fun T => ?_⟩
  have htokens : ascii.tokens "(class | null)[]" = some [.mark '(', .word "class", .mark '|',
      .word "null", .mark ')', .mark '[', .mark ']'] := rfl
  exact Alphabet.not_reads htokens rfl

end Emitting

end DeclBridge
