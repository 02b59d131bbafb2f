import DeclBridge.Proofs.ReferenceClosure

/-!
# Invariants of a run

A run reserves names, writes texts for them, defines types that are not known and notes references.
A text is written only after the texts of all types of the definition, so these types end by then
and everything they mention was referred to (`Plan.Explored`).  Between the beginning of a reference
and the note of it, the type that it leads to is defined; the references that have begun and are not
noted yet are *pending*.

`Plan.Maintains` lists what each of these steps must keep of an invariant, which may speak of the
pending references.  Everything that is known where a step is taken stands as a hypothesis.  What
the steps keep, the definition of a symbol keeps (`define_maintains`).  A walk through the requested
symbols keeps it too, if it is kept when the walk comes to a symbol (`defineRequested_maintains`).
-/

namespace DeclBridge

open Emitting Emission List

variable {path owner : String} {I : Emission → Prop} {others selections : List Selection}
  {options : Options} {primary : Selection} {run : Run} {why : Option LoadError} {α : Type}
  {s : Symbol} {k : String} {e e' e₀ : Emission} {r : Selection × Package} {plan : Plan}
  {Inv : List Reference → Emission → Prop}

/-- A program whose packages are found under their paths, and whose symbols are told apart by their
names within a package. -/
structure Program.Keyed (p : Program) : Prop where
  path : ∀ path package, p.packages.get? path = some package → package.path = path
  name : ∀ path package, p.packages.get? path = some package → ∀ s ∈ package.symbols.values,
    ∀ s' ∈ package.symbols.values, s.name = s'.name → s = s'

/-! ## Places -/

namespace Plan

variable {e' : Emission}

/-- A symbol that may be written, in the module of its package. -/
def Place (plan : Plan) (k : String) (s : Symbol) : Prop :=
  ∃ path package, plan.names.names.get? path = some k ∧
    plan.program.packages.get? path = some package ∧ s ∈ package.writable

/-- The definition of a symbol comes to a reference to a declared type. -/
def Cites (plan : Plan) (s : Symbol) (path name : String) : Prop :=
  ∃ t ∈ plan.rendered s, plan.Mentions t path name

/-- A module may import another: a definition in it comes to a reference to a type there. -/
def Links (plan : Plan) (k other : String) : Prop :=
  ∃ s path name, plan.Place k s ∧ plan.Cites s path name ∧
    plan.names.names.get? path = some other

/-- A name may be taken in a module: a symbol of the package has it, or a type of that name in the
package is referred to. -/
def Grounds (plan : Plan) (k n : String) : Prop :=
  (∃ s, plan.Place k s ∧ s.name = n) ∨
    ∃ j s path, plan.Place j s ∧ plan.Cites s path n ∧ plan.names.names.get? path = some k

/-- The types of a symbol's definition end, and what they mention was referred to. -/
def Explored (plan : Plan) (e : Emission) (s : Symbol) : Prop :=
  ∀ t ∈ plan.rendered s, plan.Ends t ∧ ∀ path name, plan.Mentions t path name →
    ∃ r ∈ e.references, r.path = path ∧ r.name = name

theorem Explored.mono (h : plan.Explored e s) (href : e.references ⊆ e'.references) :
    plan.Explored e' s := by
  intro t ht
  refine ⟨(h t ht).1, fun path name hmentions => ?_⟩
  obtain ⟨r, hr, heq⟩ := (h t ht).2 path name hmentions
  exact ⟨r, href hr, heq⟩

theorem Explored.of_nil (h : plan.rendered s = []) : plan.Explored e s := by
  intro t ht
  rw [h] at ht
  exact absurd ht not_mem_nil

end Plan

namespace Emitting

/-- Two packages never share a module, so a place tells the package. -/
theorem mem_writable_of_place (hinj : NameTable.Injective plan.names.names)
    (howner : plan.names.names.get? path = some owner) (h : plan.Place owner s) :
    ∃ package, plan.program.packages.get? path = some package ∧ s ∈ package.writable := by
  obtain ⟨path', package, hpath', hpackage, hs⟩ := h
  cases hinj hpath' howner
  exact ⟨package, hpackage, hs⟩

theorem mem_symbols_of_place (h : plan.Place k s) : s ∈ plan.program.symbols := by
  obtain ⟨path, package, -, hpackage, hs⟩ := h
  exact mem_flatMap.2 ⟨_, Table.mem_values_of_get? hpackage, mem_values_of_writable hs⟩

/-- In a program that tells symbols apart, a place is the place of one symbol. -/
theorem eq_of_place (hinj : NameTable.Injective plan.names.names) (hkeyed : plan.program.Keyed)
    {s' : Symbol} (h : plan.Place k s) (h' : plan.Place k s')
    (hname : s'.name = s.name) : s' = s := by
  obtain ⟨path, package, hpath, hpackage, hs⟩ := h
  obtain ⟨package', hpackage', hs'⟩ := mem_writable_of_place hinj hpath h'
  cases hpackage.symm.trans hpackage'
  exact hkeyed.name path package hpackage s' (mem_values_of_writable hs') s
    (mem_values_of_writable hs) hname

/-! ### Marks -/

/-- What leaves every state to one that has grown respects all marks that stay. -/
theorem respects_of_extends {M : Emission → Prop} {x : Emitting α}
    (hx : ∀ e, I e → Triple (· = e) x (fun _ e' => I e' ∧ e.Extends e') (fun _ _ => True))
    (hM : ∀ e e', e.Extends e' → M e → M e') : Respects I M x :=
  ⟨Triple.assume fun e he => (hx e he).post (fun _ _ h => h.1),
    Triple.assume fun e he => (hx e he.1).post
      (fun _ e' h => ⟨h.1, hM e e' h.2 he.2⟩)⟩

/-- Where states only grow, each member of a list leaves its own mark for good. -/
theorem forM_marks {M : α → Emission → Prop} {l : List α}
    {f : α → Emitting Unit} (hf : ∀ a ∈ l, ∀ e, I e → Triple (· = e) (f a)
      (fun _ e' => I e' ∧ e.Extends e' ∧ M a e') (fun _ _ => True))
    (hM : ∀ a e e', e.Extends e' → M a e → M a e') :
    Triple I (l.forM f) (fun _ e => I e ∧ ∀ a ∈ l, M a e) (fun _ _ => True) := by
  have hrespects : ∀ b ∈ l, ∀ a ∈ l, Respects I (M b) (f a) := fun b _ a ha =>
    respects_of_extends (fun e he => (hf a ha e he).post
      (fun _ _ h => ⟨h.1, h.2.1⟩)) (hM b)
  refine .and (.forM fun a ha => (hrespects a ha a ha).unmarked)
    (.all fun a => .all fun ha => ?_)
  have hmark : Marks I (M a) (f a) := .assume fun e he =>
    (hf a ha e he).post (fun _ _ h => ⟨h.1, h.2.2⟩)
  exact (Marks.forM ha hmark fun b hb => hrespects a ha b hb).post
    (fun _ _ h => h.2)

/-- A symbol whose definition has a text has been explored. -/
theorem symbolText_explores {refer : (path name : String) → Emitting Text}
    (hrefer : ∀ path name, ∀ e, I e → Triple (· = e) (refer path name)
      (fun _ e' => (I e' ∧ e.Extends e') ∧ ∃ r ∈ e'.references, r.path = path ∧ r.name = name)
      (fun _ _ => True)) (limit : Nat) (s : Symbol) :
    Triple I (symbolText plan (expandedText plan refer limit) s) (fun _ e => plan.Explored e s)
      (fun _ _ => True) := by
  refine .all fun t => .all fun ht => ?_
  have hends : plan.Ends t ∨ ¬ plan.Ends t := Classical.em _
  rcases hends with hends | hends
  · refine (Triple.all fun path => .all fun name => .all fun hmentions => ?_).post
      (fun _ _ h => ⟨hends, h⟩)
    set M : Emission → Prop := fun e => ∃ r ∈ e.references, r.path = path ∧ r.name = name
    have hrespects : ∀ path name, Respects I M (refer path name) := fun path name =>
      respects_of_extends (fun e he => (hrefer path name e he).post
        (fun _ _ h => h.1)) fun _ _ hext ⟨r, hr, heq⟩ => ⟨r, hext.references hr, heq⟩
    have hmark : Marks I M (refer path name) := .assume fun e he =>
      (hrefer path name e he).post (fun _ _ h => ⟨h.1.1, h.2⟩)
    exact (symbolText_marks (P := fun t => plan.Mentions t path name)
      (fun _ => exists_field_of_mentions)
      (fun c => expandedText_respects hrespects limit c)
      (fun c hc => expandedText_marks hrespects hmark limit hc) ht hmentions).post
        (fun _ _ h => h.2)
  · -- a type without end would leave no text
    exact (symbolText_marks (P := fun t => ¬ plan.Ends t) (fun _ => exists_field_of_not_ends)
      (fun _ => .never _) (fun c hc => expandedText_fails hc limit) ht hends).weaken
      (fun _ _ => trivial) (fun _ _ h => h.2.elim) (fun _ _ h => h)

end Emitting

/-! ## Texts -/

namespace Emission

variable {e' e'' : Emission} {k n : String}

/-- The text of a name in a module; a name that is reserved has the empty text. -/
def text? (e : Emission) (k n : String) : Option Text :=
  (e.module? k).bind (·.definitions.get? n)

def note (e : Emission) (r : Reference) : Emission :=
  { e with references := e.references ++ [r] }

/-- Two states with the same definitions and references. -/
structure SameTexts (e e' : Emission) : Prop where
  texts : ∀ k n, e'.text? k n = e.text? k n
  references : e'.references = e.references

theorem taken_eq_isSome : e.taken k n = (e.text? k n).isSome := by
  rw [taken, text?]
  cases e.module? k <;> rfl

theorem reserved_eq_any : e.reserved k n = (e.text? k n).any (·.isEmpty) := by
  rw [reserved, text?]
  cases e.module? k <;> rfl

theorem text?_withText {text : Text} (hk : (e.module? k).isSome) (k' n' : String) :
    (e.update k (·.withText n text)).text? k' n' =
      if k = k' ∧ n = n' then some text else e.text? k' n' := by
  rw [text?, text?, module?_update]
  by_cases heq : k = k'
  · subst heq
    obtain ⟨m, hm⟩ := Option.isSome_iff_exists.1 hk
    rw [if_pos rfl, hm, Option.map_some, Option.bind_some, Option.bind_some, Module.withText,
      Table.get?_insert]
    by_cases hn : n = n' <;> simp [hn]
  · rw [if_neg heq, if_neg fun h => heq h.1]

theorem SameTexts.trans (h : e.SameTexts e') (h' : e'.SameTexts e'') : e.SameTexts e'' :=
  ⟨fun k n => (h'.texts k n).trans (h.texts k n), h'.references.trans h.references⟩

theorem SameTexts.taken (h : e.SameTexts e') (k n : String) : e'.taken k n = e.taken k n := by
  rw [taken_eq_isSome, taken_eq_isSome, h.texts]

/-- Nothing is defined or imported, and no reference noted. -/
structure Quiet (e e' : Emission) : Prop extends e.SameTexts e' where
  imports : ∀ k m', e'.module? k = some m' → ∀ i ∈ m'.imports,
    ∃ m, e.module? k = some m ∧ i ∈ m.imports

theorem Quiet.note (h : e.Quiet e') (r : Reference) : (e.note r).Quiet (e'.note r) :=
  ⟨⟨h.texts, by rw [Emission.note, Emission.note, h.references]⟩, h.imports⟩

theorem Agrees.quiet (h : e.Agrees e') : e.Quiet e' :=
  ⟨⟨fun k n => by rw [text?, text?, h.modules k], h.references⟩,
    fun k m' hm' i hi => ⟨m', h.modules k ▸ hm', hi⟩⟩

theorem sameTexts_withModule (e : Emission) (k path : String) :
    e.SameTexts { e with graph := e.graph.withModule k path } := by
  refine ⟨fun j n => ?_, rfl⟩
  rw [text?, text?, module?_withModule]
  split
  · obtain ⟨hnone, rfl⟩ := ‹_ ∧ _›
    rw [Option.isSome_eq_false_iff, Option.isNone_iff_eq_none] at hnone
    rw [hnone]
    rfl
  · rfl

theorem quiet_withModule (e : Emission) (k path : String) :
    e.Quiet { e with graph := e.graph.withModule k path } := by
  refine ⟨sameTexts_withModule e k path, fun j m hm i hi => ?_⟩
  rw [module?_withModule] at hm
  split at hm
  · cases hm
    exact absurd hi not_mem_nil
  · exact ⟨m, hm, hi⟩

theorem sameTexts_addImport (e : Emission) (k other : String) :
    e.SameTexts (e.update k (·.addImport other)) := by
  refine ⟨fun j n => ?_, rfl⟩
  rw [text?, text?, module?_update]
  split
  · cases e.module? j with
    | none => rfl
    | some m => simp only [Option.map_some, Option.bind_some, Module.definitions_addImport]
  · rfl

end Emission

def Symbol.isType (s : Symbol) : Bool :=
  match s.body with
  | .const _ _ => false
  | .type _ => true

/-! ## Steps -/

namespace Plan

/-- A reference that the definition of a symbol comes to.  The name of the definition is taken,
though it may be reserved only. -/
structure Raises (plan : Plan) (e : Emission) (r : Reference) : Prop where
  cited : ∃ s, plan.Place r.module s ∧ s.name = r.definition ∧ plan.Cites s r.path r.name
  taken : e.taken r.module r.definition = true

theorem Raises.extends {r : Reference} (h : plan.Raises e r)
    (hext : e.Extends e') : plan.Raises e' r :=
  ⟨h.cited, hext.taken h.taken⟩

/-- A text is made for a symbol in a module. -/
def Makes (plan : Plan) (k : String) (s : Symbol) (text : Text) : Prop :=
  ∃ limit count e e', (symbolText plan (expandedText plan
    (refer plan (define plan limit count) k s.name) limit) s).run.run e =
      (.ok (some text), e')

/-- A text is the definition of a type of which nothing is known. -/
def Stubs (plan : Plan) (id : SymbolId) (text : Text) : Prop :=
  (∃ replacement, plan.override? (plan.overrideName id) = some replacement ∧
    text = "export type " ++ id.name ++ " = " ++ replacement) ∨
  ∃ path : String, text = "export type " ++ id.name ++ " = " ++ plan.options.fallback ++
    " /* unresolved: " ++ path ++ " */"

/-- Everything that comes with a type has been tried. -/
def Tried (plan : Plan) (e : Emission) (k path name : String) : Prop :=
  ∀ s, plan.Place k s → comesWith plan ⟨some path, name⟩ s = true →
    e.taken k s.name = true ∨ plan.rendered s = []

/-- An invariant of states and their pending references that every step of a run keeps, but for the
reservation of symbols that are requested. -/
structure Maintains (plan : Plan) (Inv : List Reference → Emission → Prop) : Prop where
  same : ∀ {P e e'}, e.Quiet e' → Inv P e → Inv P e'
  /-- A definition in the module comes to a type of another one. -/
  imported : ∀ {P e k other}, plan.Links k other → Inv P e →
    Inv P (e.update k (·.addImport other))
  /-- A type that is not defined yet is referred to. -/
  opened : ∀ {P e r k}, plan.names.names.get? r.path = some k → plan.Raises e r →
    e.taken k r.name = false → Inv P e → Inv (r :: P) e
  /-- A symbol that comes with the type is about to be defined. -/
  reserve : ∀ {P e r k s}, plan.names.names.get? r.path = some k → plan.Raises e r →
    plan.Place k s → comesWith plan ⟨some r.path, r.name⟩ s = true →
    (e.module? k).isSome → e.taken k s.name = false →
    Inv (r :: P) e → Inv (r :: P) (e.update k (·.withText s.name .empty))
  write : ∀ {P e k s text}, plan.Place k s → (e.module? k).isSome → e.reserved k s.name = true →
    plan.Makes k s text → plan.Explored e s → Inv P e →
    Inv P (e.update k (·.withText s.name text))
  /-- Nothing of the type's name was written. -/
  unknown : ∀ {P e r k} (text : Text), plan.Stubs ⟨some r.path, r.name⟩ text →
    plan.names.names.get? r.path = some k → plan.Raises e r →
    (e.module? k).isSome → e.taken k r.name = false →
    (∀ s, plan.Place k s → s.name = r.name → plan.rendered s = []) →
    Inv (r :: P) e → Inv (r :: P) (e.update k (·.withText r.name text))
  closed : ∀ {P e r k}, plan.names.names.get? r.path = some k → plan.Raises e r →
    e.taken k r.name = true → plan.Tried e k r.path r.name → Inv (r :: P) e → Inv P (e.note r)
  /-- A type that is defined already is referred to. -/
  noted : ∀ {P e r k}, plan.names.names.get? r.path = some k → plan.Raises e r →
    e.taken k r.name = true → Inv P e → Inv P (e.note r)

end Plan

namespace Emitting

/-- What a definition of a place does for an invariant.  The state itself must have it where nothing
is made in the end, and the state with the reservation where something is. -/
def MaintainsPlaces (plan : Plan) (Inv : List Reference → Emission → Prop)
    (define : Symbol → String → Emitting Unit) : Prop :=
  ∀ ⦃s k e P⦄, plan.Place k s → e.Sound plan → (e.module? k).isSome →
    (e.taken k s.name = true ∨ s.isType = false → Inv P e) →
    (e.taken k s.name = false → Inv P (e.update k (·.withText s.name .empty))) →
    Triple (· = e) (define s k)
      (fun _ e' => (e'.Sound plan ∧ e.Grows e') ∧ Inv P e' ∧
        (e'.taken k s.name = true ∨ plan.rendered s = []))
      (fun _ _ => True)

/-! ## References -/

section References

variable {define : Symbol → String → Emitting Unit} {P : List Reference} {r : Reference}

theorem forM_maintains (hdefine : MaintainsPlaces plan Inv define) {symbols : List Symbol}
    (hplace : ∀ s ∈ symbols, plan.Place owner s)
    (hreserve : ∀ s ∈ symbols, ∀ e, e₀.Extends e → e.taken owner s.name = false → Inv P e →
      Inv P (e.update owner (·.withText s.name .empty)))
    (h₀ : e₀.Sound plan) (hinv : Inv P e₀) (hk : (e₀.module? owner).isSome) :
    Triple (· = e₀) (symbols.forM (define · owner))
      (fun _ e => ((e.Sound plan ∧ e₀.Grows e) ∧ Inv P e) ∧
        ∀ s ∈ symbols, e.taken owner s.name = true ∨ plan.rendered s = []) (fun _ _ => True) := by
  refine (forM_marks (I := fun e => (e.Sound plan ∧ e₀.Grows e) ∧ Inv P e)
    (M := fun s e => e.taken owner s.name = true ∨ plan.rendered s = []) (fun s hs e he => ?_)
    fun s e e' hext h => ?_).start ⟨⟨h₀, .refl _⟩, hinv⟩
  · refine (hdefine (hplace s hs) he.1.1 (he.1.2.toExtends.module? hk) (fun _ => he.2)
      fun hfree => hreserve s hs e he.1.2.toExtends hfree he.2).post
      (fun _ e' h => ?_)
    exact ⟨⟨⟨h.1.1, he.1.2.trans h.1.2⟩, h.2.1⟩, h.1.2.toExtends, h.2.2⟩
  · exact h.imp_left hext.taken

/-- An unknown type gets its text, and nothing else changes. -/
theorem defineUnknown_stubs {id : SymbolId} (h₀ : e₀.Sound plan) (hk : (e₀.module? owner).isSome)
    (hfree : e₀.taken owner id.name = false) :
    Triple (· = e₀) (defineUnknown plan id path owner why) (fun _ e => ∃ text, plan.Stubs id text ∧
        (e₀.update owner (·.withText id.name text)).SameOutput e) (fun _ _ => True) := by
  have hset : ∀ text, plan.Stubs id text → Triple (· = e₀) (setDefinition owner id.name text)
      (fun _ e => ∃ text, plan.Stubs id text ∧
        (e₀.update owner (·.withText id.name text)).SameOutput e)
      (fun _ _ => True) := fun text htext =>
    (setDefinition_spec h₀ hk (.inl hfree) fun _ => True).post
      (fun _ _ h => ⟨text, htext, h.2 ▸ ⟨rfl, rfl⟩⟩)
  rw [defineUnknown]
  split
  · rename_i replacement hreplacement
    exact hset _ (.inl ⟨replacement, hreplacement, rfl⟩)
  · refine .bind (hset _ (.inr ⟨path, rfl⟩)) fun _ => ?_
    refine .bind (Q := fun _ e => ∃ text, plan.Stubs id text ∧
      (e₀.update owner (·.withText id.name text)).SameOutput e) (lift_keeps fun _ _ => trivial)
      fun _ => ?_
    refine warn_spec.post ?_
    rintro _ e' ⟨e, ⟨text, htext, he⟩, hsame⟩
    exact ⟨text, htext, hsame.1.trans he.1, hsame.2.trans he.2⟩

theorem defineUnknown_maintains (h : plan.Maintains Inv)
    (howner : plan.names.names.get? r.path = some owner) (hraises : plan.Raises e₀ r)
    (h₀ : e₀.Sound plan) (hk : (e₀.module? owner).isSome) (hfree : e₀.taken owner r.name = false)
    (hnone : ∀ s, plan.Place owner s → s.name = r.name → plan.rendered s = [])
    (htried : plan.Tried e₀ owner r.path r.name) (hinv : Inv (r :: P) e₀) :
    Triple (· = e₀) (defineUnknown plan ⟨some r.path, r.name⟩ path owner why)
      (fun _ e => Inv P (e.note r)) (fun _ _ => True) := by
  refine (defineUnknown_stubs h₀ hk hfree).post ?_
  rintro _ e ⟨text, htext, hsame⟩
  have hext : e₀.Extends (e₀.update owner (·.withText r.name text)) :=
    extends_update fun _ _ => Module.extends_withText
  have hclosed := h.closed howner (hraises.extends hext) (taken_withText hk)
    (fun s hplace hcomes => (htried s hplace hcomes).imp_left hext.taken)
    (h.unknown text htext howner hraises hk hfree hnone hinv)
  exact h.same (hsame.agrees.quiet.note r) hclosed

/-- A type is defined where it must be, and the reference to it noted. -/
theorem ensureType_maintains (hinj : NameTable.Injective plan.names.names)
    (h : plan.Maintains Inv) (hdefine : MaintainsPlaces plan Inv define)
    (howner : plan.names.names.get? r.path = some owner) (hraises : plan.Raises e₀ r)
    (h₀ : e₀.Sound plan) (hk : (e₀.module? owner).isSome) (hinv : Inv P e₀) :
    Triple (· = e₀) (ensureType plan define r.path r.name owner) (fun _ e => Inv P (e.note r))
      (fun _ _ => True) := by
  rw [ensureType]
  refine .bind isTaken_spec fun taken => .assume fun e h' => ?_
  obtain ⟨rfl, htaken⟩ := h'
  cases taken with
  | true => exact .pure fun _ heq => heq ▸ h.noted howner hraises htaken hinv
  | false =>
    have hopened := h.opened howner hraises htaken hinv
    simp only [Bool.not_false, if_true, includeType]
    split
    · rename_i why hwhy
      -- a package that is missing has no places
      have hnone : ∀ s, ¬ plan.Place owner s := by
        intro s hplace
        obtain ⟨package, hpackage, -⟩ := mem_writable_of_place hinj howner hplace
        rw [package_eq_error hwhy] at hpackage
        cases hpackage
      exact defineUnknown_maintains h howner hraises h₀ hk htaken
        (fun s hplace => absurd hplace (hnone s)) (fun s hplace => absurd hplace (hnone s)) hopened
    · rename_i package hpackage
      have hpackage := package_eq_ok hpackage
      have hplace : ∀ s ∈ package.writable.filter (comesWith plan ⟨some r.path, r.name⟩),
          plan.Place owner s := fun s hs =>
        ⟨r.path, package, howner, hpackage, (mem_filter.1 hs).1⟩
      refine .bind (forM_maintains hdefine hplace (fun s hs e' hext hfree hinv' => ?_) h₀
        hopened hk) fun _ => ?_
      · exact h.reserve howner (hraises.extends hext) (hplace s hs) (mem_filter.1 hs).2
          (hext.module? hk) hfree hinv'
      refine .bind isTaken_spec fun taken => .assume fun e' h' => ?_
      obtain ⟨⟨⟨⟨hsound, hgrows⟩, hinv'⟩, hdefined⟩, htaken'⟩ := h'
      have htried : plan.Tried e' owner r.path r.name := by
        intro s hs hcomes
        obtain ⟨package', hpackage', hs⟩ := mem_writable_of_place hinj howner hs
        cases hpackage.symm.trans hpackage'
        exact hdefined s (mem_filter.2 ⟨hs, hcomes⟩)
      have hraises' := hraises.extends hgrows.toExtends
      cases taken with
      | true => exact .pure fun _ heq => heq ▸ h.closed howner hraises' htaken' htried hinv'
      | false =>
        refine defineUnknown_maintains h howner hraises' hsound (hgrows.toExtends.module? hk)
          htaken' (fun s hs hname => ?_) htried hinv'
        -- the symbol of that name was tried, and there was nothing to write
        have hcomes : comesWith plan ⟨some r.path, r.name⟩ s = true := by simp [comesWith, hname]
        refine (htried s hs hcomes).resolve_left fun h => ?_
        rw [hname, htaken'] at h
        cases h

theorem refer_maintains (hinj : NameTable.Injective plan.names.names) (h : plan.Maintains Inv)
    (hdefine : MaintainsPlaces plan Inv define) {k name : String}
    (hplace : plan.Place k s) (hcites : plan.Cites s path name) (h₀ : e₀.Sound plan)
    (htaken : e₀.taken k s.name = true) (hinv : Inv P e₀) :
    Triple (· = e₀) (refer plan define k s.name path name) (fun _ e => Inv P e)
      (fun _ _ => True) := by
  refine .bind (moduleFor_spec h₀ (.inr trivial)) fun owner => .assume fun e₁ h₁ => ?_
  obtain ⟨hsound₁, hgrows₁, howner, hmodule₁, rfl⟩ := h₁
  set e₁ : Emission := { e₀ with graph := e₀.graph.withModule owner path } with he₁
  obtain ⟨hsound₂, hgrows₂⟩ := addImport_spec (k := k) hsound₁ hmodule₁
  set e₂ := e₁.update k (·.addImport owner) with he₂
  have hinv₂ : Inv P e₂ := h.imported ⟨s, path, name, hplace, hcites, howner⟩
    (h.same (quiet_withModule e₀ owner path) hinv)
  refine .update_bind ?_
  set r : Reference := ⟨k, s.name, path, name,
    if owner = k then (name : Text) else owner ++ "." ++ name⟩ with hr
  have hraises : plan.Raises e₂ r :=
    ⟨⟨s, hplace, rfl, hcites⟩, (hgrows₁.trans hgrows₂).toExtends.taken htaken⟩
  refine .bind (ensureType_maintains (r := r) hinj h hdefine howner hraises hsound₂
    (hgrows₂.toExtends.module? hmodule₁) hinv₂) fun _ => ?_
  exact .bind (Q := fun _ e => Inv P e) (.update fun _ he => he) fun _ =>
    Triple.pure fun _ he => he

end References

/-! ## Definitions -/

theorem symbolText_none {render : Ty → Emitting Text} :
    Gives (fun _ => True) (symbolText plan render s) fun text => text = none → s.isType = false := by
  rw [symbolText, Symbol.isType]
  cases s.body with
  | const value type => exact (Gives.unconditional _).mono fun _ _ _ => rfl
  | type info =>
    refine (Gives.unconditional _).bind fun text _ => .pure fun h => ?_
    cases h

/-- How a symbol is defined.  Where its name is free, the name is reserved and the references are
made that its types come to; then the text is set, or the reservation dropped if there is none.  `I`
is what the references keep, and `Q` what the definition leads to. -/
theorem define_steps {Q : Emission → Prop} {limit count : Nat}
    (hplace : plan.Place k s) (h₀ : e₀.Sound plan) (hk : (e₀.module? k).isSome)
    (htaken : e₀.taken k s.name = true → Q e₀)
    (hreserve : e₀.taken k s.name = false → I (e₀.update k (·.withText s.name .empty)))
    (hrefer : ∀ path name e, plan.Cites s path name → e.Sound plan → e.taken k s.name = true →
      I e → Triple (· = e) (refer plan (define plan limit count) k s.name path name)
        (fun _ => I) (fun _ _ => True))
    (hnone : ∀ e, e₀.taken k s.name = false → plan.rendered s = [] →
      (symbolText plan (expandedText plan (refer plan (define plan limit count) k s.name) limit)
        s).run.run (e₀.update k (·.withText s.name .empty)) = (.ok none, e) →
      e₀.Agrees (e.update k (·.discard s.name)) → Q (e.update k (·.discard s.name)))
    (hsome : ∀ text e, e₀.taken k s.name = false → plan.Explored e s →
      (symbolText plan (expandedText plan (refer plan (define plan limit count) k s.name) limit)
        s).run.run (e₀.update k (·.withText s.name .empty)) = (.ok (some text), e) →
      e.Sound plan → (e₀.update k (·.withText s.name .empty)).Grows e → (e.module? k).isSome →
      e.reserved k s.name = true → I e → Q (e.update k (·.withText s.name text))) :
    Triple (· = e₀) (define plan limit (count + 1) s k)
      (fun _ e => (e.Sound plan ∧ e₀.Grows e) ∧ Q e) (fun _ _ => True) := by
  refine .and (define_spec (fun _ _ => trivial) (fun _ h => Program.admits_of_mem plan h)
    (.inr trivial) (mem_symbols_of_place hplace) h₀ hk (.inl trivial)) ?_
  rw [define]
  refine .bind isTaken_spec fun taken => .assume fun e h' => ?_
  obtain ⟨rfl, hfree⟩ := h'
  cases taken with
  | true => exact .pure fun _ heq => heq ▸ htaken hfree
  | false =>
    set e₁ := e.update k (·.withText s.name .empty) with he₁
    have hext₁ : e.Extends e₁ := extends_update fun _ _ => Module.extends_withText
    refine .bind (Q := fun _ e => e = e₁) (.update ?_) fun _ => ?_
    · rintro _ rfl
      exact reserve_spec h₀ hfree
    have hI₁ : e₁.Sound plan ∧ e₁.Grows e₁ := ⟨h₀.withText _, .refl _⟩
    have hgrowing : ∀ path name, ∀ e', e'.Sound plan ∧ e₁.Grows e' →
        Triple (· = e') (refer plan (define plan limit count) k s.name path name)
          (fun _ e₂ => ((e₂.Sound plan ∧ e₁.Grows e₂) ∧ e'.Extends e₂) ∧
            ∃ r ∈ e₂.references, r.path = path ∧ r.name = name)
          (fun _ _ => True) := by
      intro path name e' he'
      have hplaces : DefinesPlaces plan (fun _ => True) (· ∈ plan.program.symbols) count
          (define plan limit count) := fun s k e hs _ he hk _ =>
        define_spec (fun _ _ => trivial) (fun _ h => Program.admits_of_mem plan h) (.inr trivial)
          hs he hk (.inl trivial)
      refine (refer_spec (fun _ _ => trivial) hplaces ⟨.inr trivial, fun _ hpackage _ hs _ =>
        mem_flatMap.2 ⟨_, Table.mem_values_of_get? hpackage, mem_values_of_writable hs⟩⟩ he'.1
        (.inl trivial) ((hext₁.trans he'.2.toExtends).module? hk)).post
        (fun _ e₂ h₂ => ?_)
      exact ⟨⟨⟨h₂.1, he'.2.trans h₂.2.1⟩, h₂.2.1.toExtends⟩, h₂.2.2⟩
    have hrender : ∀ t ∈ plan.rendered s, ∀ c, plan.Visits t c →
        Keeps (fun e => (e.Sound plan ∧ e₁.Grows e) ∧ I e) (fun _ => True)
          (expandedText plan (refer plan (define plan limit count) k s.name) limit c) := by
      intro t ht c hc
      refine expandedText_keeps (fun _ _ => trivial) (Program.mem_typeParts
        (mem_symbols_of_place hplace) (plan.rendered_subset s ht) hc.mem_parts) (.inr trivial)
        fun path name hmentions => .assume fun e' he' => ?_
      refine ((hgrowing path name e' he'.1).and (hrefer path name e'
        ⟨t, ht, hc.mentions hmentions⟩ he'.1.1 (he'.1.2.toExtends.taken (taken_withText hk))
        he'.2)).post (fun _ _ h => ⟨h.1.1.1, h.2⟩)
    refine .bind (((symbolText_spec (fun _ _ => trivial) (.inr trivial) hrender
      ⟨hI₁, hreserve hfree⟩).and Triple.of_run).and ((symbolText_explores hgrowing limit s).start hI₁))
      fun text => Triple.assume fun e₂ h₂ => ?_
    obtain ⟨⟨htext, hrun⟩, hexplored⟩ := h₂
    cases text with
    | none =>
      refine .update ?_
      rintro _ rfl
      exact hnone _ hfree htext.2 hrun (discard_spec hfree htext.1)
    | some text =>
      obtain ⟨⟨⟨hsound₂, hgrows₂⟩, hinv₂⟩, -⟩ := htext
      have hk₂ := (hext₁.trans hgrows₂.toExtends).module? hk
      have hreserved : e₂.reserved k s.name = true := by
        rw [hgrows₂.reserved, reserved_withText hk, if_pos ⟨rfl, rfl⟩]
        rfl
      refine (setDefinition_spec hsound₂ hk₂ (.inr hreserved) fun _ => True).post ?_
      rintro _ e₃ ⟨-, rfl⟩
      exact hsome text e₂ hfree hexplored hrun hsound₂ hgrows₂ hk₂ hreserved hinv₂

/-- The definition of a symbol keeps what its steps keep. -/
theorem define_maintains (hinj : NameTable.Injective plan.names.names) (h : plan.Maintains Inv)
    (limit count : Nat) : MaintainsPlaces plan Inv (define plan limit count) := by
  induction count with
  | zero => exact fun _ _ _ _ _ _ _ _ _ => .throw fun _ _ => trivial
  | succ count ih =>
    intro s k e P hplace h₀ hk hkeep hreserve
    refine define_steps (I := Inv P) hplace h₀ hk
      (fun htaken => ⟨hkeep (.inl htaken), .inl htaken⟩) hreserve
      (fun path name e' hcites hsound htaken hinv =>
        refer_maintains hinj h ih hplace hcites hsound htaken hinv)
      (fun e' _ hnil hrun hagrees => ⟨h.same hagrees.quiet (hkeep (.inr ?_)), .inr hnil⟩)
      fun text e' _ hexplored hrun _ _ hk' hreserved hinv =>
        ⟨h.write hplace hk' hreserved ⟨limit, count, _, e', hrun⟩ hexplored hinv,
          .inl (taken_withText hk')⟩
    exact (symbolText_none.ok trivial hrun).2 rfl

end Emitting

/-! ## Walks -/

/-- The walk through what is requested, from the state `e₀`, comes to a symbol in the module `k`
when the state is `e`. -/
def Plan.Comes (plan : Plan) (limit count : Nat) (requested : List (Selection × Package))
    (e₀ : Emission) (k : String) (s : Symbol) (e : Emission) : Prop :=
  ∃ before request after passed left e₁ e₂, requested = before ++ request :: after ∧
    request.2.writable.filter (request.1.includes plan.options.includeUnexported) =
      passed ++ s :: left ∧
    (defineRequested plan limit count before).run.run e₀ = (.ok (), e₁) ∧
    (moduleFor plan request.2.path).run.run e₁ = (.ok k, e₂) ∧
    (passed.forM (define plan limit count · k)).run.run e₂ = (.ok (), e)

/-- What a walk comes to, one symbol after the other, each with the path of its package. -/
def Plan.visits (plan : Plan) (requested : List (Selection × Package)) : List (String × Symbol) :=
  requested.flatMap fun r =>
    (r.2.writable.filter (r.1.includes plan.options.includeUnexported)).map fun s => (r.2.path, s)

namespace Emitting

variable {limit count : Nat} {requested : List (Selection × Package)}

theorem moduleFor_eq_ok (h : (moduleFor plan path).run.run e = (.ok k, e')) :
    plan.names.names.get? path = some k := by
  rw [moduleFor, NameTable.nameOf] at h
  obtain ⟨k', e₁, hname, h⟩ := Computation.bind_eq_ok h
  obtain ⟨_, e₂, -, h⟩ := Computation.bind_eq_ok h
  cases h
  cases hget : plan.names.names.get? path with
  | none =>
    rw [hget] at hname
    cases hname
  | some k' =>
    rw [hget] at hname
    cases hname
    rfl

theorem exists_request_of_comes (h : plan.Comes limit count requested e₀ k s e) :
    ∃ request ∈ requested, plan.names.names.get? request.2.path = some k ∧ s ∈ request.2.writable ∧
      request.1.includes plan.options.includeUnexported s = true := by
  obtain ⟨before, request, after, passed, left, e₁, e₂, rfl, hfilter, -, hmodule, -⟩ := h
  have hs : s ∈ passed ++ s :: left := mem_append_cons_self
  rw [← hfilter] at hs
  obtain ⟨hs, hselected⟩ := mem_filter.1 hs
  exact ⟨request, mem_append_cons_self, moduleFor_eq_ok hmodule, hs,
    hselected⟩

/-- What is kept where modules are made, and where the walk comes to a symbol, the walk keeps. -/
theorem defineRequested_turns {I : List (String × Symbol) → Emission → Prop}
    (hrequested : ∀ r ∈ requested, plan.program.packages.get? r.2.path = some r.2)
    (hmodule : ∀ visits e e' k path, e.Grows e' →
      e' = { e with graph := e.graph.withModule k path } → I visits e → I visits e')
    (hturn : ∀ visits path package k s e, plan.Comes limit count requested e₀ k s e →
      plan.names.names.get? path = some k → plan.program.packages.get? path = some package →
      s ∈ package.writable → e.Sound plan → (e.module? k).isSome → I visits e →
      Triple (· = e) (define plan limit count s k)
        (fun _ e' => (e'.Sound plan ∧ e.Grows e') ∧ I (visits ++ [(path, s)]) e')
        (fun _ _ => True))
    (h₀ : e₀.Sound plan) (hinv : I [] e₀) :
    Triple (· = e₀) (defineRequested plan limit count requested)
      (fun _ e => (e.Sound plan ∧ e₀.Grows e) ∧ I (plan.visits requested) e)
      (fun _ _ => True) := by
  refine .bind ((moduleFor_spec h₀ (.inr trivial)).and Triple.of_run) fun _ =>
    Triple.assume fun e₁ h₁ => ?_
  obtain ⟨⟨hsound₁, hgrows₁, -, -, heq₁⟩, hrun₁⟩ := h₁
  refine .forM_passed (I := fun passed e => (e.Sound plan ∧ e₀.Grows e) ∧ I (plan.visits passed) e)
    (fun before request after heq e hbefore he => ?_)
    ⟨⟨hsound₁, hgrows₁⟩, hmodule _ _ _ _ _ hgrows₁ heq₁ hinv⟩
  obtain ⟨⟨hsound, hgrows⟩, hinv⟩ := he
  have hpackage := hrequested request (heq ▸ mem_append_cons_self)
  refine .bind ((moduleFor_spec hsound (.inr trivial)).and Triple.of_run) fun k =>
    Triple.assume fun e₂ h₂ => ?_
  obtain ⟨⟨hsound₂, hgrows₂, hk, hmodule₂, heq₂⟩, hrun₂⟩ := h₂
  have hvisits : plan.visits (before ++ [request]) = plan.visits before ++
      (request.2.writable.filter (request.1.includes plan.options.includeUnexported)).map
        fun s => (request.2.path, s) := by
    rw [Plan.visits, flatMap_append, flatMap_singleton]
    rfl
  rw [hvisits]
  refine (Triple.forM_passed (I := fun passed e => (e.Sound plan ∧ e₂.Grows e) ∧
      I (plan.visits before ++ passed.map fun s => (request.2.path, s)) e)
    (fun passed s left hfilter e₃ hpassed he₃ => ?_) ⟨⟨hsound₂, .refl _⟩, ?_⟩).post
    (fun _ e₃ he₃ => ⟨⟨he₃.1.1, hgrows.trans (hgrows₂.trans he₃.1.2)⟩, he₃.2⟩)
  · obtain ⟨⟨hsound₃, hgrows₃⟩, hinv₃⟩ := he₃
    have hs : s ∈ passed ++ s :: left := mem_append_cons_self
    rw [← hfilter] at hs
    have hcomes : plan.Comes limit count requested e₀ k s e₃ := by
      refine ⟨before, request, after, passed, left, e, e₂, heq, hfilter, ?_, hrun₂, hpassed⟩
      rw [defineRequested, Computation.run_bind_ok hrun₁]
      exact hbefore
    refine (hturn _ _ _ k s e₃ hcomes hk hpackage (mem_of_mem_filter hs) hsound₃
      (hgrows₃.toExtends.module? hmodule₂) hinv₃).post (fun _ e₄ he₄ => ?_)
    rw [map_append, ← append_assoc]
    exact ⟨⟨he₄.1.1, hgrows₃.trans he₄.1.2⟩, he₄.2⟩
  · rw [map_nil, append_nil]
    exact hmodule _ _ _ _ _ hgrows₂ heq₂ hinv

/-- What is selected of a requested package has its name taken, unless there is nothing to explore.
-/
def Written (plan : Plan) (requested : Selection × Package) (e : Emission) : Prop :=
  ∀ s ∈ requested.2.writable.filter (requested.1.includes plan.options.includeUnexported),
    ∃ k, plan.names.names.get? requested.2.path = some k ∧
      (e.taken k s.name = true ∨ plan.rendered s = [])

/-- What the steps keep, and the reservation of every symbol that the walk comes to, a run keeps; and
it writes all that is selected. -/
theorem defineRequested_maintains (hinj : NameTable.Injective plan.names.names)
    (h : plan.Maintains Inv)
    (hrequested : ∀ r ∈ requested, plan.program.packages.get? r.2.path = some r.2)
    (hturn : ∀ k s e, plan.Comes limit count requested e₀ k s e → (e.module? k).isSome →
      e.taken k s.name = false → Inv [] e → Inv [] (e.update k (·.withText s.name .empty)))
    (h₀ : e₀.Sound plan) (hinv : Inv [] e₀) :
    Triple (· = e₀) (defineRequested plan limit count requested)
      (fun _ e => ((e.Sound plan ∧ e₀.Grows e) ∧ Inv [] e) ∧ ∀ r ∈ requested, Written plan r e)
      (fun _ _ => True) := by
  have hmono {e e' : Emission} (hgrows : e.Grows e') (v : String × Symbol) :
      (∃ k, plan.names.names.get? v.1 = some k ∧
        (e.taken k v.2.name = true ∨ plan.rendered v.2 = [])) →
      ∃ k, plan.names.names.get? v.1 = some k ∧
        (e'.taken k v.2.name = true ∨ plan.rendered v.2 = []) :=
    fun ⟨k, hk, htaken⟩ => ⟨k, hk, htaken.imp_left hgrows.toExtends.taken⟩
  refine (defineRequested_turns (I := fun visits e => Inv [] e ∧ ∀ v ∈ visits,
      ∃ k, plan.names.names.get? v.1 = some k ∧
        (e.taken k v.2.name = true ∨ plan.rendered v.2 = [])) hrequested
    (fun visits e e' k path hgrows heq he => ⟨heq ▸ h.same (quiet_withModule _ _ _) he.1,
      fun v hv => hmono hgrows v (he.2 v hv)⟩)
    (fun visits path package k s e hcomes hk hpackage hs hsound hmodule he => ?_) h₀
    ⟨hinv, forall_mem_nil _⟩).post (fun _ e he => ⟨⟨he.1, he.2.1⟩, fun r hr s hs =>
      he.2.2 (r.2.path, s) (mem_flatMap.2 ⟨r, hr, mem_map_of_mem hs⟩)⟩)
  refine (define_maintains hinj h limit count ⟨path, package, hk, hpackage, hs⟩ hsound hmodule
    (fun _ => he.1) fun hfree => hturn k s e hcomes hmodule hfree he.1).post (fun _ e' he' => ?_)
  refine ⟨he'.1, he'.2.1, fun v hv => ?_⟩
  rcases mem_append.1 hv with hv | hv
  · exact hmono he'.1.2 v (he.2 v hv)
  · obtain rfl := mem_singleton.1 hv
    exact ⟨k, hk, he'.2.2⟩

end Emitting

namespace Program

/-- The packages that are requested, each with its selection. -/
def requested (p : Program) (selections : List Selection) : List (Selection × Package) :=
  selections.filterMap fun s => (p.packages.get? s.path).map fun package => (s, package)

variable {p : Program}

theorem mem_requested : r ∈ p.requested selections ↔
      r.1 ∈ selections ∧ p.packages.get? r.1.path = some r.2 := by
  rw [requested, mem_filterMap]
  constructor
  · rintro ⟨s, hs, heq⟩
    obtain ⟨package, hpackage, rfl⟩ := Option.map_eq_some_iff.1 heq
    exact ⟨hs, hpackage⟩
  · rintro ⟨hs, hpackage⟩
    exact ⟨r.1, hs, by rw [hpackage, Option.map_some]⟩

theorem zip_eq_requested {packages : List Package}
    (h : List.Forall₂ (fun s package => p.packages.get? s.path = some package) selections packages) :
    selections.zip packages = p.requested selections := by
  induction h with
  | nil => rfl
  | cons hpackage _ ih =>
    rw [zip_cons_cons, ih, requested, requested, filterMap_cons, hpackage]
    rfl

/-- A run is a walk through the packages of its selections. -/
theorem exists_walk_within {limit count : Nat}
    (hrun : p.emitWithin limit count primary others options = .ok run) :
    ∃ e, (defineRequested (Plan.ofRequest p primary others options) limit count
        (p.requested (primary :: others))).run.run
        (Plan.ofRequest p primary others options).start = (.ok (), e) ∧
      run = Run.ofEmission (Plan.ofRequest p primary others options) e := by
  rcases p.emitWithin_cases limit count primary others options with
    ⟨why, herror, -⟩ | ⟨packages, hpackages, ⟨e, hmade, hok⟩ | ⟨e, fault, -, herror⟩⟩
  · cases hrun.symm.trans herror
  · cases hrun.symm.trans hok
    refine ⟨e, ?_, rfl⟩
    rw [← zip_eq_requested hpackages]
    exact hmade
  · cases hrun.symm.trans herror

theorem exists_walk (hrun : p.emit primary others options = .ok run) :
    ∃ e, (defineRequested (Plan.ofRequest p primary others options) p.typeParts.length
        (p.symbolCount + 2) (p.requested (primary :: others))).run.run
        (Plan.ofRequest p primary others options).start = (.ok (), e) ∧
      run = Run.ofEmission (Plan.ofRequest p primary others options) e :=
  exists_walk_within hrun

theorem Keyed.get?_requested (hkeyed : p.Keyed) (hr : r ∈ p.requested selections) :
    p.packages.get? r.2.path = some r.2 := by
  have hfound := (mem_requested.1 hr).2
  rw [hkeyed.path _ _ hfound]
  exact hfound

end Program

end DeclBridge
