import DeclBridge.Proofs.DeclaredTypes
import DeclBridge.Proofs.ResolutionEnds
import DeclBridge.Proofs.Sites
import DeclBridge.Proofs.SourceOrder

/-!
# Where problems are reported

A symbol is resolved when another one needs it, and a problem goes all the way up to the symbol that
was asked for first.  The place of a problem is therefore one in a declaration that the first symbol
depends on, and the file that is reported with it is the file of the first symbol.  The two go
together as long as declarations depend on declarations of their own file.

## Shape of the argument

`Blames J P x Q` is the triple for this: `x` keeps the invariant `J` of the store, gives results in
`Q`, and reports problems at places in `P` only.  It holds of every function of the resolution when
what is written is at places in `P`, the names in it are in a set `K` (`Site.In`), and resolving a
name in `K` satisfies it (`Traced`).  A type that is found may lead to further symbols of the
package; all references in it are again to names in `K` (`Own`).
-/

namespace DeclBridge

open Outline List

variable {why : LoadError} {pos : Position} {name : String} {reported : List Diagnostic}
  {body : SymbolBody} {o : Outline} {J : Store → Prop} {P : Position → Prop}
  {resolve : String → Resolving Unit}

/-- A reference to a symbol that, if it belongs to the package at `path`, has a name in `K`. -/
def Own (path : String) (K : String → Prop) (_ : Bool) (id : SymbolId) : Prop :=
  id.package = some path → K id.name

namespace Resolving

/-- `x` keeps `J`, gives results in `Q`, and reports problems at places in `P` only. -/
abbrev Blames {α : Type} (J : Store → Prop) (P : Position → Prop) (x : Resolving α)
    (Q : α → Prop) : Prop :=
  Triple J x (fun a S => J S ∧ Q a) fun f S => J S ∧ f.At P

namespace Blames

variable {α β : Type} {P' : Position → Prop} {x : Resolving α} {Q Q' : α → Prop} {R : β → Prop}

theorem pure {a : α} (h : Q a) : Blames J P (Pure.pure a) Q := Triple.pure fun _ hS => ⟨hS, h⟩

theorem bind {f : α → Resolving β} (hx : Blames J P x Q) (hf : ∀ a, Q a → Blames J P (f a) R) :
    Blames J P (x >>= f) R :=
  Triple.bind hx fun a => Triple.assume fun _ hS => (hf a hS.2).start hS.1

theorem problem {why : Problem} (h : P pos) : Blames J P (Resolving.problem why pos) Q :=
  .throw fun _ hS => ⟨hS, h⟩

theorem endless : Blames J P (throw (.fault .endlessType) : Resolving α) Q :=
  .throw fun _ hS => ⟨hS, fun _ h => (by cases h)⟩

theorem get : Blames J P (MonadState.get : Resolving Store) J :=
  Triple.get fun _ hS => ⟨hS, hS⟩

end Blames

/-- The judgement that a computation blames places in `P`. -/
abbrev Judgement.blaming (J : Store → Prop) (P : Position → Prop) : Judgement Unit :=
  single J P (fun f S => J S ∧ f.At P) fun _ _ hS hf => ⟨hS, hf⟩

/-- What the functions of the resolution need: references stay in `K`, and a name in `K` is resolved
with problems at places in `P` only. -/
structure Traced (env : Surroundings) (resolve : String → Resolving Unit) (K : String → Prop)
    (P : Position → Prop) (J : Store → Prop) : Prop where
  symbol : ∀ name s, env.outline.symbols.get? name = some s → s.name = name
  other : ∀ path package, path ≠ env.outline.path → env.program.packages.get? path = some package →
    ∀ name s, package.symbols.get? name = some s →
      s.package = some path ∧ s.Within (· ≠ env.outline.path)
  store : ∀ S, J S → ∀ name s, K name → S.symbols.get? name = some s →
    ∀ t ∈ s.types, t.Refers (Own env.outline.path K)
  resolve : ∀ name, K name → Blames J P (resolve name) fun _ => True

variable {env : Surroundings} {K : String → Prop}

/-! ## References -/

theorem refers_of_within {path : String} {t : Ty} (h : t.Within (· ≠ path)) :
    t.Refers (Own path K) :=
  (Ty.within_iff_refers.1 h).mono fun _ _ hid hpackage => absurd rfl (hid path hpackage)

theorem typeInfo_blames (id : SymbolId) : Blames J P (typeInfo env id) fun _ => True := by
  rw [typeInfo]
  split
  · exact Blames.get.bind fun _ _ => Blames.pure trivial
  · exact Blames.pure trivial

section

variable (h : Traced env resolve K P J)

include h

theorem lookUp_blames (hname : K name) :
    Blames J P (lookUp resolve name) fun s => ∀ found, s = some found →
      ∀ t ∈ found.types, t.Refers (Own env.outline.path K) :=
  (h.resolve name hname).bind fun _ _ => Blames.get.bind fun store hstore =>
    Blames.pure fun found hfound => h.store store hstore name found hname hfound

/-- References stay in `K`, and lead to problems at places in `P` only. -/
theorem Traced.leads : (Judgement.blaming J P).Leads (fun _ => env) (fun _ => resolve) env.outline K
    (Ty.Refers (Own env.outline.path K)) env.limit where
  outline _ := env.outline.moves_stay
  made _ := Ty.refers_of_children
  predeclared _ := Ty.refers_named.2 ⟨fun heq => (by cases heq), by simp⟩
  own {name s args} hs hname hargs _ := by
    refine Ty.refers_reference.2 ⟨fun _ => ?_, hargs⟩
    show K s.name
    rwa [h.symbol name s hs]
  info _ {id _} _ := typeInfo_blames id
  look _ hname := lookUp_blames h hname
  limit _ := rfl
  args ht := (Ty.refers_reference.1 ht).2
  subst := instantiate_refers
  name ht hown := (Ty.refers_reference.1 ht).1 hown
  other {_ id _} _ hother := by
    refine ⟨_, fun _ => (TypeInfo.moved_stay _).symm, fun t ht => ?_⟩
    rw [Program.typeInfo_symbol] at ht
    obtain ⟨s, hs, hmem⟩ := mem_types_of_typeInfo? ht
    obtain ⟨package, hpackage, hs⟩ := Option.bind_eq_some_iff.1 hs
    obtain ⟨path, hpath, hpackage⟩ := Option.bind_eq_some_iff.1 hpackage
    have hne : path ≠ env.outline.path := fun heq => hother (heq ▸ hpath)
    exact refers_of_within ((h.other path package hne hpackage id.name s hs).2 t hmem)
  endless := Blames.endless (J := J) (P := P) (Q := Ty.Refers (Own env.outline.path K))

/-- What is imported belongs to another package, and refers to other packages only. -/
theorem Traced.imports {scope : Scope} (hscope : scope.Within (· ≠ env.outline.path)) :
    (Judgement.blaming J P).Imports (fun _ => env) scope (Ty.Refers (Own env.outline.path K)) :=
  Judgement.single_imports hscope h.other (fun hid hargs => Ty.refers_reference.2
    ⟨fun heq => absurd rfl (hid _ heq), hargs⟩) fun _ => refers_of_within

end

end Resolving

/-! ## Declarations -/

/-- The package declares `b`, and the declaration of `a` depends on it. -/
def Outline.Leads (o : Outline) (files : List SourceFile) (a b : String) : Prop :=
  o.symbols.contains b = true ∧ RestsOn files a b

/-- A place in a declaration that the declaration of `a` depends on. -/
def PlaceFrom (files : List SourceFile) (a : String) (pos : Position) : Prop :=
  ∃ b, RestsOn files a b ∧ ∃ file ∈ files, ∃ site ∈ file.sitesOf b, site.pos = pos

/-- What is stored of each symbol refers to what its declaration leads to. -/
def Store.Rooted (o : Outline) (files : List SourceFile) (S : Store) : Prop :=
  ∀ name s, S.symbols.get? name = some s →
    ∀ t ∈ s.types, t.Refers (Own o.path (o.Leads files name))

variable {files : List SourceFile} {a b path : String} {p : Program} {S : Store}

theorem Outline.Leads.trans {c : String} (h : o.Leads files a b) (h' : o.Leads files b c) :
    o.Leads files a c :=
  ⟨h'.1, h.2.trans h'.2⟩

theorem PlaceFrom.of_restsOn (h : RestsOn files a b)
    (hpos : PlaceFrom files b pos) : PlaceFrom files a pos := by
  obtain ⟨c, hc, hplace⟩ := hpos
  exact ⟨c, h.trans hc, hplace⟩

/-- The sites of a declaration are places from it, and the names there are what it leads to. -/
theorem Site.in_of_sitesOf {file : SourceFile} (hfile : file ∈ files) {site : Site}
    (hsite : site ∈ file.sitesOf a) : site.In o (o.Leads files a) (PlaceFrom files a) where
  place := ⟨a, .refl, file, hfile, site, hsite, rfl⟩
  name _ hname hdeclared := ⟨hdeclared, .single ⟨file, hfile, site, hsite, hname⟩⟩

theorem Store.Rooted.withBody (h : S.Rooted o files)
    (hbody : ∀ s : Symbol, s.body = body → ∀ t ∈ s.types,
      t.Refers (Own o.path (o.Leads files name))) : (S.withBody name body).Rooted o files := by
  intro n s hs
  obtain ⟨s₀, hs₀, -, ⟨rfl, heq⟩ | ⟨-, rfl⟩⟩ := Store.get?_withBody hs
  · exact hbody s heq
  · exact h n s hs₀

/-- Nothing outside the declarations in some files refers to their package, the one at `path`: the
files do not import it, and no other package that was loaded refers to it. -/
structure Program.Apart (p : Program) (path : String) (files : List SourceFile) : Prop where
  other : ∀ q package, q ≠ path → p.packages.get? q = some package →
    ∀ name s, package.symbols.get? name = some s → s.package = some q ∧ s.Within (· ≠ path)
  imports : ∀ file ∈ files, ∀ spec ∈ file.imports, spec.path ≠ path

/-- What the resolution of a package from its files needs to know. -/
structure Surroundings.Apart (files : List SourceFile) (env : Surroundings) : Prop where
  outline : env.outline = ofFiles env.program env.outline.path files
  program : env.program.Apart env.outline.path files

theorem Program.Apart.surroundings (h : p.Apart path files) (limit : Nat) :
    Surroundings.Apart files ⟨ofFiles p path files, p, limit⟩ := by
  have hpath : (ofFiles p path files).path = path := (ofFiles_sound p path files).2
  exact ⟨by rw [hpath], by rwa [hpath]⟩

namespace Surroundings.Apart

variable {env : Surroundings} (h : env.Apart files)

include h

theorem sound : env.outline.Sound := by
  rw [h.outline]
  exact (ofFiles_sound _ _ _).1

theorem scope {file : SourceFile} (hfile : file ∈ files) {scope : Scope}
    (hscope : scope = ⟨file.path, importNames env.program file.imports⟩) :
    scope.Within (· ≠ env.outline.path) := by
  intro name path hpath
  rw [hscope] at hpath
  obtain ⟨spec, hspec, rfl⟩ := mem_of_get?_importNames hpath
  exact h.program.imports file hfile spec hspec

theorem type {decl : TypeDecl} (hdecl : env.outline.types.get? a = some decl) :
    ∃ file ∈ files, decl.scope.file = file.path ∧ decl.scope.Within (· ≠ env.outline.path) ∧
      ∀ site ∈ decl.spec.sites, site ∈ file.sitesOf a := by
  rw [h.outline] at hdecl
  obtain ⟨file, hfile, hspec, rfl, hscope⟩ := exists_type hdecl
  exact ⟨file, hfile, by rw [hscope], h.scope hfile hscope,
    fun site hsite => file.mem_sitesOf_type hspec hsite⟩

theorem const {decl : ConstDecl} (hdecl : env.outline.consts.get? a = some decl) :
    ∃ file ∈ files, decl.scope.file = file.path ∧ decl.scope.Within (· ≠ env.outline.path) ∧
      decl.value ∈ decl.spec.values ∧ ∀ site ∈ decl.spec.sites, site ∈ file.sitesOf a := by
  rw [h.outline] at hdecl
  obtain ⟨file, hfile, hspec, hname, hvalue, hscope⟩ := exists_const hdecl
  exact ⟨file, hfile, by rw [hscope], h.scope hfile hscope, hvalue,
    fun site hsite => file.mem_sitesOf_const hspec hname hsite⟩

/-- A declared name has a place in the file that its problems are reported for. -/
theorem fileOf (ha : env.outline.symbols.contains a = true) :
    ∃ file ∈ files, env.outline.fileOf a = file.path ∧
      ⟨env.outline.placeOf a, none⟩ ∈ file.sitesOf a := by
  obtain ⟨s, hs⟩ := Table.contains_iff.1 ha
  rw [Outline.fileOf, Outline.placeOf]
  cases htype : env.outline.types.get? a with
  | some decl =>
    obtain ⟨file, hfile, hpath, -, hsites⟩ := h.type htype
    exact ⟨file, hfile, hpath, hsites _ mem_cons_self⟩
  | none =>
    obtain ⟨decl, hdecl⟩ : ∃ decl, env.outline.consts.get? a = some decl := by
      cases hbody : s.body with
      | type info =>
        have := h.sound.type a s info hs hbody
        rw [htype] at this
        cases this
      | const value type => exact Option.isSome_iff_exists.1 (h.sound.const a s value type hs hbody)
    obtain ⟨file, hfile, hpath, -, -, hsites⟩ := h.const hdecl
    rw [hdecl]
    exact ⟨file, hfile, hpath, hsites _ mem_cons_self⟩

end Surroundings.Apart

namespace Resolving

variable {env : Surroundings} (henv : env.Apart files)
  (h : Traced env resolve (env.outline.Leads files a) (PlaceFrom files a)
    (Store.Rooted env.outline files))

theorem setBody_blames (hbody : ∀ s : Symbol, s.body = body → ∀ t ∈ s.types,
    t.Refers (Own env.outline.path (env.outline.Leads files a))) :
    Blames (Store.Rooted env.outline files) (PlaceFrom files a) (setBody a body) fun _ => True :=
  .update fun _ hS => ⟨hS.withBody hbody, trivial⟩

include henv h

theorem resolveBody_blames (ha : env.outline.symbols.contains a = true) :
    Blames (Store.Rooted env.outline files) (PlaceFrom files a) (resolveBody env resolve a)
      fun _ => True := by
  have hlooks := h.leads.looks
  refine hlooks.resolveBody a (fun hnone => ?_) (fun _ _ decl _ _ hdecl => ?_) fun decl hdecl => ?_
  · rw [Table.contains, hnone] at ha
    cases ha
  · obtain ⟨file, hfile, -, hscope, hsites⟩ := henv.type hdecl
    refine hlooks.resolveType a (h.imports hscope)
      (fun site hsite => Site.in_of_sitesOf hfile (hsites site hsite)) fun info hparams htypes => ?_
    simp only [Judgement.single, TypeInfo.moved_stay]
    refine setBody_blames fun s hs t ht => ?_
    rw [Symbol.types, hs] at ht
    simp only [mem_append, mem_filterMap, Option.mem_toList] at ht
    rcases ht with (⟨p, hp, ht⟩ | ht) | ht
    · exact hparams p hp t ht
    · exact htypes t (.inr ht)
    · exact htypes t (.inl ht)
  · obtain ⟨file, hfile, -, hscope, hvalue, hsites⟩ := henv.const hdecl
    obtain ⟨hline, hrest⟩ := forall_mem_cons.1 fun site hsite =>
      Site.in_of_sitesOf (o := env.outline) hfile (hsites site hsite)
    obtain ⟨htype, hvalues⟩ := forall_mem_append.1 hrest
    refine hlooks.resolveConst a (h.imports hscope) hline.place
      (forall_mem_flatMap.1 hvalues _ hvalue) (fun t ht => ?_) fun value type hfound => ?_
    · rw [ht] at htype
      exact htype
    · simp only [Judgement.single, SymbolBody.moved, funext Ty.moved_stay, Option.map_id']
      refine setBody_blames fun s hs t ht => ?_
      rw [Symbol.types, hs] at ht
      exact hfound t (Option.mem_toList.1 ht)

omit h in
/-- The problems of a symbol are at places that its declaration leads to. -/
theorem resolveSymbol_blames (count : Nat) (ha : env.outline.symbols.contains a = true) :
    Blames (Store.Rooted env.outline files) (PlaceFrom files a) (resolveSymbol env count a)
      fun _ => True := by
  induction count generalizing a with
  | zero => exact Blames.endless
  | succ count ih =>
    have htraced : Traced env (resolveSymbol env count) (env.outline.Leads files a)
        (PlaceFrom files a) (Store.Rooted env.outline files) := by
      refine ⟨fun name s hs => (henv.sound.symbol name s hs).1, henv.program.other,
        fun S hS name s hname hs t ht => ?_, fun name hname => ?_⟩
      · exact (hS name s hs t ht).mono fun _ id hid hown => hname.trans (hid hown)
      · refine (ih hname.1).weaken (fun _ hS => hS) (fun _ _ hS => hS) fun f _ hf => ⟨hf.1, ?_⟩
        cases f with
        | problem why pos => exact PlaceFrom.of_restsOn hname.2 hf.2
        | fault why => exact hf.2
    unfold resolveSymbol
    refine Blames.get.bind fun S hS => ?_
    split
    · obtain ⟨file, hfile, -, hsite⟩ := henv.fileOf ha
      exact Blames.problem ⟨a, .refl, file, hfile, _, hsite, rfl⟩
    · exact Blames.pure trivial
    · refine Blames.bind (Q := fun _ => True)
        (.update fun _ hS => ⟨hS, trivial⟩) fun _ _ => ?_
      refine Blames.bind (Q := fun _ => True) (.tryCatch (resolveBody_blames henv htraced ha)
        fun f => ?_) fun _ _ => .update fun _ hS => ⟨hS, trivial⟩
      refine .bind (Q := fun _ S => Store.Rooted env.outline files S ∧
        f.At (PlaceFrom files a)) (.update fun _ hS => hS)
        fun _ => .throw fun _ hS => hS

end Resolving

/-! ## Reports -/

/-- A diagnostic at a place in one of the files: with the name of that file, or with that of another
one, where a declaration depends on the one that has the place. -/
def Diagnostic.PlacedIn (files : List SourceFile) (d : Diagnostic) : Prop :=
  ∃ file ∈ files, ∃ name, ∃ site ∈ file.sitesOf name, d.span = .ofPosition file.path site.pos ∨
    ∃ other ∈ files, ∃ first, other.sitesOf first ≠ [] ∧ RestsOn files first name ∧
      other.path ≠ file.path ∧ d.span = .ofPosition other.path site.pos

theorem exists_of_mem_mapM {ε α β : Type} {f : α → Except ε β} {l : List α} {bs : List β} {b : β}
    (h : l.mapM f = .ok bs) (hb : b ∈ bs) : ∃ a ∈ l, f a = .ok b := by
  have hall := mapM_eq_ok.1 h
  induction hall with
  | nil => cases hb
  | cons ha hl ih =>
    rcases mem_cons.1 hb with rfl | hb
    · exact ⟨_, mem_cons_self, ha⟩
    · obtain ⟨a, hmem, heq⟩ := ih (mapM_eq_ok.2 hl) hb
      exact ⟨a, mem_cons_of_mem _ hmem, heq⟩

theorem Problem.span_of_diagnostic {why : Problem} {file : Option String}
    {d : Diagnostic} (h : why.diagnostic file pos = .ok d) : d.span = .ofPosition file pos := by
  obtain ⟨message, -, hd⟩ := eq_ok_of_bind h
  cases hd
  rfl

namespace Outline

variable {env : Surroundings}

/-- A report is of a problem, in the file of the symbol that was asked for. -/
theorem span_of_report {result : Except Failure Unit}
    (h : o.report name result = .ok reported) (d : Diagnostic)
    (hd : d ∈ reported) : ∃ why pos, result = .error (.problem why pos) ∧
      d.span = .ofPosition (o.fileOf name) pos := by
  cases result with
  | ok =>
    cases h
    cases hd
  | error failure =>
    cases failure with
    | fault why => cases h
    | problem why pos =>
      obtain ⟨diagnostic, hdiagnostic, h⟩ := eq_ok_of_bind h
      cases h
      rw [mem_singleton.1 hd]
      exact ⟨why, pos, rfl, Problem.span_of_diagnostic hdiagnostic⟩

/-- However the resolution of a symbol ends, what is stored stays rooted, and a failure is at a place
that the declaration leads to. -/
theorem resolveSymbol_placed (henv : env.Apart files) {count : Nat} {S S₁ : Store}
    {result : Except Failure Unit} (hS : S.Rooted env.outline files)
    (hname : env.outline.symbols.contains name = true)
    (hrun : (Resolving.resolveSymbol env count name).run.run S = (result, S₁)) :
    S₁.Rooted env.outline files ∧
      ∀ failure, result = .error failure → failure.At (PlaceFrom files name) := by
  have hblames := Resolving.resolveSymbol_blames henv count hname
  cases result with
  | ok => exact ⟨(hblames.ok hS hrun).1, fun _ h => by cases h⟩
  | error failure =>
    obtain ⟨hS₁, hat⟩ := hblames.error hS hrun
    exact ⟨hS₁, fun _ h => Except.error.inj h ▸ hat⟩

/-- What is reported of a symbol: a place that its declaration leads to, with its own file. -/
theorem resolveAll_places (henv : env.Apart files) {names : List String} {S S' : Store}
    (hS : S.Rooted env.outline files)
    (hnames : ∀ name ∈ names, env.outline.symbols.contains name = true)
    (h : resolveAll env S names = .ok (S', reported)) :
    ∀ d ∈ reported, ∃ name ∈ names, ∃ pos, PlaceFrom files name pos ∧
      d.span = .ofPosition (env.outline.fileOf name) pos := by
  induction names generalizing S S' reported with
  | nil =>
    cases h
    exact forall_mem_nil _
  | cons name names ih =>
    obtain ⟨hname, hnames⟩ := forall_mem_cons.1 hnames
    rw [resolveAll_cons] at h
    rcases hrun : (Resolving.resolveSymbol env (env.outline.symbols.size + 1) name).run.run S with
      ⟨result, S₁⟩
    rw [hrun] at h
    obtain ⟨first, hfirst, h⟩ := eq_ok_of_bind h
    obtain ⟨⟨S₂, more⟩, hmore, h⟩ := eq_ok_of_bind h
    cases h
    obtain ⟨hS₁, hat⟩ := resolveSymbol_placed henv hS hname hrun
    refine forall_mem_append.2 ⟨fun d hd => ?_, fun d hd => ?_⟩
    · obtain ⟨why, pos, rfl, hspan⟩ := span_of_report hfirst d hd
      exact ⟨name, mem_cons_self, pos, hat _ rfl, hspan⟩
    · obtain ⟨later, hlater, hplace⟩ := ih hS₁ hnames hmore d hd
      exact ⟨later, mem_cons_of_mem _ hlater, hplace⟩

/-- Where nothing else refers to a package, no declaration of it is wanting. -/
theorem resolveAll_declared (henv : env.Apart files) {names : List String} {S : Store}
    (hS : S.Rooted env.outline files)
    (hnames : ∀ name ∈ names, env.outline.symbols.contains name = true) :
    FailsOnly (fun f => ∀ name, f ≠ .undeclared name) (resolveAll env S names) := by
  induction names generalizing S with
  | nil => exact .ok _
  | cons name names ih =>
    obtain ⟨hname, hnames⟩ := forall_mem_cons.1 hnames
    rw [resolveAll_cons]
    rcases hrun : (Resolving.resolveSymbol env (env.outline.symbols.size + 1) name).run.run S with
      ⟨result, S₁⟩
    obtain ⟨hS₁, hat⟩ := resolveSymbol_placed henv hS hname hrun
    refine .bind ?_ fun _ => (ih hS₁ hnames).bind fun _ => .ok _
    rcases result with (⟨why, pos⟩ | why) | ⟨⟩
    · exact (why.diagnostic_failsOnly _ pos).weaken (fun _ => Fault.OfValue.ne_undeclared) |>.map
    · exact .error (hat _ rfl)
    · exact .ok _

theorem start_rooted (henv : env.Apart files) :
    Store.Rooted env.outline files (Store.start env.outline) := by
  intro name s hs u hu
  rw [henv.sound.body name s hs] at hu
  cases hu

/-- A package that nothing else refers to resolves, or does not, but not for want of a declaration. -/
theorem resolveWithin_declared (h : p.Apart path files) (limit : Nat) (name : String) :
    (ofFiles p path files).resolveWithin limit p ≠ .error (.fault (.undeclared name)) := by
  have henv := h.surroundings limit
  suffices hfails : FailsOnly (fun e => ∀ f, e = .fault f → ∀ name, f ≠ .undeclared name)
      ((ofFiles p path files).resolveWithin limit p) from
    fun heq => hfails.of_error _ heq _ rfl name rfl
  have hfault (f : Fault) (hf : ∀ name, f ≠ .undeclared name) (f' : Fault)
      (heq : LoadFailure.fault f = .fault f') : ∀ name, f' ≠ .undeclared name :=
    LoadFailure.fault.inj heq ▸ hf
  -- a redeclaration only cites names, so the symbols are what is left
  rw [resolveWithin]
  refine .bind (.mapError (redeclarations_failsOnly _) fun f hf => hfault f hf.ne_undeclared)
    fun _ => .bind (.mapError (resolveAll_declared henv (start_rooted henv)
      fun _ hname => Table.mem_keys_iff.1 hname) hfault) fun _ => ?_
  dsimp only
  split
  · exact .ok _
  · exact .error fun _ heq => (by cases heq)

/-- A package that does not resolve has two kinds of reports. -/
theorem resolveWithin_error {limit : Nat} {program : Program}
    (h : o.resolveWithin limit program = .error (.error why)) : ∃ redeclared S reported,
      o.redeclarations = .ok redeclared ∧
      resolveAll ⟨o, program, limit⟩ { symbols := o.symbols } o.symbols.keys = .ok (S, reported) ∧
      why.diagnostics = redeclared ++ reported := by
  rw [resolveWithin] at h
  cases hredeclared : o.redeclarations with
  | error fault =>
    rw [hredeclared] at h
    cases h
  | ok redeclared =>
    rw [hredeclared] at h
    rcases hall : resolveAll ⟨o, program, limit⟩ { symbols := o.symbols } o.symbols.keys with
      fault | ⟨S, reported⟩ <;> rw [hall] at h
    · cases h
    · simp only [Except.mapError, bind, Except.bind] at h
      split at h
      · cases h
      · cases h
        exact ⟨redeclared, S, reported, rfl, rfl, rfl⟩

/-- A name that is declared again is reported where it stands. -/
theorem redeclarations_places {redeclared : List Diagnostic}
    (h : (ofFiles p path files).redeclarations = .ok redeclared) (d : Diagnostic)
    (hd : d ∈ redeclared) : ∃ file ∈ files, ∃ name, ∃ site ∈ file.sitesOf name,
      d.span = .ofPosition file.path site.pos := by
  obtain ⟨r, hr, hdiagnostic⟩ := exists_of_mem_mapM h hd
  obtain ⟨file, hfile, name, hpath, hsite⟩ := exists_redeclared hr
  refine ⟨file, hfile, name, _, hsite, ?_⟩
  rw [← hpath]
  exact Problem.span_of_diagnostic hdiagnostic

end Outline

namespace Loading

variable {t : SourceTable} {tried : List String}

/-- When a package has its turn, nothing that was loaded refers to it. -/
theorem History.apart (h : History t tried p) (hfresh : path ∉ tried)
    (himports : ∀ i ∈ importsOf files, i ∈ tried) : p.Apart path files := by
  refine ⟨fun q package hne hpackage name s hs => ?_, fun file hfile spec hspec => ?_⟩
  · obtain ⟨-, hs, -, hwithin⟩ := (h.sound q package hpackage).symbol name s hs
    refine ⟨hs, fun u hu => (hwithin u hu).mono fun r hr heq => ?_⟩
    rw [heq] at hr
    rcases Relation.ReflTransGen.cases_tail hr with hr | ⟨last, -, hlast⟩
    · exact hne hr.symm
    · rw [Program.Imports, Program.importsOf] at hlast
      cases hget : p.packages.get? last with
      | none =>
        rw [hget] at hlast
        cases hlast
      | some found =>
        rw [hget] at hlast
        exact hfresh (h.imports_tried hget hlast)
  · rintro rfl
    exact hfresh (himports _ (mem_importsOf.2 ⟨file, hfile, spec, hspec, rfl⟩))

/-- When a package has its turn and does not resolve: line and column of a diagnostic are those of a
place in a declaration in one of the files.  The file is the right one, or it is the file of another
declaration, which depends on the first and was being resolved for itself. -/
theorem History.unresolved_places (h : History t tried p) (hfresh : path ∉ tried)
    (himports : ∀ i ∈ importsOf files, i ∈ tried)
    (hresolve : (ofFiles p path files).resolve p = .error (.error why)) :
    ∀ d ∈ why.diagnostics, d.PlacedIn files := by
  obtain ⟨redeclared, S, reported, hredeclared, hall, hdiagnostics⟩ :=
    resolveWithin_error hresolve
  have henv := (h.apart hfresh himports).surroundings aliasLimit
  rw [hdiagnostics]
  refine forall_mem_append.2 ⟨fun d hd => ?_, fun d hd => ?_⟩
  · obtain ⟨file, hfile, name, site, hsite, hspan⟩ := redeclarations_places hredeclared d hd
    exact ⟨file, hfile, name, site, hsite, .inl hspan⟩
  · obtain ⟨first, hfirst, pos, ⟨name, hrests, file, hfile, site, hsite, rfl⟩, hspan⟩ :=
      resolveAll_places henv (start_rooted henv) (fun _ hname => Table.mem_keys_iff.1 hname) hall d hd
    obtain ⟨other, hother, hpath, hplace⟩ := henv.fileOf (Table.mem_keys_iff.1 hfirst)
    rw [hpath] at hspan
    refine ⟨file, hfile, name, site, hsite, ?_⟩
    by_cases hsame : other.path = file.path
    · exact .inl (hsame ▸ hspan)
    · exact .inr ⟨other, hother, first, ne_nil_of_mem hplace, hrests, hsame, hspan⟩

theorem cause_of_read (h : t.read path = .error (.error why)) : why.cause = .noDirectory := by
  rw [SourceTable.read] at h
  split at h <;> cases h <;> rfl

theorem cause_of_parseFiles {texts : SourceList}
    (h : parseFiles path texts = .error (.error why)) : why.cause = .badText := by
  have hfails : FailsOnly (fun f : LoadFailure => ∀ why, f = .error why → why.cause = .badText)
      (parseFiles path texts) := by
    refine .mapM fun file _ => .mapError (F := fun _ => True)
      ⟨fun _ _ => trivial⟩ fun e _ why hwhy => ?_
    cases e <;> cases hwhy <;> rfl
  exact hfails.of_error _ h why rfl

theorem cause_of_checkNames (h : checkNames path files = .error (.error why)) :
    why.cause ≠ .unresolved := by
  rw [checkNames] at h
  split at h
  · cases h
  · cases h
    exact fun heq => by cases heq

end Loading

/-- Where the diagnostics of a package that does not resolve point.  Line and column are always
those of a place in a declaration of one of its files.  The file is the one that the place is in, or
else that of a declaration in another file that depends on it. -/
theorem Program.load_unresolved_places {t : SourceTable} {patterns : List String} {p : Program}
    {log : List LogLine} (h : Program.load t.sources patterns = (.ok p, log)) {path : String}
    {why : LoadError} (hwhy : p.failures.get? path = some why) (hcause : why.cause = .unresolved) :
    ∃ files, t.Files path files ∧ ∀ d ∈ why.diagnostics, d.PlacedIn files := by
  obtain ⟨l, -, rfl, -, hcourse⟩ := Program.load_course h
  have habsent : l.program.packages.get? path = none := by
    by_contra hsome
    have := hcourse.history.disjoint (Option.isSome_iff_ne_none.2 hsome)
    rw [Table.contains, hwhy] at this
    cases this
  obtain ⟨before, p₁, hhistory, hfresh, hturn, -, -⟩ :=
    hcourse.history.exists_turn (Program.outcome?_eq_error_iff.2 ⟨habsent, hwhy⟩)
  cases hturn with
  | missing hread => cases (Loading.cause_of_read hread).symm.trans hcause
  | unreadable _ hparse => cases (Loading.cause_of_parseFiles hparse).symm.trans hcause
  | mixed _ _ hnames => exact absurd hcause (Loading.cause_of_checkNames hnames)
  | cyclic hcycle hnone =>
    obtain ⟨_, ⟨files, hfiles, -⟩, -⟩ := Relation.TransGen.head'_iff.1 hcycle
    refine ⟨files, hfiles, fun d hd => ?_⟩
    rw [hnone] at hd
    cases hd
  | unresolved hfiles himports hresolve =>
    exact ⟨_, hfiles, hhistory.unresolved_places hfresh himports hresolve⟩

/-- A declaration that needs one of another file. -/
def needsOther : String := "package p\n\ntype A B\n"

/-- The other declaration, further down in its file, which needs what is nowhere. -/
def needsMissing : String := "package p\n\n\n\ntype B Missing\n"

/-- The one diagnostic has the line of the second file and the name of the first, where nothing is
declared on that line. -/
theorem Program.load_unresolved_places_twoFiles : ∃ p log why files,
    Program.load (twoFiles needsOther needsMissing).sources ["p"] = (.ok p, log) ∧
    p.failures.get? "p" = some why ∧ why.diagnostics.map (·.span) = [⟨"a.go", some 5, some 8⟩] ∧
    (twoFiles needsOther needsMissing).Files "p" files ∧ (∀ d ∈ why.diagnostics, d.PlacedIn files) ∧
    ∀ file ∈ files, file.path = "a.go" → ∀ name, ∀ site ∈ file.sitesOf name, site.pos ≠ ⟨5, 8⟩ := by
  obtain ⟨p, log, hload, why, hwhy, hcause, hspans⟩ := Program.exists_load (P := fun p =>
    ∃ why ∈ p.failures.get? "p", why.cause = .unresolved ∧
      why.diagnostics.map (·.span) = [⟨"a.go", some 5, some 8⟩])
    (show (Program.load (twoFiles needsOther needsMissing).sources ["p"]).1.toOption.any _ = true by
      rw [SourceTable.sources, twoFiles.read_eq]
      decide +kernel)
  obtain ⟨files, hfiles, hplaced⟩ := Program.load_unresolved_places hload hwhy hcause
  refine ⟨p, log, why, files, hload, hwhy, hspans, hfiles, hplaced, ?_⟩
  obtain ⟨texts, hread, hparse, -⟩ := hfiles
  rw [twoFiles.read_eq] at hread
  cases hread
  obtain ⟨files', hparse', hsites⟩ := exists_ok_of_any (P := fun files => ∀ file ∈ files,
    file.path = some "a.go" → ∀ site ∈ file.sites, site.pos ≠ ⟨5, 8⟩)
    (show (Loading.parseFiles "p" [("a.go", needsOther), ("b.go", needsMissing)]).toOption.any _ =
      true by decide +kernel)
  cases hparse.symm.trans hparse'
  exact fun file hfile hpath name site hsite =>
    hsites file hfile hpath site (file.mem_sites hsite)

end DeclBridge
