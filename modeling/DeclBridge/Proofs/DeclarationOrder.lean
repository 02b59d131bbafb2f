import DeclBridge.Proofs.MissingPackages
import DeclBridge.Proofs.MovedResolution
import Mathlib.Data.List.Perm.Basic

/-!
# The order of declarations

The outline of a package goes through its files one after another and keeps the names in the order
in which it comes to them.  Where no name is declared twice, that order is all that is special about
it: an outline `Holds` one entry for each name that the files declare.  So files that declare the
same in another order have outlines that are the same without their places
(`Outline.ofFiles_reordered`).

The symbols are then resolved in another order, too.  What is found for a symbol where nothing is
resolved yet is what any resolution finds, so the resolved packages are the same
(`Outline.resolve_reordered`).
-/

namespace DeclBridge

open Resolving List Table

variable {files files' : List SourceFile} {o o' : Outline} {package : Package}
  {file file' : SourceFile} {p : Program} {s : Option Symbol} {limit : Nat} {R : String → Prop}

/-! ## Lists in another order -/

/-- The members of the second list are related to those of the first, one to one and in any order.
-/
def Shuffled {α β : Type} (r : α → β → Prop) (l : List α) (l' : List β) : Prop :=
  ∃ m : List α, m.Perm l ∧ List.Forall₂ r m l'

namespace Shuffled

variable {α β γ : Type} {r : α → β → Prop} {l : List α} {l' : List β}

theorem perm_left {m : List α} (h : Shuffled r l l') (hperm : l.Perm m) : Shuffled r m l' := by
  obtain ⟨m', hperm', hall⟩ := h
  exact ⟨m', hperm'.trans hperm, hall⟩

theorem perm_right {m : List β} (h : Shuffled r l l') (hperm : l'.Perm m) : Shuffled r l m := by
  obtain ⟨m', hperm', hall⟩ := h
  have hcomp : Relation.Comp (List.Forall₂ r) List.Perm m' m := ⟨l', hall, hperm⟩
  rw [forall₂_comp_perm_eq_perm_comp_forall₂] at hcomp
  obtain ⟨m'', hperm'', hall'⟩ := hcomp
  exact ⟨m'', hperm''.symm.trans hperm', hall'⟩

theorem symm (h : Shuffled r l l') : Shuffled (flip r) l' l := by
  obtain ⟨m, hperm, hall⟩ := h
  exact perm_right ⟨l', .refl l', hall.flip⟩ hperm

theorem of_map_perm {f : α → β} {l l' : List α} (h : (l'.map f).Perm (l.map f)) :
    Shuffled (fun a b => f b = f a) l l' := by
  have hcomp : Relation.Comp (· = map f ·) List.Perm (l'.map f) l := by
    rwa [eq_map_comp_perm]
  obtain ⟨m, heq, hperm⟩ := hcomp
  refine ⟨m, hperm, ?_⟩
  rw [← forall₂_eq_eq_eq, forall₂_map_left_iff, forall₂_map_right_iff] at heq
  exact heq.flip

theorem transport {δ : Type} {q : α → γ → Prop} {q' : β → δ → Prop} {r' : γ → δ → Prop}
    {m : List γ} (h : Shuffled r l l') (hm : List.Forall₂ q l m)
    (hqr : ∀ a b c, r a b → q a c → ∃ d, q' b d ∧ r' c d) :
    ∃ m', List.Forall₂ q' l' m' ∧ Shuffled r' m m' := by
  obtain ⟨k, hperm, hall⟩ := h
  obtain ⟨k', hk, hperm'⟩ := perm_comp_forall₂ hperm hm
  suffices hmade : ∃ m', List.Forall₂ q' l' m' ∧ List.Forall₂ r' k' m' by
    obtain ⟨m', hm', hrel⟩ := hmade
    exact ⟨m', hm', k', hperm', hrel⟩
  clear hm hperm hperm'
  induction hall generalizing k' with
  | nil =>
    cases hk
    exact ⟨[], .nil, .nil⟩
  | cons hab _ ih =>
    cases hk with
    | cons hac hk =>
      obtain ⟨d, hd, hcd⟩ := hqr _ _ _ hab hac
      obtain ⟨m', hm', hrel⟩ := ih _ hk
      exact ⟨d :: m', .cons hd hm', .cons hcd hrel⟩

theorem flatMap_perm {f : α → List γ} {g : β → List γ} (h : Shuffled r l l')
    (hfg : ∀ a ∈ l, ∀ b, r a b → (g b).Perm (f a)) : (l'.flatMap g).Perm (l.flatMap f) := by
  obtain ⟨m, hperm, hall⟩ := h
  refine List.Perm.trans ?_ (hperm.flatMap_right f)
  have hm : ∀ a ∈ m, ∀ b, r a b → (g b).Perm (f a) := fun a ha => hfg a (hperm.mem_iff.1 ha)
  clear hfg hperm
  induction hall with
  | nil => exact .nil
  | cons hab _ ih =>
    rw [forall_mem_cons] at hm
    rw [flatMap_cons, flatMap_cons]
    exact (hm.1 _ hab).append (ih hm.2)

theorem map_perm {f : α → γ} {g : β → γ} (h : Shuffled r l l') (hfg : ∀ a b, r a b → g b = f a) :
    (l'.map g).Perm (l.map f) := by
  rw [map_eq_flatMap, map_eq_flatMap]
  refine h.flatMap_perm fun a _ b hab => ?_
  rw [hfg a b hab]

end Shuffled

theorem map_filterMap_sublist {α β γ : Type} {l : List α} {f : α → Option β} {g : β → γ} {k : α → γ}
    (h : ∀ a b, f a = some b → g b = k a) : ((l.filterMap f).map g).Sublist (l.map k) := by
  induction l with
  | nil => exact .slnil
  | cons a l ih =>
    rw [map_cons]
    cases ha : f a with
    | none =>
      rw [filterMap_cons_none ha]
      exact ih.cons _
    | some b =>
      rw [filterMap_cons_some ha, map_cons, h a b ha]
      exact ih.cons_cons _

/-! ## Entries of an outline -/

namespace Outline

/-- A name that a file declares, with the lines that say what it is. -/
inductive Entry where
  | type (spec : TypeSpec) (scope : Scope)
  | const (spec : ConstSpec) (name : String) (value : Expr) (scope : Scope)

namespace Entry

def name : Entry → String
  | type spec _ => spec.name
  | const _ name _ _ => name

/-- Whether there is a name; the blank name declares no constant. -/
def declares : Entry → Bool
  | type .. => true
  | const _ name _ _ => name ≠ "_"

/-- The symbol that is declared, before it is resolved. -/
def symbol (path : String) : Entry → Symbol
  | type spec scope =>
    { name := spec.name, package := some path, span := .ofPosition scope.file spec.pos
      body := .type {} }
  | const spec name _ scope =>
    { name, package := some path, span := .ofPosition scope.file spec.pos, body := .const none none }

def typeDecl? : Entry → Option (String × TypeDecl)
  | type spec scope => some (spec.name, ⟨spec, scope⟩)
  | const .. => none

def constDecl? : Entry → Option (String × ConstDecl)
  | type .. => none
  | const spec name value scope => some (name, ⟨spec, value, scope⟩)

def unplaced : Entry → Entry
  | type spec scope => type spec.unplaced scope.unplaced
  | const spec name value scope => const spec.unplaced name value.unplaced scope.unplaced

def addTo (o : Outline) : Entry → Outline
  | type spec scope => o.addType scope spec
  | const spec name value scope => o.addConst scope spec name value

theorem name_unplaced (e : Entry) : e.unplaced.name = e.name := by cases e <;> rfl

theorem declares_unplaced (e : Entry) : e.unplaced.declares = e.declares := by cases e <;> rfl

end Entry

/-- What lines declare in a file, one entry for each name. -/
def entries (scope : Scope) (types : List TypeSpec) (consts : List ConstSpec) : List Entry :=
  types.map (.type · scope) ++ consts.flatMap fun spec =>
    (spec.names.zip spec.values).map fun (n, value) => .const spec n value scope

/-- What a file declares, one entry for each name. -/
def entriesOf (program : Program) (file : SourceFile) : List Entry :=
  entries ⟨file.path, importNames program file.imports⟩ file.types file.consts

theorem entries_unplaced (scope : Scope) (types : List TypeSpec) (consts : List ConstSpec) :
    (entries scope types consts).map Entry.unplaced =
      entries scope.unplaced (types.map TypeSpec.unplaced) (consts.map ConstSpec.unplaced) := by
  have hspec (spec : ConstSpec) :
      ((spec.names.zip spec.values).map fun (n, value) => Entry.const spec n value scope).map
        Entry.unplaced = (spec.unplaced.names.zip spec.unplaced.values).map
          fun (n, value) => .const spec.unplaced n value scope.unplaced := by
    rw [ConstSpec.unplaced, ConstSpec.moved, zip_map_right, map_map, map_map]
    rfl
  rw [entries, entries, map_append, map_map, map_map, map_flatMap,
    flatMap_map]
  simp only [hspec]
  rfl

theorem entries_perm (scope : Scope) {types types' : List TypeSpec} {consts consts' : List ConstSpec}
    (htypes : types'.Perm types) (hconsts : consts'.Perm consts) :
    (entries scope types' consts').Perm (entries scope types consts) :=
  (htypes.map _).append (hconsts.flatMap_right _)

/-- The outline of a package consists of the given entries. -/
structure Holds (path : String) (es : List Entry) (o : Outline) : Prop where
  path_eq : o.path = path
  symbols : o.symbols.entries = es.map fun e => (e.name, e.symbol path)
  types : o.types.entries = es.filterMap Entry.typeDecl?
  consts : o.consts.entries = es.filterMap Entry.constDecl?
  redeclared : o.redeclared = []

variable {path : String} {es : List Entry} {o : Outline}

section

variable (h : Holds path es o)

include h

theorem Holds.keys : o.symbols.keys = es.map Entry.name := by
  rw [Table.keys, h.symbols, map_map]
  rfl

theorem Holds.typeKeys : o.types.keys.Sublist (es.map Entry.name) := by
  rw [Table.keys, h.types]
  refine map_filterMap_sublist fun e decl hdecl => ?_
  cases e with
  | type spec scope =>
    cases hdecl
    rfl
  | const => cases hdecl

theorem Holds.constKeys : o.consts.keys.Sublist (es.map Entry.name) := by
  rw [Table.keys, h.consts]
  refine map_filterMap_sublist fun e decl hdecl => ?_
  cases e with
  | type => cases hdecl
  | const spec name value scope =>
    cases hdecl
    rfl

theorem Holds.symbols_unplaced : (o.symbols.mapValues Symbol.unplaced).entries =
      (es.map Entry.unplaced).map fun e => (e.name, (e.symbol path).unplaced) := by
  rw [Table.mapValues, h.symbols, map_map, map_map]
  refine map_congr_left fun e _ => ?_
  cases e <;> rfl

theorem Holds.types_unplaced : (o.types.mapValues TypeDecl.unplaced).entries =
    (es.map Entry.unplaced).filterMap Entry.typeDecl? := by
  rw [mapValues, h.types, filterMap_map, map_filterMap]
  refine filterMap_congr fun e _ => ?_
  cases e <;> rfl

theorem Holds.consts_unplaced : (o.consts.mapValues ConstDecl.unplaced).entries =
      (es.map Entry.unplaced).filterMap Entry.constDecl? := by
  rw [mapValues, h.consts, filterMap_map, map_filterMap]
  refine filterMap_congr fun e _ => ?_
  cases e <;> rfl

theorem Holds.declare {n : String} (hnew : n ∉ es.map Entry.name)
    (body : SymbolBody) (pos : Position) (file : Option String) :
    o.declare n body pos file = { o with
      symbols := o.symbols.insert n ⟨n, some path, .ofPosition file pos, body⟩ } := by
  have hnone : o.symbols.get? n = none := by
    rw [← h.keys, Table.mem_keys_iff, Table.contains, Option.isSome_iff_ne_none, not_not] at hnew
    exact hnew
  rw [Outline.declare, hnone, h.path_eq]

theorem Holds.add {e : Entry} (hnew : e.name ∉ es.map Entry.name)
    (hdeclares : e.declares = true) : Holds path (es ++ [e]) (e.addTo o) := by
  have hsymbols : e.name ∉ o.symbols.keys := by rwa [h.keys]
  cases e with
  | type spec scope =>
    change spec.name ∉ _ at hnew hsymbols
    rw [Entry.addTo, addType, h.declare hnew]
    refine ⟨h.path_eq, ?_, ?_, ?_, h.redeclared⟩
    · rw [entries_insert hsymbols, h.symbols, map_append]
      rfl
    · have htypes : spec.name ∉ o.types.keys := fun hmem => hnew (h.typeKeys.subset hmem)
      rw [entries_insert htypes, h.types, filterMap_append]
      rfl
    · rw [h.consts, filterMap_append]
      exact (append_nil _).symm
  | const spec name value scope =>
    change name ∉ _ at hnew hsymbols
    have hname : name ≠ "_" := of_decide_eq_true hdeclares
    rw [Entry.addTo, addConst, if_neg hname, h.declare hnew]
    refine ⟨h.path_eq, ?_, ?_, ?_, h.redeclared⟩
    · rw [entries_insert hsymbols, h.symbols, map_append]
      rfl
    · rw [h.types, filterMap_append]
      exact (append_nil _).symm
    · have hconsts : name ∉ o.consts.keys := fun hmem => hnew (h.constKeys.subset hmem)
      rw [Table.entries_insert hconsts, h.consts, filterMap_append]
      rfl

/-- A name that is declared again is recorded, -/
theorem redeclared_of_mem {e : Entry} (hold : e.name ∈ es.map Entry.name)
    (hdeclares : e.declares = true) : (e.addTo o).redeclared ≠ [] := by
  obtain ⟨s, hs⟩ : ∃ s, o.symbols.get? e.name = some s := by
    rwa [← h.keys, Table.mem_keys_iff, Table.contains_iff] at hold
  cases e with
  | type spec scope =>
    rw [Entry.addTo, addType, Outline.declare]
    simp only [show o.symbols.get? spec.name = some s from hs]
    exact append_ne_nil_of_right_ne_nil _ (cons_ne_nil _ _)
  | const spec name value scope =>
    have hname : name ≠ "_" := of_decide_eq_true hdeclares
    rw [Entry.addTo, addConst, if_neg hname, Outline.declare]
    simp only [show o.symbols.get? name = some s from hs]
    exact append_ne_nil_of_right_ne_nil _ (cons_ne_nil _ _)

end

/-- and stays recorded. -/
theorem redeclared_addTo (h : o.redeclared ≠ []) (e : Entry) : (e.addTo o).redeclared ≠ [] := by
  have hdeclare (n : String) (body : SymbolBody) (pos : Position) (file : Option String) :
      (o.declare n body pos file).redeclared ≠ [] := by
    rw [Outline.declare]
    split
    · exact append_ne_nil_of_left_ne_nil h _
    · exact h
  cases e with
  | type spec scope => exact hdeclare _ _ _ _
  | const spec name value scope =>
    rw [Entry.addTo, addConst]
    split
    · exact h
    · exact hdeclare _ _ _ _

/-- An outline after some entries: it holds those that declare a name, or a name was declared twice.
-/
def Collects (path : String) (es : List Entry) (o : Outline) : Prop :=
  ((es.filter Entry.declares).map Entry.name).Nodup ∧ Holds path (es.filter Entry.declares) o ∨
    ¬ ((es.filter Entry.declares).map Entry.name).Nodup ∧ o.redeclared ≠ []

theorem Collects.add (h : Collects path es o) (e : Entry) : Collects path (es ++ [e]) (e.addTo o) := by
  rw [Collects, filter_append]
  by_cases hdeclares : e.declares = true
  · have hsingle : [e].filter Entry.declares = [e] := by rw [filter_cons_of_pos hdeclares]; rfl
    rw [hsingle]
    rcases h with ⟨hnodup, hholds⟩ | ⟨hnodup, hredeclared⟩
    · by_cases hold : e.name ∈ (es.filter Entry.declares).map Entry.name
      · refine .inr ⟨fun h => ?_, redeclared_of_mem hholds hold hdeclares⟩
        rw [map_append, nodup_append] at h
        exact h.2.2 e.name hold e.name (mem_singleton.2 rfl) rfl
      · refine .inl ⟨?_, hholds.add hold hdeclares⟩
        rw [map_append]
        exact hnodup.append (nodup_singleton _) (by simpa using hold)
    · refine .inr ⟨fun h => hnodup ?_, redeclared_addTo hredeclared e⟩
      exact h.sublist ((sublist_append_left _ _).map _)
  · have hsame : e.addTo o = o := by
      cases e with
      | type => exact absurd rfl hdeclares
      | const spec name value scope =>
        have hname : name = "_" := by simpa [Entry.declares] using hdeclares
        rw [Entry.addTo, addConst, if_pos hname]
    rw [filter_cons_of_neg hdeclares, filter_nil, append_nil, hsame]
    exact h

theorem Collects.addImport (h : Collects path es o) (q : String) :
    Collects path es (o.addImport q) := by
  rw [Outline.addImport]
  split
  · exact h
  · rcases h with ⟨hnodup, hholds⟩ | h
    · exact .inl ⟨hnodup, hholds.path_eq, hholds.symbols, hholds.types, hholds.consts,
        hholds.redeclared⟩
    · exact .inr h

theorem addFile_eq (program : Program) (o : Outline) (file : SourceFile) :
    o.addFile program file = (entriesOf program file).foldl Entry.addTo
      (file.imports.foldl (fun o spec => o.addImport spec.path) o) := by
  rw [addFile, entriesOf, entries, foldl_append, foldl_map, foldl_flatMap]
  simp only [foldl_map]
  rfl

/-- What imports keep and entries keep along with themselves holds of the outline of files with
their entries. -/
theorem ofFiles_induction {C : List Entry → Outline → Prop} (hstart : ∀ name files, C [] { path, name, files })
    (himport : ∀ es o q, C es o → C es (o.addImport q))
    (hadd : ∀ es o e, C es o → C (es ++ [e]) (e.addTo o)) (program : Program)
    (files : List SourceFile) : C (files.flatMap (entriesOf program)) (ofFiles program path files) := by
  have hfoldl (es' es : List Entry) (o : Outline) (h : C es o) :
      C (es ++ es') (es'.foldl Entry.addTo o) := by
    induction es' generalizing es o with
    | nil => rwa [append_nil]
    | cons e es' ih =>
      rw [foldl_cons, append_cons]
      exact ih _ _ (hadd es o e h)
  suffices h : ∀ es o, C es o →
      C (es ++ files.flatMap (entriesOf program)) (files.foldl (addFile program) o) from
    h [] _ (hstart _ _)
  induction files with
  | nil =>
    intro es o h
    rwa [flatMap_nil, append_nil]
  | cons file files ih =>
    intro es o h
    rw [foldl_cons, flatMap_cons, ← append_assoc, addFile_eq]
    exact ih _ _ (hfoldl _ _ _ (foldlRecOn _ _ h fun o h spec _ => himport es o spec.path h))

theorem ofFiles_collects (program : Program) (path : String) (files : List SourceFile) :
    Collects path (files.flatMap (entriesOf program)) (ofFiles program path files) :=
  ofFiles_induction (fun _ _ => .inl ⟨nodup_nil, rfl, rfl, rfl, rfl, rfl⟩)
    (fun _ _ q h => h.addImport q) (fun _ _ e h => h.add e) program files

/-! ## Files in another order -/

end Outline

/-- The same file, with its constants and types in any order. -/
structure SourceFile.Reorders (file file' : SourceFile) : Prop where
  package : file'.package = file.package
  imports : file'.imports.map ImportSpec.unplaced = file.imports.map ImportSpec.unplaced
  types : (file'.types.map TypeSpec.unplaced).Perm (file.types.map TypeSpec.unplaced)
  consts : (file'.consts.map ConstSpec.unplaced).Perm (file.consts.map ConstSpec.unplaced)

theorem SourceFile.Reorders.importPaths (h : file.Reorders file') :
    file'.imports.map (·.path) = file.imports.map (·.path) := by
  have hpaths (specs : List ImportSpec) :
      specs.map (·.path) = (specs.map ImportSpec.unplaced).map (·.path) := by
    rw [map_map]
    rfl
  rw [hpaths, h.imports, ← hpaths]

theorem Shuffled.package_eq (h : Shuffled SourceFile.Reorders files files') {name : String}
    (hagree : ∀ file ∈ files, file.package = name) (file' : SourceFile) (hfile' : file' ∈ files') :
    file'.package = name := by
  have hperm := h.map_perm (f := (·.package)) (g := (·.package)) fun _ _ hreorders => hreorders.package
  obtain ⟨file, hfile, heq⟩ := mem_map.1 (hperm.mem_iff.1 (mem_map_of_mem hfile'))
  rw [← heq]
  exact hagree file hfile

theorem Shuffled.head_package (h : Shuffled SourceFile.Reorders files files')
    (hagree : ∀ file ∈ files, file.package = (files.head?.map (·.package)).getD "") :
    (files'.head?.map (·.package)).getD "" = (files.head?.map (·.package)).getD "" := by
  cases files' with
  | nil =>
    obtain ⟨m, hperm, hall⟩ := h
    cases hall
    rw [hperm.symm.eq_nil]
  | cons file' files' => exact h.package_eq hagree file' mem_cons_self

namespace Outline

/-- Packages that have the same names are imported under the same names. -/
theorem importNames_unplaced {p' : Program} {specs specs' : List ImportSpec}
    (h : specs'.map ImportSpec.unplaced = specs.map ImportSpec.unplaced)
    (hnames : ∀ spec ∈ specs, p'.packageName spec.path = p.packageName spec.path) :
    importNames p' specs' = importNames p specs := by
  have hplaces (p : Program) (specs : List ImportSpec) :
      importNames p specs = importNames p (specs.map ImportSpec.unplaced) := by
    rw [importNames, importNames, foldl_map]
    rfl
  rw [hplaces p', h, hplaces p]
  refine foldl_ext _ _ _ fun names spec hspec => ?_
  obtain ⟨spec₀, hspec₀, rfl⟩ := mem_map.1 hspec
  have hname : p'.packageName spec₀.unplaced.path = p.packageName spec₀.unplaced.path :=
    hnames spec₀ hspec₀
  rw [hname]

theorem entriesOf_reordered {p' : Program} (h : file.Reorders file')
    (hnames : ∀ spec ∈ file.imports, p'.packageName spec.path = p.packageName spec.path) :
    ((entriesOf p' file').map Entry.unplaced).Perm ((entriesOf p file).map Entry.unplaced) := by
  rw [entriesOf, entriesOf, entries_unplaced, entries_unplaced,
    importNames_unplaced h.imports hnames]
  exact entries_perm _ h.types h.consts

variable {path : String} {es : List Entry} {o : Outline}

/-- Outlines that hold the same entries in another order are the same without places. -/
theorem Holds.unplaces {es' : List Entry} (h : Holds path es o)
    (h' : Holds path es' o') (hnodup : (es.map Entry.name).Nodup)
    (hperm : (es'.map Entry.unplaced).Perm (es.map Entry.unplaced)) : o.Unplaces o'.unplaced where
  path := h'.path_eq.trans h.path_eq.symm
  size := by
    have hlength := hperm.length_eq
    rw [length_map, length_map] at hlength
    show (o'.symbols.entries.map _).length = o.symbols.entries.length
    rw [length_map, h.symbols, h'.symbols, length_map, length_map, hlength]
  symbols name := by
    have hsymbols : (o'.symbols.mapValues Symbol.unplaced).entries.Perm
        (o.symbols.mapValues Symbol.unplaced).entries := by
      rw [h.symbols_unplaced, h'.symbols_unplaced]
      exact hperm.map _
    have hdistinct : o.symbols.Distinct := by rwa [Table.Distinct, h.keys]
    exact hdistinct.get?_mapValues_of_perm hsymbols name
  types name := by
    have htypes : (o'.types.mapValues TypeDecl.unplaced).entries.Perm
        (o.types.mapValues TypeDecl.unplaced).entries := by
      rw [h.types_unplaced, h'.types_unplaced]
      exact hperm.filterMap _
    have hdistinct : o.types.Distinct := hnodup.sublist h.typeKeys
    exact hdistinct.get?_mapValues_of_perm htypes name
  consts name := by
    have hconsts : (o'.consts.mapValues ConstDecl.unplaced).entries.Perm
        (o.consts.mapValues ConstDecl.unplaced).entries := by
      rw [h.consts_unplaced, h'.consts_unplaced]
      exact hperm.filterMap _
    have hdistinct : o.consts.Distinct := hnodup.sublist h.constKeys
    exact hdistinct.get?_mapValues_of_perm hconsts name

/-- Entries change neither the name of a package nor its imports. -/
theorem foldl_addTo_eq (es : List Entry) (o : Outline) : (es.foldl Entry.addTo o).name = o.name ∧
    (es.foldl Entry.addTo o).imports = o.imports := by
  have hdeclare (o : Outline) (n : String) (body : SymbolBody) (pos : Position)
      (file : Option String) : (o.declare n body pos file).name = o.name ∧
        (o.declare n body pos file).imports = o.imports := by
    rw [Outline.declare]
    split <;> exact ⟨rfl, rfl⟩
  refine foldlRecOn (motive := fun o' : Outline => o'.name = o.name ∧ o'.imports = o.imports)
    _ _ ⟨rfl, rfl⟩ fun o' ho' e _ => ?_
  rw [← ho'.1, ← ho'.2]
  cases e with
  | type spec scope => exact hdeclare _ _ _ _ _
  | const spec name value scope =>
    rw [Entry.addTo, addConst]
    split
    · exact ⟨rfl, rfl⟩
    · exact hdeclare _ _ _ _ _

theorem mem_imports_ofFiles {program : Program} {q : String} :
    q ∈ (ofFiles program path files).imports ↔ q ∈ files.flatMap fun f => f.imports.map (·.path) := by
  suffices h : ∀ o : Outline, q ∈ (files.foldl (addFile program) o).imports ↔
      q ∈ o.imports ∨ q ∈ files.flatMap fun f => f.imports.map (·.path) by
    rw [ofFiles, h]
    exact or_iff_right not_mem_nil
  induction files with
  | nil => simp
  | cons file files ih =>
    intro o
    rw [foldl_cons, ih, addFile_eq, (foldl_addTo_eq _ _).2, mem_imports_foldl,
      flatMap_cons, mem_append, mem_map, or_assoc]

theorem name_ofFiles (program : Program) (path : String) (files : List SourceFile) :
    (ofFiles program path files).name = (files.head?.map (·.package)).getD "" := by
  rw [ofFiles]
  refine foldlRecOn (motive := fun o : Outline => o.name = _) _ _ rfl fun o ho file _ => ?_
  rw [← ho, addFile_eq, (foldl_addTo_eq _ _).1]
  refine foldlRecOn (motive := fun o' : Outline => o'.name = o.name) _ _ rfl
    fun o' ho' spec _ => ?_
  rw [← ho', addImport]
  split <;> rfl

variable {p' : Program} {files' : List SourceFile}

/-- Files that declare the same in another order have the same outline, apart from places. -/
theorem ofFiles_reordered (h : Shuffled SourceFile.Reorders files files')
    (hnames : ∀ file ∈ files, ∀ spec ∈ file.imports,
      p'.packageName spec.path = p.packageName spec.path)
    (hdeclared : (ofFiles p path files).redeclared = []) :
    (ofFiles p' path files').redeclared = [] ∧
      (ofFiles p path files).Unplaces (ofFiles p' path files').unplaced := by
  have hperm : ((files'.flatMap (entriesOf p')).map Entry.unplaced).Perm
      ((files.flatMap (entriesOf p)).map Entry.unplaced) := by
    rw [map_flatMap, map_flatMap]
    exact h.flatMap_perm fun file hfile file' hreorders =>
      entriesOf_reordered hreorders (hnames file hfile)
  have hdeclares (es : List Entry) : (es.filter Entry.declares).map Entry.unplaced =
      (es.map Entry.unplaced).filter Entry.declares := by
    rw [filter_map]
    exact congrArg _ (filter_congr fun e _ => e.declares_unplaced.symm)
  have hname (es : List Entry) : (es.map Entry.unplaced).map Entry.name = es.map Entry.name := by
    rw [map_map]
    exact map_congr_left fun e _ => e.name_unplaced
  replace hperm := hperm.filter Entry.declares
  rw [← hdeclares, ← hdeclares] at hperm
  -- no name is declared twice, in either order
  obtain ⟨hnodup, hholds⟩ | ⟨-, hredeclared⟩ := ofFiles_collects p path files
  · obtain ⟨-, hholds'⟩ | ⟨hnodup', -⟩ := ofFiles_collects p' path files'
    · exact ⟨hholds'.redeclared, hholds.unplaces hholds' hnodup hperm⟩
    · refine absurd ?_ hnodup'
      rwa [← hname, (hperm.map Entry.name).nodup_iff, hname]
  · exact absurd hdeclared hredeclared

end Outline

/-! ## Resolving in another order -/

namespace Resolving

variable {m : Move} {env env' : Surroundings} {name : String}

section

variable (hready : Ready R env) (henv : env.Moves m R env')

include hready henv

/-- Where nothing is resolved yet, looking for a symbol ends alike wherever it is declared. -/
theorem lookUp_ends (name : String) :
    EndsAlike (fun S S' => Store.SoundFrom R env.outline (Store.start env.outline) S ∧ S.Moves m S')
      (fun _ _ => True) (Option.map (Symbol.moved m))
      ((lookUp (resolveSymbol env (env.outline.symbols.size + 1)) name).run.run
        (Store.start env.outline))
      ((lookUp (resolveSymbol env' (env'.outline.symbols.size + 1)) name).run.run
        (Store.start env'.outline)) := by
  rw [henv.outline.size]
  have hpairs : Pairs m (Store.SoundFrom R env.outline (Store.start env.outline))
      (Option.map (Symbol.moved m)) (lookUp (resolveSymbol env (env.outline.symbols.size + 1)) name)
      (lookUp (resolveSymbol env' (env.outline.symbols.size + 1)) name) := by
    refine (resolveSymbol_pairs hready henv _ name _).bind fun _ => ?_
    exact Parallel.get_bind fun S S' hS => Parallel.pure (hS.2.symbols name) S S' hS
  exact hpairs _ _ ⟨⟨hready.outline.store, .refl _⟩, rfl, henv.outline.symbols⟩

theorem finds_moved (h : env.Finds (lookUp · name) s) :
    env'.Finds (lookUp · name) (s.map (Symbol.moved m)) := by
  obtain ⟨S, hrun⟩ := h
  have hends := lookUp_ends hready henv name
  rw [hrun] at hends
  generalize hrun' : (lookUp (resolveSymbol env' _) name).run.run _ = run' at hends
  cases hends with
  | ok _ => exact ⟨_, hrun'⟩

theorem finds_of_moved {s' : Option Symbol} (h : env'.Finds (lookUp · name) s') :
    ∃ s, env.Finds (lookUp · name) s ∧ s' = s.map (Symbol.moved m) := by
  obtain ⟨S', hrun'⟩ := h
  have hends := lookUp_ends hready henv name
  rw [hrun'] at hends
  generalize hrun : (lookUp (resolveSymbol env _) name).run.run _ = run at hends
  cases hends with
  | ok _ => exact ⟨_, ⟨_, hrun⟩, rfl⟩

end

/-- What is found where nothing is resolved yet is found in any order. -/
theorem always_of_finds (houtline : env.outline.Sound) (h : env.Finds (lookUp · name) s) :
    ∃ S s', Always env S (lookUp · name) s' := by
  obtain ⟨S, hrun⟩ := h
  obtain ⟨⟨⟩, S₁, hresolve, -⟩ := Computation.bind_eq_ok hrun
  obtain ⟨hS₁, -, hdone⟩ := resolveSymbol_mirroring_self houtline _ _ name S₁
    (Store.start_mirrored [] env) hresolve
  obtain ⟨s', -, halways⟩ := hS₁.done name hdone
  exact ⟨S₁, s', halways⟩

end Resolving

/-- A package as it is found symbol by symbol, where nothing is resolved yet. -/
structure Package.FoundIn (env : Surroundings) (package : Package) : Prop where
  path : package.path = env.outline.path
  name : package.name = env.outline.name
  imports : package.imports = env.outline.imports
  declared : ∀ name, env.outline.symbols.contains name = true →
    env.Finds (lookUp · name) (package.symbols.get? name)
  others : ∀ name, env.outline.symbols.get? name = none → package.symbols.get? name = none

namespace Outline

theorem redeclarations_eq_nil : o.redeclarations = .ok [] ↔ o.redeclared = [] := by
  rw [redeclarations, mapM_eq_ok, forall₂_nil_right_iff]

theorem resolveWithin_of_resolves (houtline : o.Sound)
    (hredeclared : o.redeclared = []) (hresolves : Surroundings.Resolves ⟨o, p, limit⟩) :
    ∃ package, o.resolveWithin limit p = .ok package ∧ package.FoundIn ⟨o, p, limit⟩ := by
  have halways (name : String) (hname : name ∈ o.symbols.keys) :
      ∃ S s, Always ⟨o, p, limit⟩ S (lookUp · name) s := by
    obtain ⟨s, hs⟩ := hresolves name (mem_keys_iff.1 hname)
    exact always_of_finds houtline hs
  obtain ⟨S, hall, hsettled, -, hdone⟩ := resolveAll_of_always ⟨o, p, limit⟩ halways
    (Store.start_settled ⟨o, p, limit⟩) fun _ hstarted => nomatch hstarted
  refine ⟨_, resolveWithin_iff.2 ⟨S, redeclarations_eq_nil.2 hredeclared, hall, rfl⟩, rfl, rfl, rfl,
    fun name hname => hsettled.done name (hdone name (mem_keys_iff.2 hname)),
    fun name hname => ?_⟩
  have hbare := hsettled.bare name
  rw [show o.symbols.get? name = none from hname, Option.map_none, Option.map_eq_none_iff] at hbare
  exact hbare

/-- A package that resolves is what is found symbol by symbol. -/
theorem foundIn_of_resolveWithin (houtline : o.Sound) (h : o.resolveWithin limit p = .ok package) :
    package.FoundIn ⟨o, p, limit⟩ := by
  obtain ⟨S, hredeclared, -⟩ := resolveWithin_iff.1 h
  obtain ⟨package', hpackage', hfound⟩ := resolveWithin_of_resolves houtline
    (redeclarations_eq_nil.1 hredeclared) (resolves_of_resolveWithin houtline h)
  cases h.symm.trans hpackage'
  exact hfound

variable {R' : String → Prop} {o : Outline} {p' : Program}

/-- Outlines that are the same without places resolve to the same package. -/
theorem resolveWithin_reordered (hready : Resolving.Ready R ⟨o, p, limit⟩)
    (hready' : Resolving.Ready R' ⟨o', p', limit⟩)
    (henv : Surroundings.Moves .forget R ⟨o, p, limit⟩ ⟨o'.unplaced, p'.unplaced, limit⟩)
    (hname : o'.name = o.name) (himports : ∀ q, q ∈ o'.imports ↔ q ∈ o.imports)
    (hredeclared : o'.redeclared = []) (hpackage : o.resolveWithin limit p = .ok package) :
    ∃ package', o'.resolveWithin limit p' = .ok package' ∧ package.Unplaces package'.unplaced := by
  have henv' : Surroundings.Moves .forget R' ⟨o', p', limit⟩ ⟨o'.unplaced, p'.unplaced, limit⟩ :=
    ⟨o'.moves_moved, rfl, fun path _ => p'.moves_moved path⟩
  have hfound := foundIn_of_resolveWithin hready.outline hpackage
  have hsymbols (name : String) : (o'.symbols.get? name).map Symbol.unplaced =
      (o.symbols.get? name).map Symbol.unplaced := by
    rw [← get?_mapValues]
    exact henv.outline.symbols name
  have hcontains (name : String) (hname : o'.symbols.contains name = true) :
      o.symbols.contains name = true := by
    rw [Table.contains, ← Option.isSome_map, ← hsymbols, Option.isSome_map]
    exact hname
  -- what the first resolution finds for a symbol is what the second finds
  have hfinds (name : String) (hdeclared : o'.symbols.contains name = true) :
      ∃ s', Surroundings.Finds ⟨o', p', limit⟩ (lookUp · name) s' ∧
        (package.symbols.get? name).map Symbol.unplaced = s'.map Symbol.unplaced := by
    have hs := hfound.declared name (hcontains name hdeclared)
    exact finds_of_moved hready' henv' (finds_moved hready henv hs)
  obtain ⟨package', hpackage', hfound'⟩ := resolveWithin_of_resolves hready'.outline hredeclared
    fun name hdeclared => (hfinds name hdeclared).imp fun _ hs => hs.1
  refine ⟨package', hpackage', ?_, ?_, fun q => ?_, fun name => ?_⟩
  · exact hfound'.path.trans (henv.outline.path.trans hfound.path.symm)
  · exact hfound'.name.trans (hname.trans hfound.name.symm)
  · rw [hfound.imports]
    exact (iff_of_eq (congrArg (q ∈ ·) hfound'.imports)).trans (himports q)
  · refine (get?_mapValues _ _ name).trans ?_
    by_cases hdeclared : o'.symbols.contains name = true
    · obtain ⟨s', hs', heq⟩ := hfinds name hdeclared
      rw [(hfound'.declared name hdeclared).unique hs', heq]
    · have hnone' : o'.symbols.get? name = none := by
        rw [← Option.not_isSome_iff_eq_none]
        exact hdeclared
      have hnone : o.symbols.get? name = none := by
        rw [← Option.map_eq_none_iff (f := Symbol.unplaced), ← hsymbols, hnone', Option.map_none]
      rw [hfound.others name hnone, hfound'.others name hnone']

/-- A package resolves to the same, wherever its files declare what they do and in which order. -/
theorem resolve_reordered {path : String} (hfiles : Shuffled SourceFile.Reorders files files')
    (hready : Resolving.Ready R ⟨ofFiles p path files, p, aliasLimit⟩)
    (hready' : Resolving.Ready R' ⟨ofFiles p' path files', p', aliasLimit⟩) (hpackages : ∀ q, R q →
      Option.Rel Package.Unplaces (p.packages.get? q) (p'.unplaced.packages.get? q))
    (hagree : ∀ file ∈ files, file.package = (files.head?.map (·.package)).getD "")
    (hpackage : (ofFiles p path files).resolve p = .ok package) :
    ∃ package', (ofFiles p' path files').resolve p' = .ok package' ∧
      package.Unplaces package'.unplaced := by
  have himports (q : String) :
      q ∈ (ofFiles p' path files').imports ↔ q ∈ (ofFiles p path files).imports := by
    rw [mem_imports_ofFiles, mem_imports_ofFiles]
    refine (hfiles.flatMap_perm fun file _ file' hreorders => ?_).mem_iff
    rw [hreorders.importPaths]
  have hnames (file : SourceFile) (hfile : file ∈ files) (spec : ImportSpec)
      (hspec : spec ∈ file.imports) : p'.packageName spec.path = p.packageName spec.path := by
    have hmem : spec.path ∈ (ofFiles p path files).imports :=
      mem_imports_ofFiles.2 (mem_flatMap.2 ⟨file, hfile, mem_map_of_mem hspec⟩)
    exact Program.packageName_moved (hpackages _ (hready.imports _ hmem))
  obtain ⟨S, hredeclared, -⟩ := resolveWithin_iff.1 hpackage
  obtain ⟨hredeclared', hunplaces⟩ := ofFiles_reordered hfiles hnames
    (redeclarations_eq_nil.1 hredeclared)
  refine resolveWithin_reordered hready hready' ⟨hunplaces, rfl, hpackages⟩ ?_ himports hredeclared'
    hpackage
  rw [name_ofFiles, name_ofFiles]
  exact Shuffled.head_package hfiles hagree

end Outline

end DeclBridge
