import DeclBridge.Proofs.DeclarationOrder
import DeclBridge.Proofs.Declarations
import DeclBridge.Proofs.ModuleNames

/-!
# Output apart from places

The output says nothing of places, and symbols are written in the order of their names.  So a
program whose packages are those of another with places moved, in any order, has the same output
(`Program.emit_moved`).

The two runs go through the same steps: `Emitting.Alike` says of two computations that they end with
the same result or the same fault, in states that have the same modules and references.  Warnings
may differ, which do have places.
-/

namespace DeclBridge

open Emitting StructShape List

variable {count limit : Nat} {options : Options} {others : List Selection} {packages : List Package}
  {primary : Selection} {α : Type} {m : Move} {p' : Program} {plan : Plan}

/-! ## Tables -/

namespace Table

variable {κ β : Type} [DecidableEq κ] {t : Table κ α} {t' : Table κ β}

theorem Distinct.values_eq (h : t.Distinct) : t.values = t.keys.filterMap t.get? := by
  have hsome : t.entries.filterMap (fun e => t.get? e.1) = t.entries.filterMap fun e => some e.2 :=
    filterMap_congr fun e he => h.get?_of_mem he
  rw [values, keys, filterMap_map]
  exact (hsome.trans (congrFun filterMap_eq_map t.entries)).symm

/-- Tables with related values under each key have related values, in some order. -/
theorem Distinct.shuffled_values {R : α → β → Prop} (h : t.Distinct) (h' : t'.Distinct)
    (hrel : ∀ k, Option.Rel R (t.get? k) (t'.get? k)) : Shuffled R t.values t'.values := by
  have hkeys : t'.keys.Perm t.keys := by
    refine (perm_ext_iff_of_nodup h' h).2 fun k => ?_
    rw [mem_keys_iff, mem_keys_iff, contains, contains]
    have hk := hrel k
    generalize t.get? k = found, t'.get? k = found' at hk
    cases hk <;> rfl
  rw [h.values_eq, h'.values_eq]
  refine ⟨t'.keys.filterMap t.get?, hkeys.filterMap _, ?_⟩
  generalize t'.keys = keys
  induction keys with
  | nil => exact .nil
  | cons k keys ih =>
    have hk := hrel k
    generalize hfound : t.get? k = found, hfound' : t'.get? k = found' at hk
    cases hk with
    | none => rwa [filterMap_cons_none hfound, filterMap_cons_none hfound']
    | some hab =>
      rw [filterMap_cons_some hfound, filterMap_cons_some hfound']
      exact .cons hab ih

end Table

/-! ## Symbols in order -/

/-- The symbols of a package are found under their names. -/
structure Package.Named (package : Package) : Prop where
  distinct : package.symbols.Distinct
  name : ∀ name s, package.symbols.get? name = some s → s.name = name

theorem Span.compareKeys_self (key : String × Int × Int) : compareKeys key key = .eq := by
  simp [compareKeys]

namespace Package

variable {package package' : Package}

theorem Named.get?_of_mem (h : package.Named) {s : Symbol} (hs : s ∈ package.symbols.values) :
    package.symbols.get? s.name = some s := by
  obtain ⟨⟨name, s⟩, he, rfl⟩ := mem_map.1 hs
  have hget := h.distinct.get?_of_mem he
  rw [h.name name s hget]
  exact hget

/-- The sorted symbols of a package are those of its sorted names. -/
theorem Named.sortedSymbols_eq (h : package.Named) : package.sortedSymbols =
    (package.symbols.keys.mergeSort fun a b => decide (a ≤ b)).filterMap package.symbols.get? := by
  -- the place of a symbol is looked at only where two have one name
  have hle (a : Symbol) (ha : a ∈ package.symbols.values) (b : Symbol)
      (hb : b ∈ package.symbols.values) : Symbol.le a b = decide (a.name ≤ b.name) := by
    rw [Bool.eq_iff_iff, Symbol.le, NameTable.then_ne_gt_iff, decide_eq_true_iff, le_iff_lt_or_eq]
    refine or_congr_right ⟨And.left, fun hname => ⟨hname, ?_⟩⟩
    have heq : some a = some b := by rw [← h.get?_of_mem ha, ← h.get?_of_mem hb, hname]
    cases heq
    rw [Span.compareKeys_self]
    rfl
  have hnames : package.symbols.values.map Symbol.name = package.symbols.keys := by
    rw [Table.values, Table.keys, map_map]
    exact map_congr_left fun e he => h.name e.1 e.2 (h.distinct.get?_of_mem he)
  have hsorted : package.sortedSymbols.map Symbol.name =
      package.symbols.keys.mergeSort fun a b => decide (a ≤ b) := by
    rw [sortedSymbols, Symbol.sort, map_mergeSort (s := fun a b => decide (a ≤ b)) hle, hnames]
  rw [← hsorted, filterMap_map]
  have hself : package.sortedSymbols.filterMap (package.symbols.get? ∘ Symbol.name) =
      package.sortedSymbols.filterMap some :=
    filterMap_congr fun s hs => h.get?_of_mem (mem_mergeSort.1 hs)
  rw [hself, filterMap_some]

theorem Moves.shuffled (h : package.Moves m package') (hnamed : package.Named)
    (hnamed' : package'.Named) :
    package'.symbols.values.Perm (package.symbols.values.map (Symbol.moved m)) := by
  have hrel (name : String) : Option.Rel (fun s s' => s' = s.moved m) (package.symbols.get? name)
      (package'.symbols.get? name) := by
    rw [h.symbols]
    cases package.symbols.get? name with
    | none => exact .none
    | some s => exact .some rfl
  have hperm := (hnamed.distinct.shuffled_values hnamed'.distinct hrel).map_perm
    (f := Symbol.moved m) (g := id) fun _ _ heq => heq
  rwa [map_id] at hperm

/-- The same symbols are written, in the same order. -/
theorem Moves.writable (h : package.Moves m package') (hnamed : package.Named)
    (hnamed' : package'.Named) : package'.writable = package.writable.map (Symbol.moved m) := by
  have hkeys : package'.symbols.keys.Perm package.symbols.keys := by
    refine (perm_ext_iff_of_nodup hnamed'.distinct hnamed.distinct).2 fun name => ?_
    rw [Table.mem_keys_iff, Table.mem_keys_iff, Table.contains, Table.contains, h.symbols,
      Option.isSome_map]
  have hsorted (names : List String) :
      (names.mergeSort fun a b => decide (a ≤ b)).Pairwise (· ≤ ·) := by
    have htrans (a b c : String) (hab : decide (a ≤ b) = true) (hbc : decide (b ≤ c) = true) :
        decide (a ≤ c) = true := by
      rw [decide_eq_true_iff] at hab hbc ⊢
      exact hab.trans hbc
    have htotal (a b : String) : (decide (a ≤ b) || decide (b ≤ a)) = true := by
      simpa using le_total a b
    simpa using pairwise_mergeSort htrans htotal names
  have hnames : (package'.symbols.keys.mergeSort fun a b => decide (a ≤ b)) =
      package.symbols.keys.mergeSort fun a b => decide (a ≤ b) := by
    have hperm := ((mergeSort_perm package'.symbols.keys fun a b => decide (a ≤ b)).trans
      hkeys).trans (mergeSort_perm package.symbols.keys fun a b => decide (a ≤ b)).symm
    exact hperm.eq_of_pairwise (fun a b _ _ hab hba => le_antisymm hab hba) (hsorted _) (hsorted _)
  have hwritable : Symbol.isWritable ∘ Symbol.moved m = Symbol.isWritable := by
    funext s
    obtain ⟨name, package, span, body⟩ := s
    cases body <;> rfl
  rw [Package.writable, Package.writable, hnamed.sortedSymbols_eq, hnamed'.sortedSymbols_eq, hnames,
    funext h.symbols, ← map_filterMap, filter_map, hwritable]

end Package

/-! ## Terms -/

namespace TermSet

theorem common_moved (a b : List Ty) :
    common (a.map (Ty.moved m)) (b.map (Ty.moved m)) = (common a b).map (Ty.moved m) := by
  have hsame : (fun t => (b.map (Ty.moved m)).any (t.same ·)) ∘ Ty.moved m =
      fun t => b.any (t.same ·) := by
    funext t
    simp [any_map, Function.comp_def]
  rw [common, common, filter_map, hsame]

theorem meet_moved (sets : List (Option (List Ty))) :
    meet (sets.map (Option.map (map (Ty.moved m)))) = (meet sets).map (map (Ty.moved m)) := by
  have hsets : (sets.map (Option.map (map (Ty.moved m)))).filterMap id =
      (sets.filterMap id).map (map (Ty.moved m)) := by
    rw [filterMap_map, map_filterMap]
    rfl
  rw [meet, meet, hsets]
  cases sets.filterMap id with
  | nil => rfl
  | cons first others =>
    rw [map_cons, Option.map_some]
    refine congrArg some ?_
    rw [foldl_map]
    exact foldl_hom (map (Ty.moved m)) fun a b => common_moved a b

theorem dedupe_moved (types : List Ty) :
    Ty.dedupe (types.map (Ty.moved m)) = (Ty.dedupe types).map (Ty.moved m) := by
  rw [Ty.dedupe, Ty.dedupe, foldl_map]
  show foldl _ (([] : List Ty).map (Ty.moved m)) types = _
  refine foldl_hom (map (Ty.moved m)) fun kept t => ?_
  have hany : (kept.map (Ty.moved m)).any ((t.moved m).same ·) = kept.any (t.same ·) := by
    simp [any_map, Function.comp_def]
  rw [hany, apply_ite (map (Ty.moved m)), map_append]
  rfl

theorem ofTy_moved {declared declared' : SymbolId → Ty → Option (List Ty)}
    (h : ∀ id t, declared' id (t.moved m) = (declared id t).map (map (Ty.moved m))) (t : Ty) :
    ofTy declared' (t.moved m) = (ofTy declared t).map (map (Ty.moved m)) := by
  induction t with
  | basic | param | pointer | array | slice | chan | func | map | struct => rfl
  | named id args ih =>
    have hmoved := h id (.named id args)
    rw [Ty.moved_named] at hmoved ⊢
    rw [ofTy, ofTy, hmoved]
    split
    · rfl
    · split
      · rfl
      · rw [Option.map_some, map_singleton, Ty.moved_named]
  | aliased id args ih =>
    have hmoved := h id (.aliased id args)
    rw [Ty.moved_aliased] at hmoved ⊢
    rw [ofTy, ofTy, hmoved]
    split
    · rfl
    · rw [Option.map_some, map_singleton, Ty.moved_aliased]
  | interface embeds methods ih =>
    rw [Ty.moved_interface, ofTy, ofTy, ofTys_eq, ofTys_eq, map_map, ← meet_moved, map_map]
    refine congrArg meet (map_congr_left fun t ht => ?_)
    exact ih t ht
  | union terms ih =>
    rw [Ty.moved_union, ofTy, ofTy, Option.map_some, ← dedupe_moved, map_map, map_map]
    rfl

theorem within_moved {info info' : SymbolId → TypeInfo} (h : ∀ id, info' id = (info id).moved m)
    (count : Nat) (seen : List SymbolId) (t : Ty) : within info' count seen (t.moved m) =
      (within info count seen t).map (map (Ty.moved m)) := by
  induction count generalizing seen t with
  | zero => rfl
  | succ count ih =>
    rw [within, within]
    refine ofTy_moved (fun id reference => ?_) t
    rw [h, TypeInfo.moved]
    cases hunderlying : (info id).underlying with
    | none => rfl
    | some u =>
      cases u with
      | interface embeds methods =>
        have hmoved := ih (id :: seen) (.interface embeds methods)
        rw [Ty.moved_interface] at hmoved
        simp only [Option.map_some, Ty.moved_interface]
        split
        · rfl
        · exact hmoved
      | _ => rfl

end TermSet

/-! ## Shapes of structs -/

namespace StructShape

variable {β γ : Type} {info info' : SymbolId → TypeInfo} {includeUnexported : Bool}

/-- A shape with other types. -/
def map (g : β → γ) (shape : StructShape β) : StructShape γ :=
  ⟨shape.properties.map fun p => ⟨p.name, p.optional, g p.type⟩, shape.embeds.map g⟩

theorem add_map (g : β → γ) (shape : StructShape β) (appearing : Option Tag.OutputName) (b : β) :
    (shape.map g).add appearing (g b) = (shape.add appearing b).map g := by
  cases appearing with
  | none => rfl
  | some name =>
    rw [add, add]
    split <;> simp [map]

/-- The shape of a struct does not depend on what becomes of the types. -/
theorem ofFields_map (g : β → γ) (fields : List (Field Ty × β)) :
    ofFields info includeUnexported (fields.map fun f => (f.1, g f.2)) =
      (ofFields info includeUnexported fields).map (map g) := by
  suffices h : ∀ shape : StructShape β,
      (fields.map fun f => (f.1, g f.2)).foldlM (addField info includeUnexported) (shape.map g) =
        (fields.foldlM (addField info includeUnexported) shape).map (map g) from h {}
  induction fields with
  | nil => exact fun shape => rfl
  | cons f fields ih =>
    intro shape
    rw [map_cons, foldlM_cons, foldlM_cons, addField, addField]
    cases appearance info includeUnexported f.1 with
    | error why => rfl
    | ok appearing =>
      have hrest := ih (shape.add appearing f.2)
      rw [← add_map] at hrest
      exact hrest

theorem ofFields_eq_map (g : Ty → γ) (fields : List (Field Ty)) :
    ofFields info includeUnexported (fields.map fun f => (f, g f.type)) =
      (ofStruct info includeUnexported fields).map (map g) := by
  rw [ofStruct, ← ofFields_map, map_map]
  rfl

section

variable (h : ∀ id, info' id = (info id).moved m)

include h

theorem isStruct_moved (t : Ty) : isStruct info' (t.moved m) = isStruct info t := by
  cases t with
  | named id args | aliased id args =>
    simp only [Ty.moved_named, Ty.moved_aliased, isStruct, h, TypeInfo.isStub_moved]
    cases hunderlying : (info id).underlying with
    | none => simp [TypeInfo.moved, hunderlying]
    | some u =>
      simp only [TypeInfo.moved, hunderlying, Option.map_some]
      cases u <;> rfl
  | _ => rfl

theorem isStructLike_moved (t : Ty) : isStructLike info' (t.moved m) = isStructLike info t := by
  have hstruct := isStruct_moved h t
  cases t with
  | pointer elem => exact isStruct_moved h elem
  | _ => exact hstruct

theorem appearance_moved (f : Field Ty) : appearance info' includeUnexported (Ty.movedField m f) =
      appearance info includeUnexported f := by
  rw [Ty.movedField, appearance, appearance, declaredName, declaredName]
  simp only [isStructLike_moved h]

theorem ofStruct_moved (fields : List (Field Ty)) :
    ofStruct info' includeUnexported (fields.map (Ty.movedField m)) =
      (ofStruct info includeUnexported fields).map (map (Ty.moved m)) := by
  rw [ofStruct, ofStruct, ← ofFields_map, ofFields, ofFields, map_map, map_map,
    foldlM_map, foldlM_map]
  congr 1
  funext shape f
  rw [addField, addField, Function.comp, Function.comp, appearance_moved h, Ty.movedField]

end

end StructShape

/-! ## Programs -/

/-- A program that has each package once, whose symbols are found under their names. -/
structure Program.Named (p : Program) : Prop where
  distinct : p.packages.Distinct
  packages : ∀ path package, p.packages.get? path = some package → package.Named

/-- `p'` has the packages of `p` with places moved, in any order, and misses the same ones. -/
structure Program.Moves (m : Move) (p p' : Program) : Prop where
  named : p.Named
  named' : p'.Named
  packages : ∀ path, Option.Rel (Package.Moves m) (p.packages.get? path) (p'.packages.get? path)
  failures : ∀ path, p'.failures.get? path = p.failures.get? path

namespace Program.Moves

variable {p : Program}

theorem typeInfo (h : p.Moves m p') (id : SymbolId) : p'.typeInfo id = (p.typeInfo id).moved m :=
  typeInfo_moved fun path _ => h.packages path

theorem symbols_perm (h : p.Moves m p') : p'.symbols.Perm (p.symbols.map (Symbol.moved m)) := by
  have hrel (path : String) : Option.Rel
      (fun package package' => package'.symbols.values.Perm
        (package.symbols.values.map (Symbol.moved m)))
      (p.packages.get? path) (p'.packages.get? path) := by
    have hpackages := h.packages path
    generalize hfound : p.packages.get? path = found, hfound' : p'.packages.get? path = found'
      at hpackages
    cases hpackages with
    | none => exact .none
    | some hmoves =>
      exact .some (hmoves.shuffled (h.named.packages _ _ hfound) (h.named'.packages _ _ hfound'))
  rw [symbols, symbols, map_flatMap]
  exact (h.named.distinct.shuffled_values h.named'.distinct hrel).flatMap_perm
    fun package _ package' hperm => hperm

theorem symbolCount (h : p.Moves m p') : p'.symbolCount = p.symbolCount := by
  rw [Program.symbolCount, Program.symbolCount, h.symbols_perm.length_eq, length_map]

theorem length_typeParts (h : p.Moves m p') : p'.typeParts.length = p.typeParts.length := by
  have htypes (s : Symbol) : (s.moved m).types = s.types.map (Ty.moved m) := by
    obtain ⟨name, package, span, body⟩ := s
    cases body with
    | const value type => cases type <;> rfl
    | type info =>
      have hoption (t : Option Ty) : (t.map (Ty.moved m)).toList = t.toList.map (Ty.moved m) := by
        cases t <;> rfl
      simp only [Symbol.types, Symbol.moved, SymbolBody.moved, TypeInfo.moved, hoption,
        map_append, filterMap_map, map_filterMap]
      rfl
  have hparts : ((p.symbols.map (Symbol.moved m)).flatMap Symbol.types).flatMap Ty.parts =
      p.typeParts.map (Ty.moved m) := by
    rw [typeParts, List.flatMap_map, funext htypes, ← List.map_flatMap, List.flatMap_map,
      List.map_flatMap]
    simp only [Ty.parts_moved]
  rw [typeParts, ((h.symbols_perm.flatMap_right _).flatMap_right _).length_eq, hparts,
    List.length_map]

theorem termSet (h : p.Moves m p') (t : Ty) :
    p'.termSet (t.moved m) = (p.termSet t).map (List.map (Ty.moved m)) := by
  rw [Program.termSet, Program.termSet, h.symbolCount]
  exact TermSet.within_moved h.typeInfo _ _ t

theorem sameImports (h : p.Moves m p') : p.SameImports p' := by
  refine ⟨fun path => ?_, fun path import' => ?_⟩
  · have hpackages := h.packages path
    rw [packageName, packageName]
    generalize p.packages.get? path = found, p'.packages.get? path = found' at hpackages
    cases hpackages with
    | none => rfl
    | some hmoves => exact hmoves.name
  · have hpackages := h.packages path
    rw [importsOf, importsOf]
    generalize p.packages.get? path = found, p'.packages.get? path = found' at hpackages
    cases hpackages with
    | none => exact Iff.rfl
    | some hmoves => exact hmoves.imports import'

/-- A package is there in both programs or in neither. -/
theorem package (h : p.Moves m p') (path : String) :
    (∃ package package', p.package path = .ok package ∧ p'.package path = .ok package' ∧
      package.Moves m package' ∧ package.Named ∧ package'.Named) ∨
    ∃ why, p.package path = .error why ∧ p'.package path = .error why := by
  have hpackages := h.packages path
  rw [Program.package, Program.package, h.failures]
  generalize hfound : p.packages.get? path = found, hfound' : p'.packages.get? path = found'
    at hpackages
  cases hpackages with
  | none =>
    cases p.failures.get? path with
    | none => exact .inr ⟨_, rfl, rfl⟩
    | some why => exact .inr ⟨why, rfl, rfl⟩
  | some hmoves =>
    exact .inl ⟨_, _, rfl, rfl, hmoves, h.named.packages _ _ hfound, h.named'.packages _ _ hfound'⟩

end Program.Moves

/-! ## Runs -/

namespace Emitting

/-- Two computations end with the same result or the same fault, in states with the same output. -/
abbrev Alike {α : Type} (x x' : Emitting α) : Prop :=
  Parallel Emission.SameOutput (fun f f' => f' = f) id x x'

section

theorem Alike.mapM {ι ι' : Type} {w : ι → ι'} {l : List ι} {f : ι → Emitting α}
    {f' : ι' → Emitting α} (h : ∀ i ∈ l, Alike (f i) (f' (w i))) :
    Alike (l.mapM f) ((l.map w).mapM f') := by
  have hmap := Parallel.mapM h
  rwa [List.map_id_fun] at hmap

theorem lift_alike (r : Except Fault α) : Alike (lift r) (lift r) :=
  .result (fun _ h => h) fun f h => ⟨f, h, rfl⟩

theorem modifyGraph_alike (f : ModuleGraph → ModuleGraph) : Alike (modifyGraph f) (modifyGraph f) :=
  .update fun _ _ h => ⟨congrArg f h.1, h.2⟩

theorem warn_alike (line code message line' code' message' : String) (span span' : Span) :
    Alike (warn line code message span) (warn line' code' message' span') :=
  .update fun _ _ h => h

theorem noteReference_alike (r : Reference) : Alike (noteReference r) (noteReference r) :=
  .update fun _ _ h => ⟨h.1, congrArg (· ++ [r]) h.2⟩

theorem isTaken_alike (module name : String) :
    Alike (isTaken module name) (isTaken module name) := by
  refine .get_bind fun e e' h => ?_
  rw [h.1]
  exact .ok h

theorem setDefinition_alike (module name : String) (text : Text) :
    Alike (setDefinition module name text) (setDefinition module name text) := by
  refine .get_bind fun e e' h => ?_
  rw [h.1]
  cases e.graph.modules.get? module with
  | none => exact .ok h
  | some m =>
    exact ((lift_alike (m.define name text)).bind fun _ => modifyGraph_alike _) e e' h

end

/-! ### Types -/

section Types

variable (hmoves : plan.program.Moves m p')
  {refer refer' : (path name : String) → Emitting Text} {expand expand' : Ty → Emitting Text}
  {render render' : Ty → Emitting Text}

theorem objectText_map (render : Ty → Emitting Text) (shape : StructShape Ty) :
    objectText (shape.map render) = do
      let properties ← shape.properties.mapM fun p => do
        return (⟨p.name, p.optional, ← render p.type⟩ : Property Text)
      let embeds ← shape.embeds.mapM render
      return TypeText.object ⟨properties, embeds⟩ := by
  rw [objectText, StructShape.map, mapM_map, mapM_map]
  rfl

theorem objectText_alike {shape : StructShape Ty}
    (h : ∀ t ∈ shape.types, Alike (render t) (render' (t.moved m))) :
    Alike (objectText (shape.map render)) (objectText ((shape.map (Ty.moved m)).map render')) := by
  have hproperties (p : Property Ty) (hp : p ∈ shape.properties) :
      Alike (render p.type) (render' (p.type.moved m)) :=
    h p.type (List.mem_append_left _ (List.mem_map_of_mem hp))
  have hembeds (t : Ty) (ht : t ∈ shape.embeds) : Alike (render t) (render' (t.moved m)) :=
    h t (List.mem_append_right _ ht)
  rw [objectText_map, objectText_map]
  refine .bind (Alike.mapM fun p hp => ?_) fun _ => ?_
  · exact (hproperties p hp).bind fun _ => .pure rfl
  · exact (Alike.mapM hembeds).bind fun _ => .pure rfl

include hmoves in
theorem shapeText_alike {fields : List (Field Ty)} {f f' : StructShape (Emitting Text) → Emitting α}
    (h : ∀ shape, ofStruct plan.program.typeInfo plan.options.includeUnexported fields =
      .ok shape → Alike (f (shape.map render)) (f' ((shape.map (Ty.moved m)).map render'))) : Alike
      (lift (ofFields plan.program.typeInfo plan.options.includeUnexported
        (fields.map fun f => (f, render f.type))) >>= f)
      (lift (ofFields p'.typeInfo plan.options.includeUnexported
        ((fields.map (Ty.movedField m)).map fun f => (f, render' f.type))) >>= f') := by
  rw [ofFields_eq_map, ofFields_eq_map,
    ofStruct_moved hmoves.typeInfo]
  cases hshape : ofStruct plan.program.typeInfo plan.options.includeUnexported fields with
  | error why => exact fun _ _ _ => .error rfl
  | ok shape => exact h shape hshape

include hmoves in
/-- The text of a type does not depend on where its parts are declared. -/
theorem typeText_alike (hrefer : ∀ path name, Alike (refer path name) (refer' path name))
    (hexpand : ∀ t, Alike (expand t) (expand' (t.moved m))) (t : Ty) :
    Alike (typeText plan refer expand t)
      (typeText { plan with program := p' } refer' expand' (t.moved m)) := by
  have hreference (id : SymbolId) {args : List Ty}
      (ih : ∀ t ∈ args, Alike (typeText plan refer expand t)
        (typeText { plan with program := p' } refer' expand' (t.moved m))) :
      Alike (referenceText plan refer id (typeTexts plan refer expand args))
        (referenceText { plan with program := p' } refer' id
          (typeTexts { plan with program := p' } refer' expand' (args.map (Ty.moved m)))) := by
    rw [referenceText, referenceText, typeTexts_eq, typeTexts_eq]
    cases id.package with
    | none => exact .pure rfl
    | some path =>
      exact (hrefer path id.name).bind fun _ => (Alike.mapM ih).bind fun _ => .pure rfl
  induction t with
  | basic | param | chan | func => exact .pure rfl
  | pointer elem ih | array elem length ih | slice elem ih | map key elem _ ih =>
    exact ih.bind fun _ => .pure rfl
  | struct fields ih =>
    rw [Ty.moved_struct, typeText, typeText, fieldTexts_eq, fieldTexts_eq]
    refine shapeText_alike hmoves fun shape hshape => objectText_alike fun t ht => ?_
    obtain ⟨f, hf, -⟩ := (mem_types_ofFields hshape).1 ht
    obtain ⟨g, hg, heq⟩ := List.mem_map.1 hf
    obtain ⟨rfl, rfl⟩ := Prod.mk.inj heq
    exact ih g hg
  | named id args ih =>
    rw [Ty.moved_named]
    exact hreference id ih
  | aliased id args ih =>
    rw [Ty.moved_aliased]
    exact hreference id ih
  | interface embeds methods =>
    have hterms : (p'.termSet (.interface (embeds.map (Ty.moved m)) methods)).getD [] =
        ((plan.program.termSet (.interface embeds methods)).getD []).map (Ty.moved m) := by
      have htermSet := hmoves.termSet (.interface embeds methods)
      rw [Ty.moved_interface] at htermSet
      rw [htermSet]
      cases plan.program.termSet (.interface embeds methods) <;> rfl
    rw [typeText, Ty.moved_interface, typeText, hterms]
    exact (Alike.mapM fun t _ => hexpand t).bind fun _ => .pure rfl
  | union terms ih =>
    rw [Ty.moved_union, typeText, typeText, termTexts_eq, termTexts_eq]
    refine (Alike.mapM fun t ht => ?_).bind fun _ => .pure rfl
    exact ih t ht

include hmoves in
theorem expandedText_alike (hrefer : ∀ path name, Alike (refer path name) (refer' path name))
    (count : Nat) (t : Ty) : Alike (expandedText plan refer count t)
      (expandedText { plan with program := p' } refer' count (t.moved m)) := by
  induction count generalizing t with
  | zero => exact .throw rfl
  | succ count ih => exact typeText_alike hmoves hrefer ih t

/-! ### Definitions -/

section

variable (h : ∀ t, Alike (render t) (render' (t.moved m)))

include h

theorem presentText_alike (type : Option Ty) :
    Alike (presentText render type) (presentText render' (type.map (Ty.moved m))) := by
  cases type with
  | none => exact .throw rfl
  | some t => exact h t

theorem paramsText_alike (params : List TypeParam) : Alike (paramsText plan render params)
      (paramsText { plan with program := p' } render' (params.map (TypeParam.moved m))) := by
  refine (Alike.mapM fun p _ => ?_).bind fun _ => .pure rfl
  obtain ⟨name, index, constraint⟩ := p
  cases constraint with
  | none => exact .pure rfl
  | some t => exact (h t).bind fun _ => .pure rfl

theorem constText_alike (s : Symbol) (value : Constant) (type : Option Ty) :
    Alike (constText render s value type)
      (constText render' (s.moved m) value (type.map (Ty.moved m))) := by
  refine (lift_alike value.literal?).bind fun literal => ?_
  cases literal with
  | none =>
    refine (lift_alike value.cited).bind fun cited => ?_
    exact (warn_alike _ _ _ _ _ _ _ _).bind fun _ => .pure rfl
  | some literal =>
    cases type with
    | none => exact .pure rfl
    | some t =>
      cases t with
      | named id args => exact (h (.named id args)).bind fun _ => .pure rfl
      | _ => exact .pure rfl

end

include hmoves in
theorem structText_alike (h : ∀ t, Alike (render t) (render' (t.moved m))) (head : Text)
    (fields : List (Field Ty)) : Alike (structText plan render head fields)
      (structText { plan with program := p' } render' head (fields.map (Ty.movedField m))) := by
  refine shapeText_alike hmoves fun shape _ => ?_
  refine (objectText_alike fun t _ => h t).bind fun body => .pure ?_
  simp [StructShape.map]

include hmoves in
theorem typeDefinition_alike (h : ∀ t, Alike (render t) (render' (t.moved m))) (s : Symbol)
    (info : TypeInfo) : Alike (typeDefinition plan render s info)
      (typeDefinition { plan with program := p' } render' (s.moved m) (info.moved m)) := by
  refine (paramsText_alike h info.params).bind fun bracketed => ?_
  have hoverride : ({ plan with program := p' } : Plan).override?
      (({ plan with program := p' } : Plan).overrideName (s.moved m).id) =
      plan.override? (plan.overrideName s.id) := rfl
  rw [hoverride]
  cases plan.override? (plan.overrideName s.id) with
  | some text => exact .pure rfl
  | none =>
    obtain ⟨underlying, params, isAlias, rhs⟩ := info
    cases isAlias with
    | true => exact (presentText_alike h rhs).bind fun _ => .pure rfl
    | false =>
      have hpresent := presentText_alike h underlying
      cases underlying with
      | none => exact hpresent.bind fun _ => .pure rfl
      | some t =>
        cases t with
        | struct fields =>
          have hstruct := structText_alike hmoves h (s.name ++ bracketed) fields
          simp only [TypeInfo.moved, Option.map_some, Ty.moved_struct]
          exact hstruct
        | _ => exact hpresent.bind fun _ => .pure rfl

include hmoves in
theorem symbolText_alike (h : ∀ t, Alike (render t) (render' (t.moved m))) (s : Symbol) :
    Alike (symbolText plan render s)
      (symbolText { plan with program := p' } render' (s.moved m)) := by
  obtain ⟨name, package, span, body⟩ := s
  cases body with
  | const value type =>
    cases value with
    | none => exact .pure rfl
    | some value => exact constText_alike h ⟨name, package, span, _⟩ value type
  | type info =>
    exact (typeDefinition_alike hmoves h ⟨name, package, span, _⟩ info).bind fun _ =>
      Parallel.pure rfl

end Types

/-! ### Symbols -/

section Symbols

variable (hmoves : plan.program.Moves m p') {make make' : Symbol → String → Emitting Unit}

theorem moduleFor_alike (path : String) :
    Alike (moduleFor plan path) (moduleFor { plan with program := p' } path) :=
  (lift_alike (plan.names.nameOf path)).bind fun _ =>
    (modifyGraph_alike _).bind fun _ => .pure rfl

theorem defineUnknown_alike (id : SymbolId) (path owner : String) (why : Option LoadError) :
    Alike (defineUnknown plan id path owner why)
      (defineUnknown { plan with program := p' } id path owner why) := by
  have hoverride : ({ plan with program := p' } : Plan).override?
      (({ plan with program := p' } : Plan).overrideName id) =
      plan.override? (plan.overrideName id) := rfl
  rw [defineUnknown, defineUnknown, hoverride]
  cases plan.override? (plan.overrideName id) with
  | some text => exact setDefinition_alike _ _ _
  | none =>
    refine (setDefinition_alike _ _ _).bind fun _ => (lift_alike _).bind fun reason => ?_
    exact warn_alike _ _ _ _ _ _ _ _

include hmoves in
theorem includeType_alike (h : ∀ s owner, Alike (make s owner) (make' (s.moved m) owner))
    (id : SymbolId) (path owner : String) : Alike (includeType plan make id path owner)
      (includeType { plan with program := p' } make' id path owner) := by
  rw [includeType, includeType]
  obtain ⟨package, package', hpackage, hpackage', hmoved, hnamed, hnamed'⟩ | ⟨why, hwhy, hwhy'⟩ :=
    hmoves.package path
  · have hcomes : comesWith { plan with program := p' } id ∘ Symbol.moved m = comesWith plan id := by
      funext s
      obtain ⟨name, package, span, body⟩ := s
      cases body with
      | type info => rfl
      | const value type =>
        cases type with
        | none => rfl
        | some t => cases t <;> rfl
    simp only [hpackage, hpackage']
    rw [hmoved.writable hnamed hnamed', filter_map, hcomes]
    refine (Parallel.forM fun s _ => h s owner).bind fun _ => ?_
    refine (isTaken_alike owner id.name).bind fun taken => ?_
    cases taken with
    | true => exact .pure rfl
    | false => exact defineUnknown_alike id path owner none
  · simp only [hwhy, hwhy']
    exact defineUnknown_alike id path owner (some why)

include hmoves in
theorem ensureType_alike (h : ∀ s owner, Alike (make s owner) (make' (s.moved m) owner))
    (path name owner : String) : Alike (ensureType plan make path name owner)
      (ensureType { plan with program := p' } make' path name owner) := by
  refine (isTaken_alike owner name).bind fun taken => ?_
  cases taken with
  | true => exact .pure rfl
  | false => exact includeType_alike hmoves h ⟨some path, name⟩ path owner

include hmoves in
theorem refer_alike (h : ∀ s owner, Alike (make s owner) (make' (s.moved m) owner))
    (module definition path name : String) : Alike (refer plan make module definition path name)
      (refer { plan with program := p' } make' module definition path name) := by
  refine (moduleFor_alike path).bind fun owner => (modifyGraph_alike _).bind fun _ => ?_
  refine (ensureType_alike hmoves h path name owner).bind fun _ => ?_
  exact (noteReference_alike _).bind fun _ => .pure rfl

include hmoves in
theorem define_alike (limit count : Nat) (s : Symbol) (module : String) :
    Alike (define plan limit count s module)
      (define { plan with program := p' } limit count (s.moved m) module) := by
  induction count generalizing s module with
  | zero => exact .throw rfl
  | succ count ih =>
    rw [define, define]
    refine (isTaken_alike module s.name).bind fun taken => ?_
    cases taken with
    | true => exact .pure rfl
    | false =>
      refine (modifyGraph_alike _).bind fun _ => ?_
      have hrender := expandedText_alike hmoves
        (refer_alike hmoves (fun s owner => ih s owner) module s.name) limit
      refine (symbolText_alike hmoves hrender s).bind fun text => ?_
      cases text with
      | some text => exact setDefinition_alike _ _ _
      | none => exact modifyGraph_alike _

include hmoves in
theorem definePackage_alike {package package' : Package} (limit count : Nat) (selection : Selection)
    (hmoved : package.Moves m package') (hnamed : package.Named) (hnamed' : package'.Named) :
    Alike (definePackage plan limit count selection package)
      (definePackage { plan with program := p' } limit count selection package') := by
  rw [definePackage, definePackage, hmoved.path, hmoved.writable hnamed hnamed', filter_map]
  refine (moduleFor_alike package.path).bind fun module => ?_
  exact .forM fun s _ => define_alike hmoves limit count s module

include hmoves in
theorem defineRequested_alike (limit count : Nat) (requested : List Selection)
    {packages' : List Package} (hpackages : List.Forall₂ (fun package package' =>
      package.Moves m package' ∧ package.Named ∧ package'.Named) packages packages') :
    Alike (defineRequested plan limit count (requested.zip packages))
      (defineRequested { plan with program := p' } limit count (requested.zip packages')) := by
  refine (moduleFor_alike plan.primary).bind fun _ => ?_
  induction hpackages generalizing requested with
  | nil =>
    rw [zip_nil_right]
    exact .pure rfl
  | @cons package package' packages packages' hpackage _ ih =>
    cases requested with
    | nil => exact .pure rfl
    | cons selection requested =>
      obtain ⟨hmoved, hnamed, hnamed'⟩ := hpackage
      exact (definePackage_alike hmoves limit count selection hmoved hnamed hnamed').bind fun _ =>
        ih requested

end Symbols

end Emitting

/-! ## The output -/

namespace Program

variable {p : Program}

/-- The requested packages are there with places moved, or the same one is missing. -/
theorem Moves.mapM_package (h : p.Moves m p') (requested : List Selection) :
    (∃ packages packages', (requested.mapM fun s => p.package s.path) = .ok packages ∧
      (requested.mapM fun s => p'.package s.path) = .ok packages' ∧
      List.Forall₂ (fun package package' =>
        package.Moves m package' ∧ package.Named ∧ package'.Named) packages packages') ∨
    ∃ why, (requested.mapM fun s => p.package s.path) = .error why ∧
      (requested.mapM fun s => p'.package s.path) = .error why := by
  induction requested with
  | nil => exact .inl ⟨[], [], rfl, rfl, .nil⟩
  | cons s requested ih =>
    rw [mapM_cons, mapM_cons]
    obtain ⟨package, package', hpackage, hpackage', hmoved⟩ | ⟨why, hwhy, hwhy'⟩ := h.package s.path
    · rw [hpackage, hpackage']
      obtain ⟨packages, packages', hrest, hrest', hall⟩ | ⟨why, hwhy, hwhy'⟩ := ih
      · rw [hrest, hrest']
        exact .inl ⟨_, _, rfl, rfl, .cons hmoved hall⟩
      · rw [hwhy, hwhy']
        exact .inr ⟨why, rfl, rfl⟩
    · rw [hwhy, hwhy']
      exact .inr ⟨why, rfl, rfl⟩

theorem Moves.ofRequest (h : p.Moves m p') (primary : Selection) (others : List Selection)
    (options : Options) : Plan.ofRequest p' primary others options =
      { Plan.ofRequest p primary others options with program := p' } := by
  rw [Plan.ofRequest, Plan.ofRequest, NameTable.build_congr h.sameImports fun _ => Iff.rfl]

theorem graph_emitWithin (h : ((primary :: others).mapM fun s => p.package s.path) = .ok packages) :
    (p.emitWithin limit count primary others options).map (·.graph) =
      let plan := Plan.ofRequest p primary others options
      match (defineRequested plan limit count
        ((primary :: others).zip packages)).run.run plan.start with
      | (.error why, _) => .error (.fault why)
      | (.ok _, e) => .ok e.graph := by
  rw [emitWithin, h]
  generalize Plan.ofRequest p primary others options = plan
  show Except.map _ (match (defineRequested plan limit count
    ((primary :: others).zip packages)).run.run plan.start with
    | (.error why, _) => .error (LoadFailure.fault why)
    | (.ok _, e) => .ok (Run.ofEmission plan e)) = _
  dsimp only
  generalize (defineRequested plan limit count
    ((primary :: others).zip packages)).run.run plan.start = r
  obtain ⟨why | ⟨⟩, e⟩ := r <;> rfl

theorem emitWithin_of_missing {why : LoadError}
    (h : ((primary :: others).mapM fun s => p.package s.path) = .error why) :
    p.emitWithin limit count primary others options = .error (.error why) := by
  rw [emitWithin, h]
  rfl

/-- A program with places moved has the same output. -/
theorem emit_moved (h : p.Moves m p') (primary : Selection) (others : List Selection)
    (options : Options) : (p'.emit primary others options).map (·.graph) =
      (p.emit primary others options).map (·.graph) := by
  rw [emit, emit, h.length_typeParts, h.symbolCount]
  generalize p.typeParts.length = limit, p.symbolCount + 2 = count
  obtain ⟨packages, packages', hpackages, hpackages', hall⟩ | ⟨why, hwhy, hwhy'⟩ :=
    h.mapM_package (primary :: others)
  · rw [graph_emitWithin hpackages, graph_emitWithin hpackages', h.ofRequest]
    have hprogram : (Plan.ofRequest p primary others options).program.Moves m p' := h
    generalize Plan.ofRequest p primary others options = plan at hprogram
    have hends := defineRequested_alike hprogram limit count (primary :: others) hall
      plan.start ({ plan with program := p' } : Plan).start ⟨rfl, rfl⟩
    dsimp only
    generalize (defineRequested plan limit count _).run.run plan.start = r,
      (defineRequested { plan with program := p' } limit count _).run.run _ = r' at hends
    cases hends with
    | ok hsame => exact congrArg Except.ok hsame.1
    | error hfault => rw [hfault]
  · rw [emitWithin_of_missing hwhy, emitWithin_of_missing hwhy']

/-- Two programs are the same apart from places and order, and miss the same packages. -/
structure Resembles (p p' : Program) : Prop where
  packages : ∀ path, Option.Rel Package.Resembles (p.packages.get? path) (p'.packages.get? path)
  failures : ∀ path, p'.failures.get? path = p.failures.get? path

theorem Named.moved (h : p.Named) : (p.moved m).Named where
  distinct := by
    rw [Table.Distinct, Program.moved, Table.keys_mapValues]
    exact h.distinct
  packages path package' hpackage' := by
    rw [get?_moved, Option.map_eq_some_iff] at hpackage'
    obtain ⟨package, hpackage, rfl⟩ := hpackage'
    have hnamed := h.packages path package hpackage
    refine ⟨?_, fun name s' hs' => ?_⟩
    · rw [Table.Distinct, Package.moved, Table.keys_mapValues]
      exact hnamed.distinct
    · rw [Package.moved, Table.get?_mapValues, Option.map_eq_some_iff] at hs'
      obtain ⟨s, hs, rfl⟩ := hs'
      exact hnamed.name name s hs

/-- Programs that are the same apart from places have the same output. -/
theorem Resembles.emit (h : p.Resembles p') (hnamed : p.Named) (hnamed' : p'.Named)
    (primary : Selection) (others : List Selection) (options : Options) :
    (p'.emit primary others options).map (·.graph) =
      (p.emit primary others options).map (·.graph) := by
  have hthere : p.Moves .forget p'.unplaced := by
    refine ⟨hnamed, hnamed'.moved, fun path => ?_, h.failures⟩
    have hpackages := h.packages path
    rw [get?_moved]
    generalize p.packages.get? path = found, p'.packages.get? path = found' at hpackages
    cases hpackages with
    | none => exact .none
    | some hresembles => exact .some hresembles
  have hback : p'.Moves .forget p'.unplaced :=
    ⟨hnamed', hnamed'.moved, p'.moves_moved, fun _ => rfl⟩
  rw [← emit_moved hthere, ← emit_moved hback]

end Program

end DeclBridge
