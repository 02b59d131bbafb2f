import DeclBridge.Proofs.DeclarationOrder

/-!
# Files with their declarations in another order

A file as it is written is a list of declarations.  Whether one of them is refused, and what it
declares otherwise, does not depend on its place.  So a text with the same declarations in another
order is read as a file that declares the same (`SourceFile.parse_reordered`), as long as its
imports stand in the same order: of two imports under one name the last one counts.
-/

namespace DeclBridge

open Declaration

variable {file : SourceFile} {path : Option String} {source source' : String}
    {parts : List FilePart} {text : FileText}

def ImportLine.unplaced (line : ImportLine) : ImportLine := { line with pos := .start }

namespace Declaration

def unplaced : Declaration → Declaration
  | imports lines => imports (lines.map ImportLine.unplaced)
  | consts lines => consts (lines.map ConstLine.unplaced)
  | types specs => types (specs.map TypeSpec.unplaced)

def importLines : Declaration → List ImportLine
  | imports lines => lines
  | consts _ | types _ => []

end Declaration

/-- The same declarations in any order, with the imports in the same order. -/
structure FileText.Reorders (text text' : FileText) : Prop where
  package : text'.package = text.package
  imports : (text'.declarations.flatMap importLines).map ImportLine.unplaced =
    (text.declarations.flatMap importLines).map ImportLine.unplaced
  declarations : (text'.declarations.map unplaced).Perm
    (text.declarations.map unplaced)

theorem ImportLine.spec_alike (line : ImportLine) :
    ResultsAlike Refusal.Alike ImportSpec.unplaced line.spec line.unplaced.spec :=
  line.path.stringValue_alike.bind fun path =>
    .ok (ImportSpec.mk line.pos path line.localName)

/-! ## What a declaration adds -/

/-- What a declaration adds to a file. -/
structure FilePart where
  imports : List ImportSpec := []
  consts : List ConstSpec := []
  types : List TypeSpec := []

namespace FilePart

def unplaced (part : FilePart) : FilePart :=
  ⟨part.imports.map ImportSpec.unplaced, part.consts.map ConstSpec.unplaced,
    part.types.map TypeSpec.unplaced⟩

end FilePart

namespace Declaration

/-- What a declaration adds, unless it is refused. -/
def part : Declaration → Except Refusal FilePart
  | imports lines => (lines.mapM ImportLine.spec).map ({ imports := · })
  | consts lines => (ConstLine.expandFrom 0 none lines).map ({ consts := · })
  | types specs => (specs.forM TypeSpec.check).map fun _ => { types := specs }

theorem part_alike (d : Declaration) :
    ResultsAlike Refusal.Alike FilePart.unplaced d.part d.unplaced.part := by
  cases d with
  | imports lines => exact (ResultsAlike.mapM fun line _ => line.spec_alike).map fun _ => rfl
  | consts lines => exact (ConstLine.expandFrom_alike 0 none lines).map fun _ => rfl
  | types specs => exact (ResultsAlike.forM fun spec _ => spec.check_alike).map fun _ => rfl

end Declaration

theorem SourceFile.add_eq (file : SourceFile) (d : Declaration) : file.add d = d.part.map fun part =>
    { file with
      imports := file.imports ++ part.imports
      consts := file.consts ++ part.consts
      types := file.types ++ part.types } := by
  cases d with
  | imports lines =>
    rw [add, part]
    cases lines.mapM ImportLine.spec with
    | error e => rfl
    | ok specs => simp [Except.map, bind, Except.bind, pure, Except.pure]
  | consts lines =>
    rw [add, part]
    cases ConstLine.expandFrom 0 none lines with
    | error e => rfl
    | ok specs => simp [Except.map, bind, Except.bind, pure, Except.pure]
  | types specs =>
    rw [add, part]
    cases specs.forM TypeSpec.check with
    | error e => rfl
    | ok _ => simp [Except.map, bind, Except.bind, pure, Except.pure]

/-- A file declares what its declarations add, one after another. -/
theorem FileText.declared_eq (text : FileText) (path : Option String) : text.declared path =
    (text.declarations.mapM part).map fun parts =>
      ⟨text.package, parts.flatMap (·.imports), parts.flatMap (·.consts), parts.flatMap (·.types),
        path⟩ := by
  suffices h : ∀ (ds : List Declaration) (start : SourceFile),
      ds.foldlM SourceFile.add start = (ds.mapM part).map fun parts =>
        { start with
          imports := start.imports ++ parts.flatMap (·.imports)
          consts := start.consts ++ parts.flatMap (·.consts)
          types := start.types ++ parts.flatMap (·.types) } by
    exact h text.declarations ⟨text.package, [], [], [], path⟩
  intro ds
  induction ds with
  | nil => exact fun start => by simp [Except.map, pure, Except.pure]
  | cons d ds ih =>
    intro start
    rw [List.foldlM_cons, SourceFile.add_eq, List.mapM_cons]
    cases d.part with
    | error e => rfl
    | ok part =>
      refine (ih _).trans ?_
      cases ds.mapM Declaration.part with
      | error e => rfl
      | ok parts => simp [Except.map, bind, Except.bind, pure, Except.pure]

/-- The imports of a file are its lines of imports, read one after another. -/
theorem mapM_importLines {ds : List Declaration}
    (h : List.Forall₂ (fun d part => d.part = .ok part) ds parts) :
    (ds.flatMap importLines).mapM ImportLine.spec = .ok (parts.flatMap (·.imports)) := by
  induction h with
  | nil => rfl
  | @cons d part ds parts hpart _ ih =>
    have hlines : d.importLines.mapM ImportLine.spec = .ok part.imports := by
      cases d with
      | imports lines =>
        obtain ⟨specs, hspecs, rfl⟩ := eq_ok_of_map hpart
        exact hspecs
      | consts lines =>
        obtain ⟨specs, -, rfl⟩ := eq_ok_of_map hpart
        rfl
      | types specs =>
        obtain ⟨_, -, rfl⟩ := eq_ok_of_map hpart
        rfl
    rw [List.flatMap_cons, List.mapM_append, hlines, ih]
    rfl

/-! ## Reading a text -/

/-- A declaration that is not refused is not refused elsewhere. -/
theorem Declaration.part_of_unplaced {d d' : Declaration} (h : d'.unplaced = d.unplaced)
    {part : FilePart} (hpart : d.part = .ok part) :
    ∃ part', d'.part = .ok part' ∧ part'.unplaced = part.unplaced := by
  have hsame : d'.part.toOption.map FilePart.unplaced = d.part.toOption.map FilePart.unplaced := by
    rw [← d'.part_alike.toOption, h, d.part_alike.toOption]
  rw [hpart] at hsame
  cases hpart' : d'.part with
  | error e =>
    rw [hpart'] at hsame
    cases hsame
  | ok part' =>
    rw [hpart'] at hsame
    exact ⟨part', rfl, Option.some.inj hsame⟩

/-- Parts in another order add the same in another order. -/
theorem FilePart.flatMap_unplaced {β : Type} {f : FilePart → List β} {u : β → β}
    (hf : ∀ part, f part.unplaced = (f part).map u) {parts' : List FilePart}
    (h : Shuffled (fun part part' => part'.unplaced = part.unplaced) parts parts') :
    ((parts'.flatMap f).map u).Perm ((parts.flatMap f).map u) := by
  rw [List.map_flatMap, List.map_flatMap]
  refine h.flatMap_perm fun part _ part' hpart => ?_
  rw [← hf, hpart, hf]

theorem FileText.Reorders.declared {text' : FileText} (h : text.Reorders text')
    (path' : Option String) (hfile : text.declared path = .ok file) :
    ∃ file', text'.declared path' = .ok file' ∧ file.Reorders file' := by
  rw [declared_eq] at hfile
  obtain ⟨parts, hparts, rfl⟩ := eq_ok_of_map hfile
  rw [mapM_eq_ok] at hparts
  obtain ⟨parts', hparts', hshuffled⟩ := (Shuffled.of_map_perm h.declarations).transport hparts
    fun _ _ _ hd hpart => part_of_unplaced hd hpart
  refine ⟨_, by rw [declared_eq, mapM_eq_ok.2 hparts']; rfl, h.package, ?_, ?_, ?_⟩
  · -- the imports are read line by line
    have hspecs := (ResultsAlike.mapM fun line
      (_ : line ∈ text.declarations.flatMap importLines) => line.spec_alike).toOption
    have hspecs' := (ResultsAlike.mapM fun line
      (_ : line ∈ text'.declarations.flatMap importLines) => line.spec_alike).toOption
    rw [mapM_importLines hparts] at hspecs
    rw [mapM_importLines hparts', h.imports, hspecs] at hspecs'
    exact (Option.some.inj hspecs').symm
  · exact FilePart.flatMap_unplaced (fun _ => rfl) hshuffled
  · exact FilePart.flatMap_unplaced (fun _ => rfl) hshuffled

/-- Two texts that are read as the same declarations, in any order. -/
def TextReorders (source source' : String) : Prop :=
  ∃ text text', Reader.file.complete (.ofFile source) = .ok text ∧
    Reader.file.complete (.ofFile source') = .ok text' ∧ text.Reorders text'

theorem TextReorders.refl
    (h : (Reader.file.complete (.ofFile source)).toBool = true) : TextReorders source source := by
  cases htext : Reader.file.complete (.ofFile source) with
  | error e =>
    rw [htext] at h
    cases h
  | ok text => exact ⟨text, text, htext, htext, rfl, rfl, .refl _⟩

theorem TextReorders.symm (h : TextReorders source source') : TextReorders source' source := by
  obtain ⟨text, text', htext, htext', hreorders⟩ := h
  exact ⟨text', text, htext', htext, hreorders.package.symm, hreorders.imports.symm,
    hreorders.declarations.symm⟩

theorem SourceFile.parse_eq (h : Reader.file.complete (.ofFile source) = .ok text) :
    parse source path = (text.declared path).mapError Refusal.readError := by
  rw [parse, h]
  rfl

/-- A text with its declarations in another order is read as a file that declares the same. -/
theorem SourceFile.parse_reordered (h : TextReorders source source') (path' : Option String)
    (hfile : parse source path = .ok file) :
    ∃ file', parse source' path' = .ok file' ∧ file.Reorders file' := by
  obtain ⟨text, text', htext, htext', hreorders⟩ := h
  rw [parse_eq htext] at hfile
  obtain ⟨file', hfile', hfiles⟩ := hreorders.declared path' (eq_ok_of_mapError hfile)
  refine ⟨file', ?_, hfiles⟩
  rw [parse_eq htext', hfile']
  rfl

end DeclBridge
