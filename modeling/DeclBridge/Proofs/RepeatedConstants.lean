import DeclBridge.Proofs.SourceOrder

/-!
# Repeated constants

A line of constants without values repeats the type and the values of the line before it.  To write
them out changes nothing: what is repeated has already been accepted where it was given, and `iota`
is the number of the line either way.  So texts that agree once their groups are spelled out are
read as the same file or refused in the same way, and their packages resolve to the same constants
(`SourceFile.parse_spelledOut`).
-/

namespace DeclBridge

open List

variable {source source' : String} {before : Option (Option TypeExpr × List Expr)}
  {line : ConstLine} {lines : List ConstLine} {text : FileText}

/-! ## Groups -/

namespace ConstLine

/-- The lines of a group after a line with the type and values `before`, each with those it has or
repeats. -/
def spelledOut (before : Option (Option TypeExpr × List Expr)) : List ConstLine → List ConstLine
  | [] => []
  | line :: rest =>
    let given := line.given.or before
    { line with given } :: spelledOut given rest

/-- What a line repeats is accepted once more where it is spelled out. -/
theorem expandFrom_spelledOut (iota : Nat) (hbefore : ∀ given ∈ before, checkGiven given = .ok ())
    (lines : List ConstLine) :
    expandFrom iota before (spelledOut before lines) = expandFrom iota before lines := by
  induction lines generalizing iota before with
  | nil => rfl
  | cons line rest ih =>
    obtain ⟨pos, names, given⟩ := line
    have hrest (g : Option TypeExpr × List Expr) (hg : checkGiven g = .ok ()) :=
      ih (iota + 1) fun given (h : given ∈ some g) => Option.some.inj h ▸ hg
    rw [spelledOut, expandFrom, expandFrom]
    cases given with
    | some given =>
      cases hcheck : checkGiven given with
      | error e => simp [resolved, hcheck, bind, Except.bind]
      | ok _ => simp [resolved, hcheck, bind, Except.bind, pure, Except.pure, hrest given hcheck]
    | none =>
      cases before with
      | none => rfl
      | some given =>
        have hcheck := hbefore given rfl
        simp [resolved, hcheck, bind, Except.bind, pure, Except.pure, hrest given hcheck]

/-- `iota` is the number of a line within its group. -/
theorem iota_expandFrom {iota : Nat} {specs : List ConstSpec}
    (h : expandFrom iota before lines = .ok specs) :
    specs.map (·.iota) = range' iota lines.length := by
  induction lines generalizing iota before specs with
  | nil =>
    cases h
    rfl
  | cons line rest ih =>
    rw [expandFrom] at h
    obtain ⟨given, -, h⟩ := eq_ok_of_bind h
    split at h
    · cases h
    · obtain ⟨specs, hspecs, h⟩ := eq_ok_of_bind h
      cases h
      rw [map_cons, ih hspecs]
      rfl

end ConstLine

/-! ## Files -/

/-- A declaration with its lines of constants spelled out, without places. -/
def Declaration.spelledOut : Declaration → Declaration
  | consts lines => (consts (ConstLine.spelledOut none lines)).unplaced
  | d => d.unplaced

/-- A file with its groups of constants spelled out, without places. -/
def FileText.spelledOut (text : FileText) : FileText :=
  { text with declarations := text.declarations.map Declaration.spelledOut }

/-- What a file declares, without places. -/
def SourceFile.unplaced (file : SourceFile) : SourceFile :=
  { file with
    imports := file.imports.map ImportSpec.unplaced
    consts := file.consts.map ConstSpec.unplaced
    types := file.types.map TypeSpec.unplaced }

/-- A declaration adds the same when it is spelled out. -/
theorem Declaration.part_spelledOut (d : Declaration) :
    ResultsAlike Refusal.Alike FilePart.unplaced d.part d.spelledOut.part := by
  cases d with
  | consts lines =>
    have hpart : (consts (ConstLine.spelledOut none lines)).part = (consts lines).part := by
      rw [part, part,
        ConstLine.expandFrom_spelledOut 0 fun _ h => absurd h (Option.not_mem_none _)]
    exact hpart ▸ part_alike _
  | imports lines => exact part_alike _
  | types specs => exact part_alike _

/-- A file declares the same when it is spelled out. -/
theorem FileText.declared_spelledOut (text : FileText) (path : Option String) :
    ResultsAlike Refusal.Alike SourceFile.unplaced (text.declared path)
      (text.spelledOut.declared path) := by
  rw [declared_eq, declared_eq]
  refine (ResultsAlike.mapM fun d _ => d.part_spelledOut).map fun parts => ?_
  simp [SourceFile.unplaced, FilePart.unplaced, spelledOut, flatMap_map, map_flatMap]

/-- A file with a group whose first line has no values is refused, and for that reason if nothing
before the group is. -/
theorem FileText.declared_missingValue {ds ds' : List Declaration}
    (h : text.declarations = ds ++ .consts (line :: lines) :: ds') (hline : line.given = none)
    (path : Option String) : ∃ e, text.declared path = .error e ∧
      ((∀ d ∈ ds, ∃ part, d.part = .ok part) →
        e = .invalid (.missingValue (line.names.headD "") line.pos)) := by
  have hgroup : (Declaration.consts (line :: lines)).part =
      .error (.invalid (.missingValue (line.names.headD "") line.pos)) := by
    obtain ⟨pos, names, given⟩ := line
    cases hline
    rfl
  rw [declared_eq, h, mapM_append, mapM_cons, hgroup]
  cases hds : ds.mapM Declaration.part with
  | ok parts => exact ⟨_, rfl, fun _ => rfl⟩
  | error e =>
    refine ⟨e, rfl, fun haccepted => ?_⟩
    have hnever : FailsOnly (fun _ => False) (ds.mapM Declaration.part) := by
      refine .mapM fun d hd => ?_
      obtain ⟨part, hpart⟩ := haccepted d hd
      exact hpart ▸ .ok part
    exact (hnever.of_error e hds).elim

/-! ## Texts -/

/-- Two texts that are read as files that agree when their groups of constants are spelled out, so
that each line without values has a copy of the type and values that it repeats. -/
def TextsAgree (source source' : String) : Prop :=
  ∃ text text', Reader.file.complete (.ofFile source) = .ok text ∧
    Reader.file.complete (.ofFile source') = .ok text' ∧ text'.spelledOut = text.spelledOut

/-- The fault that a text is not read for, or nothing if it is in error. -/
def ReadError.fault? : ReadError → Option Fault
  | .fault why => some why
  | .text _ | .invalid _ => none

/-- What a text declares, or why it is not read, apart from places. -/
def SourceFile.outcome (source : String) (path : Option String) :
    Except (Option Fault) SourceFile :=
  ((parse source path).map unplaced).mapError ReadError.fault?

/-- The outcome of a text is that of the file it is read as, spelled out. -/
theorem SourceFile.outcome_eq (h : Reader.file.complete (.ofFile source) = .ok text)
    (path : Option String) : outcome source path =
      (text.spelledOut.declared path).mapError fun e => e.readError.fault? := by
  have halike := text.declared_spelledOut path
  rw [outcome, parse_eq h]
  generalize text.declared path = r, text.spelledOut.declared path = r₀ at halike ⊢
  cases halike with
  | ok file => rfl
  | @error e e₀ he =>
    cases e <;> cases e₀
    case invalid.invalid => rfl
    case fault.fault =>
      obtain ⟨rfl, -⟩ := he
      rfl
    all_goals exact False.elim he

/-- Texts that agree when their groups of constants are spelled out have the same outcome: both are
in error, both end in the same fault, or both declare the same apart from places, with the number of
its line for `iota`; and then a package resolves to the same with either.  A group whose first line
has no values is refused. -/
theorem SourceFile.parse_spelledOut (h : TextsAgree source source') (path : Option String) :
    outcome source path = outcome source' path ∧
    (∀ file file', parse source path = .ok file → parse source' path = .ok file' →
      ∀ (p : Program) (unit : String) (files files' : List SourceFile) (package : Package),
        p.Sound → p.packages.get? unit = none →
        Loading.checkNames unit (files ++ file :: files') = .ok () →
        (Outline.ofFiles p unit (files ++ file :: files')).resolve p = .ok package →
        ∃ package', (Outline.ofFiles p unit (files ++ file' :: files')).resolve p = .ok package' ∧
          package.Resembles package') ∧
    ∀ text ds lines ds', Reader.file.complete (.ofFile source) = .ok text →
      text.declarations = ds ++ .consts lines :: ds' →
      (∀ specs, ConstLine.expandFrom 0 none lines = .ok specs →
        specs.map (·.iota) = range lines.length) ∧
      ∀ line ∈ lines.head?, line.given = none → ∃ e, parse source path = .error e ∧
        ((∀ d ∈ ds, ∃ part, d.part = .ok part) →
          e = .invalid (.missingValue (line.names.headD "") line.pos)) := by
  obtain ⟨text, text', htext, htext', hagree⟩ := h
  have hsame : outcome source path = outcome source' path := by
    rw [outcome_eq htext, outcome_eq htext', hagree]
  refine ⟨hsame, ?_, fun text₁ ds lines ds' htext₁ hds => ⟨fun specs hspecs => ?_, ?_⟩⟩
  · intro file file' hfile hfile' p unit files files' package hp hunit hnames hpackage
    rw [outcome, outcome, hfile, hfile'] at hsame
    have hreorders {a b : SourceFile} (h : a.unplaced = b.unplaced) : a.Reorders b :=
      ⟨congrArg (·.package) h.symm, congrArg (·.imports) h.symm,
        .of_eq (congrArg (·.types) h.symm), .of_eq (congrArg (·.consts) h.symm)⟩
    have hself (l : List SourceFile) : List.Forall₂ Reorders l l :=
      forall₂_same.2 fun _ _ => hreorders rfl
    exact Outline.resolve_reordered
      ⟨_, .refl _, rel_append (hself files) (.cons (hreorders (Except.ok.inj hsame))
        (hself files'))⟩
      (Loading.ready_of_sound hp hunit _) (Loading.ready_of_sound hp hunit _)
      (fun q _ => p.moves_moved q) (Loading.checkNames_iff.1 hnames) hpackage
  · rw [ConstLine.iota_expandFrom hspecs, range_eq_range']
  · intro line hline hgiven
    cases htext.symm.trans htext₁
    obtain ⟨lines, rfl⟩ := head?_eq_some_iff.1 hline
    obtain ⟨e, hrefused, hmissing⟩ := FileText.declared_missingValue hds hgiven path
    refine ⟨e.readError, by rw [parse_eq htext, hrefused]; rfl, fun haccepted => ?_⟩
    rw [hmissing haccepted]
    rfl

/-- Whether two texts are read as a constant that is repeated. -/
def repeatsIota : Except SyntaxError FileText → Except SyntaxError FileText → Bool
  | .ok ⟨"p", [.consts [⟨_, ["A"], some (none, [.ident _ "iota"])⟩, ⟨_, ["B"], none⟩]]⟩,
    .ok ⟨"p", [.consts [⟨_, ["A"], some (none, [.ident _ "iota"])⟩,
      ⟨_, ["B"], some (none, [.ident _ "iota"])⟩]]⟩ => true
  | _, _ => false

theorem textsAgree_of_repeatsIota (h : repeatsIota (Reader.file.complete (.ofFile source))
    (Reader.file.complete (.ofFile source')) = true) : TextsAgree source source' := by
  generalize htext : Reader.file.complete (.ofFile source) = text,
    htext' : Reader.file.complete (.ofFile source') = text' at h
  unfold repeatsIota at h
  split at h
  · exact ⟨_, _, htext, htext', rfl⟩
  · cases h

/-- A line without values and the same with them. -/
theorem SourceFile.parse_spelledOut_iota : outcome "package p\nconst (\n\tA = iota\n\tB\n)\n" none =
      outcome "package p\nconst (\n\tA = iota\n\tB = iota\n)\n" none :=
  (parse_spelledOut (textsAgree_of_repeatsIota (by decide +kernel)) none).1

end DeclBridge
