import DeclBridge.Proofs.Places
import DeclBridge.Source.Reader.File

/-!
# Faults of values

Literals and files are read, constants are computed and messages are written apart from any state,
and each of these may end in a fault.  `FailsOnly F r` says that the result `r` has no failure but
those in `F`, and has one rule for each way to compute a result.  All faults come from a value
without the representation that is asked of it (`Fault.OfValue`): nothing goes on for ever here.

Where something stands shows in the failures only.  `ResultsAlike F u r r'` compares the results at
two places: they are the same but for `u`, or both are failures, which `F` relates.
-/

namespace DeclBridge

open List

/-- Faults of a value that has no representation in the form that is asked of it. -/
def Fault.OfValue : Fault → Prop
  | .malformedInteger | .tooManyDigits | .codePointOutOfRange _ | .loneSurrogate => True
  | .beyondDouble | .notANumber | .zeroDivisor => True
  | _ => False

theorem Fault.OfValue.ne_undeclared {f : Fault} (h : f.OfValue) (name : String) :
    f ≠ .undeclared name := by
  rintro rfl
  exact h

/-- A refusal whose fault, if it is one, comes from a value. -/
def Refusal.OfValue : Refusal → Prop
  | .invalid _ => True
  | .fault why => why.OfValue

/-- A quoted text with an escape for a number that is no character. -/
def Unspellable (quoted : String) : Prop :=
  ∃ v, .escape (.point v) ∈ Piece.read (betweenEnds quoted.toList) ∧ ¬ v.isValidChar

/-- A refusal whose fault, if it is one, comes from such an escape. -/
def Refusal.OfSpelling (quoted : String) : Refusal → Prop
  | .invalid _ => True
  | .fault why => why.OfValue ∧ Unspellable quoted

/-- A failure whose fault, if it is one, comes from a value. -/
def Failure.OfValue : Failure → Prop
  | .problem .. => True
  | .fault why => why.OfValue

/-- A problem at the given place, or a fault that comes from a value. -/
def Failure.OfValueAt (pos : Position) : Failure → Prop
  | .problem _ p => p = pos
  | .fault why => why.OfValue

/-- Two refusals of one kind: an error is refused, or a value has the same fault. -/
def Refusal.Alike : Refusal → Refusal → Prop
  | .invalid _, .invalid _ => True
  | .fault why, .fault why' => why' = why ∧ why.OfValue
  | _, _ => False

/-- Two failures of one kind: problems at the given places, or the same fault of a value. -/
def Failure.AlikeAt (pos pos' : Position) : Failure → Failure → Prop
  | .problem _ p, .problem _ p' => p = pos ∧ p' = pos'
  | .fault why, .fault why' => why' = why ∧ why.OfValue
  | _, _ => False

/-- Every failure of a result is in `F`. -/
structure FailsOnly {ε α : Type} (F : ε → Prop) (r : Except ε α) : Prop where
  of_error : ∀ e, r = .error e → F e

namespace FailsOnly

variable {ε δ α β : Type} {F : ε → Prop} {r : Except ε α}

theorem ok (a : α) : FailsOnly F (.ok a : Except ε α) := ⟨nofun⟩

theorem error {e : ε} (h : F e) : FailsOnly F (.error e : Except ε α) :=
  ⟨fun _ he => Except.error.inj he ▸ h⟩

theorem weaken {G : ε → Prop} (hr : FailsOnly F r) (h : ∀ e, F e → G e) : FailsOnly G r :=
  ⟨fun e he => h e (hr.of_error e he)⟩

theorem bind {f : α → Except ε β} (hr : FailsOnly F r) (hf : ∀ a, FailsOnly F (f a)) :
    FailsOnly F (r >>= f) := by
  cases r with
  | error e => exact .error (hr.of_error e rfl)
  | ok a => exact hf a

theorem map {f : α → β} (hr : FailsOnly F r) : FailsOnly F (r.map f) := by
  cases r with
  | error e => exact .error (hr.of_error e rfl)
  | ok a => exact .ok (f a)

theorem mapError {G : δ → Prop} {f : ε → δ} (hr : FailsOnly F r) (hf : ∀ e, F e → G (f e)) :
    FailsOnly G (r.mapError f) := by
  cases r with
  | error e => exact .error (hf e (hr.of_error e rfl))
  | ok a => exact .ok a

theorem mapM {l : List α} {f : α → Except ε β} (hf : ∀ a ∈ l, FailsOnly F (f a)) :
    FailsOnly F (l.mapM f) := by
  induction l with
  | nil => exact .ok _
  | cons a l ih =>
    rw [forall_mem_cons] at hf
    rw [mapM_cons]
    exact hf.1.bind fun _ => (ih hf.2).bind fun _ => .ok _

theorem forM {l : List α} {f : α → Except ε PUnit} (hf : ∀ a ∈ l, FailsOnly F (f a)) :
    FailsOnly F (l.forM f) := by
  induction l with
  | nil => exact .ok _
  | cons a l ih =>
    rw [forall_mem_cons] at hf
    exact hf.1.bind fun _ => ih hf.2

theorem foldlM {l : List α} {f : β → α → Except ε β} (hf : ∀ b, ∀ a ∈ l, FailsOnly F (f b a))
    (b : β) : FailsOnly F (l.foldlM f b) := by
  induction l generalizing b with
  | nil => exact .ok _
  | cons a l ih =>
    rw [foldlM_cons]
    exact (hf b a mem_cons_self).bind fun b' =>
      ih (fun b a ha => hf b a (mem_cons_of_mem _ ha)) b'

theorem ofValue {pos : Position} {r : Except Failure α} (h : FailsOnly (Failure.OfValueAt pos) r) :
    FailsOnly Failure.OfValue r := by
  refine ⟨fun e he => ?_⟩
  cases e with
  | problem => trivial
  | fault why => exact h.of_error _ he

end FailsOnly

/-- Two results that are the same but for `u`, or two failures in `F`. -/
inductive ResultsAlike {ε α β : Type} (F : ε → ε → Prop) (u : α → β) :
    Except ε α → Except ε β → Prop
  | ok (a : α) : ResultsAlike F u (.ok a) (.ok (u a))
  | error {e e' : ε} (h : F e e') : ResultsAlike F u (.error e) (.error e')

theorem FailsOnly.alike {ε α : Type} {P : ε → Prop} {F : ε → ε → Prop} {r : Except ε α}
    (h : FailsOnly P r) (hF : ∀ e, P e → F e e) : ResultsAlike F id r r := by
  cases r with
  | error e => exact .error (hF e (h.of_error e rfl))
  | ok a => exact .ok a

namespace ResultsAlike

variable {ε δ α β α' β' ι κ : Type} {F : ε → ε → Prop} {u : α → β} {v : α' → β'}
  {r : Except ε α} {r' : Except ε β} {l : List ι} {w : ι → κ}

theorem bind {f : α → Except ε α'} {f' : β → Except ε β'} (h : ResultsAlike F u r r')
    (hf : ∀ a, ResultsAlike F v (f a) (f' (u a))) : ResultsAlike F v (r >>= f) (r' >>= f') := by
  cases h with
  | ok a => exact hf a
  | error h => exact .error h

theorem map {f : α → α'} {f' : β → β'} (h : ResultsAlike F u r r') (hf : ∀ a, f' (u a) = v (f a)) :
    ResultsAlike F v (r.map f) (r'.map f') :=
  h.bind fun a => (congrArg Except.ok (hf a)) ▸ .ok (f a)

theorem mapError {G : δ → δ → Prop} {f f' : ε → δ} (h : ResultsAlike F u r r')
    (hf : ∀ e e', F e e' → G (f e) (f' e')) : ResultsAlike G u (r.mapError f) (r'.mapError f') := by
  cases h with
  | ok a => exact .ok a
  | error h => exact .error (hf _ _ h)

theorem mapM {f : ι → Except ε α} {f' : κ → Except ε β}
    (h : ∀ i ∈ l, ResultsAlike F u (f i) (f' (w i))) :
    ResultsAlike F (List.map u) (l.mapM f) ((l.map w).mapM f') := by
  induction l with
  | nil => exact .ok []
  | cons i l ih =>
    rw [forall_mem_cons] at h
    rw [map_cons, mapM_cons, mapM_cons]
    exact h.1.bind fun a => (ih h.2).bind fun as => .ok (a :: as)

theorem forM {f : ι → Except ε PUnit} {f' : κ → Except ε PUnit}
    (h : ∀ i ∈ l, ResultsAlike F id (f i) (f' (w i))) :
    ResultsAlike F id (l.forM f) ((l.map w).forM f') := by
  induction l with
  | nil => exact .ok _
  | cons i l ih =>
    rw [forall_mem_cons] at h
    exact h.1.bind fun _ => ih h.2

theorem toOption (h : ResultsAlike F u r r') : r'.toOption = r.toOption.map u := by
  cases h <;> rfl

theorem failsOnly {P : ε → Prop} (h : ResultsAlike F u r r') (hF : ∀ e e', F e e' → P e) :
    FailsOnly P r := by
  cases h with
  | ok a => exact .ok a
  | error h => exact .error (hF _ _ h)

end ResultsAlike

theorem Refusal.Alike.refl {e : Refusal} (h : e.OfValue) : e.Alike e := by
  cases e with
  | invalid why => trivial
  | fault why => exact ⟨rfl, h⟩

theorem Refusal.Alike.ofValue {e e' : Refusal} (h : e.Alike e') : e.OfValue := by
  cases e with
  | invalid why => trivial
  | fault why =>
    cases e' with
    | invalid why' => cases h
    | fault why' => exact h.2

theorem Failure.AlikeAt.ofValueAt {pos pos' : Position} {e e' : Failure}
    (h : e.AlikeAt pos pos' e') : e.OfValueAt pos := by
  cases e <;> cases e' <;> first | exact h.1 | exact h.2 | cases h

/-! ## Literals -/

theorem Refusal.OfSpelling.ofValue {quoted : String} {e : Refusal} (h : e.OfSpelling quoted) :
    e.OfValue := by
  cases e with
  | invalid why => trivial
  | fault why => exact h.1

/-- An escape has bytes unless its number is no character. -/
theorem Piece.bytes_failsOnly {quoted : String} {p : Piece}
    (hp : p ∈ read (betweenEnds quoted.toList)) :
    FailsOnly (Refusal.OfSpelling quoted) p.bytes := by
  cases p with
  | plain c => exact .ok _
  | escape e =>
    cases e with
    | letter | byte => exact .ok _
    | octal value =>
      rw [bytes, Escape.bytes]
      split
      · exact .error trivial
      · exact .ok _
    | point value =>
      rw [bytes, Escape.bytes]
      split
      · exact .error ⟨trivial, value, hp, by rw [Nat.isValidChar]; omega⟩
      · split
        · exact .error ⟨trivial, value, hp, by rw [Nat.isValidChar]; omega⟩
        · exact .ok _

theorem Piece.text_failsOnly {F : Refusal → Prop} {pieces : List Piece}
    (h : ∀ p ∈ pieces, FailsOnly F p.bytes) : FailsOnly F (text pieces) := by
  refine FailsOnly.map ?_
  induction pieces with
  | nil => exact .ok _
  | cons piece rest ih =>
    rw [forall_mem_cons] at h
    exact h.1.bind fun _ => (ih h.2).bind fun _ => .ok _

theorem unquote_failsOnly (quoted : String) :
    FailsOnly (Refusal.OfSpelling quoted) (unquote quoted) := by
  unfold unquote
  dsimp only
  split
  · exact .error trivial
  · split
    · exact .error trivial
    · split
      · exact .error trivial
      · exact Piece.text_failsOnly fun _ => Piece.bytes_failsOnly

namespace Literal

theorem readDigits_failsOnly (digit? : Char → Option Nat) (base : Nat) (cs : List Char) :
    FailsOnly Fault.OfValue (readDigits digit? base cs) := by
  unfold readDigits
  split
  · exact .error trivial
  · exact .error trivial
  · exact .ok _

theorem intValue_failsOnly (text : String) : FailsOnly Fault.OfValue (intValue text) := by
  unfold intValue
  split
  · split
    · exact readDigits_failsOnly ..
    · split
      · exact readDigits_failsOnly ..
      · split
        · exact readDigits_failsOnly ..
        · split
          · exact readDigits_failsOnly ..
          · exact .error trivial
  · have hdecimal (cs : List Char) : FailsOnly Fault.OfValue (readDecimal cs) := by
      rw [readDecimal]
      split
      · exact .error trivial
      · exact readDigits_failsOnly ..
    refine (hdecimal _).bind fun n => ?_
    split
    · exact .error trivial
    · exact .ok _

theorem floatValue_failsOnly (text : String) : FailsOnly Fault.OfValue (floatValue text) := by
  unfold floatValue
  dsimp only
  split
  · exact .error trivial
  · exact .ok _

theorem stringValue_failsOnly (l : Literal) :
    FailsOnly (Refusal.OfSpelling l.text) l.stringValue := by
  unfold stringValue
  dsimp only
  split
  · exact .ok _
  · exact Piece.text_failsOnly fun _ => Piece.bytes_failsOnly

theorem stringValue_alike (l : Literal) :
    ResultsAlike Refusal.Alike id l.stringValue l.stringValue :=
  l.stringValue_failsOnly.alike fun _ h => .refl h.ofValue

/-- The place of a literal shows only where it is refused. -/
theorem constant_alike (l : Literal) (pos pos' : Position) :
    ResultsAlike Refusal.Alike id (l.constant pos) (l.constant pos') := by
  unfold constant
  split
  · refine FailsOnly.alike (P := Refusal.OfValue) (.mapError ?_ fun _ h => h) fun _ => .refl
    exact ((intValue_failsOnly _).bind fun _ => .ok _).map
  · refine FailsOnly.alike (P := Refusal.OfValue) (.mapError ?_ fun _ h => h) fun _ => .refl
    exact (floatValue_failsOnly _).map
  · exact .ok _
  · refine .map (u := id) ?_ fun _ => rfl
    unfold runeValue
    dsimp only
    split
    · exact .ok _
    · exact .ok _
    · exact .error trivial
  all_goals
    exact ((stringValue_failsOnly l).bind fun _ => .ok _).map.alike fun _ h => .refl h.ofValue

end Literal

/-! ## Files -/

theorem Expr.check_alike (e : Expr) : ResultsAlike Refusal.Alike id e.check e.unplaced.check := by
  induction e with
  | lit pos l => exact (l.constant_alike pos .start).map fun _ => rfl
  | ident => exact .ok _
  | select pos x name ih | unary pos op x ih => exact ih
  | binary pos op x y ihx ihy | call pos x y ihx ihy => exact ihx.bind fun _ => ihy

namespace TypeExpr

theorem checkAll_eq (ts : List TypeExpr) : checkAll ts = ts.forM check := by
  induction ts with
  | nil => rfl
  | cons t ts ih =>
    rw [checkAll, ih]
    rfl

theorem checkFields_eq (ds : List (FieldDecl TypeExpr)) : checkFields ds = ds.forM checkField := by
  induction ds with
  | nil => rfl
  | cons d ds ih =>
    rw [checkFields, ih]
    rfl

theorem checkTerms_eq (ts : List (Term TypeExpr)) : checkTerms ts = ts.forM checkTerm := by
  induction ts with
  | nil => rfl
  | cons t ts ih =>
    rw [checkTerms, ih]
    rfl

theorem checkTag_alike (tag : Option Literal) :
    ResultsAlike Refusal.Alike id (checkTag tag) (checkTag tag) := by
  cases tag with
  | none => exact .ok _
  | some l => exact l.stringValue_alike.map fun _ => rfl

theorem checkField_alike {d : FieldDecl TypeExpr}
    (hd : ∀ t, d.type? = some t → ResultsAlike Refusal.Alike id t.check t.unplaced.check) :
    ResultsAlike Refusal.Alike id (checkField d) (checkField (movedField .forget d)) := by
  cases d with
  | named pos names t tag =>
    rw [movedField, checkField, checkField]
    exact (checkTag_alike tag).bind fun _ => hd t rfl
  | embedded pos pointer name tag =>
    rw [movedField, checkField, checkField]
    refine (checkTag_alike tag).bind fun _ => ?_
    show ResultsAlike _ _ _ (if name.generic = true then _ else _)
    split
    · exact .error trivial
    · exact .ok _

/-- A type expression is refused or not, wherever it is written. -/
theorem check_alike (t : TypeExpr) : ResultsAlike Refusal.Alike id t.check t.unplaced.check := by
  induction t with
  | ref pos package name args ih | interface pos args methods ih =>
    simp only [moved, check, checkAll_eq, movedAll_eq]
    exact .forM ih
  | pointer pos elem ih | slice pos elem ih | chan pos dir elem ih =>
    simpa only [moved, check]
  | array pos length elem ih =>
    simp only [moved, check]
    exact length.check_alike.bind fun _ => ih
  | map pos key elem ihkey ihelem =>
    simp only [moved, check]
    exact ihkey.bind fun _ => ihelem
  | func pos params results variadic ihparams ihresults =>
    simp only [moved, check, checkAll_eq, movedAll_eq]
    exact (ResultsAlike.forM ihparams).bind fun _ => .forM ihresults
  | struct pos fields ih =>
    simp only [moved, check, checkFields_eq, movedFields_eq]
    exact .forM fun d hd => checkField_alike (ih d hd)
  | union pos terms ih =>
    simp only [moved, check, checkTerms_eq, movedTerms_eq]
    refine .forM fun term ht => ?_
    obtain ⟨tilde, t⟩ := term
    rw [movedTerm, checkTerm, checkTerm]
    exact ih _ ht

end TypeExpr

def unplacedGiven (given : Option TypeExpr × List Expr) : Option TypeExpr × List Expr :=
  (given.1.map TypeExpr.unplaced, given.2.map Expr.unplaced)

def ConstLine.unplaced (line : ConstLine) : ConstLine :=
  { line with pos := .start, given := line.given.map unplacedGiven }

theorem checkGiven_alike (given : Option TypeExpr × List Expr) :
    ResultsAlike Refusal.Alike id (checkGiven given) (checkGiven (unplacedGiven given)) := by
  obtain ⟨type, values⟩ := given
  have hvalues : ResultsAlike Refusal.Alike id (values.forM Expr.check)
      ((values.map Expr.unplaced).forM Expr.check) := .forM fun e _ => e.check_alike
  cases type with
  | none => exact hvalues
  | some t => exact t.check_alike.bind fun _ => hvalues

/-- The lines of a group are spelled out in the same way wherever they stand. -/
theorem ConstLine.expandFrom_alike (iota : Nat) (before : Option (Option TypeExpr × List Expr))
    (lines : List ConstLine) :
    ResultsAlike Refusal.Alike (map ConstSpec.unplaced) (expandFrom iota before lines)
      (expandFrom iota (before.map unplacedGiven) (lines.map unplaced)) := by
  induction lines generalizing iota before with
  | nil => exact .ok []
  | cons line lines ih =>
    have hgiven : ResultsAlike Refusal.Alike unplacedGiven (line.resolved before)
        (line.unplaced.resolved (before.map unplacedGiven)) := by
      obtain ⟨pos, names, given⟩ := line
      cases given with
      | some given => exact (checkGiven_alike given).bind fun _ => .ok given
      | none =>
        cases before with
        | none => exact .error trivial
        | some given => exact .ok given
    rw [map_cons, expandFrom, expandFrom]
    refine hgiven.bind fun given => ?_
    rw [show (unplacedGiven given).2.length = given.2.length from length_map _,
      show line.unplaced.names = line.names from rfl]
    dsimp only
    split
    · exact .error trivial
    · exact (ih (iota + 1) (some given)).bind fun specs => .ok (_ :: specs)

theorem TypeSpec.check_alike (spec : TypeSpec) :
    ResultsAlike Refusal.Alike id spec.check spec.unplaced.check :=
  (ResultsAlike.forM fun p _ => p.constraint.check_alike).bind fun _ => spec.type.check_alike

/-- A file is refused for an error in it or for a value. -/
theorem FileText.declared_failsOnly (text : FileText) (path : Option String) :
    FailsOnly Refusal.OfValue (text.declared path) := by
  refine .foldlM (fun file d _ => ?_) _
  cases d with
  | imports lines =>
    refine (FailsOnly.mapM fun line _ => ?_).bind fun _ => .ok _
    exact (line.path.stringValue_alike.failsOnly fun _ _ => (·.ofValue)).bind fun _ => .ok _
  | consts lines =>
    exact ((ConstLine.expandFrom_alike 0 none lines).failsOnly fun _ _ => (·.ofValue)).bind
      fun _ => .ok _
  | types specs =>
    refine (FailsOnly.forM fun spec _ => ?_).bind fun _ => .ok _
    exact spec.check_alike.failsOnly fun _ _ => (·.ofValue)

/-- The fault of a text that is not read, if it is one, comes from a value. -/
def ReadError.OfValue : ReadError → Prop
  | .text _ | .invalid _ => True
  | .fault why => why.OfValue

/-- Only a literal without a value makes the reading of a file end in a fault. -/
theorem SourceFile.parse_failsOnly (source : String) (path : Option String) :
    FailsOnly ReadError.OfValue (parse source path) := by
  rw [parse]
  refine .bind ?_ fun text => (text.declared_failsOnly path).mapError fun e he => ?_
  · exact .mapError (F := fun _ => True) ⟨fun _ _ => trivial⟩ fun _ _ => trivial
  · cases e with
    | invalid why => trivial
    | fault why => exact he

/-! ## Arithmetic -/

namespace Constant

open Number

variable (pos pos' : Position)

theorem exactDouble_alike (x : Float) :
    ResultsAlike (Failure.AlikeAt pos pos') id (exactDouble x) (exactDouble x) := by
  rw [exactDouble]
  split
  · exact .ok _
  · refine .error ⟨rfl, ?_⟩
    split <;> trivial

theorem toFraction_alike (c : Constant) :
    ResultsAlike (Failure.AlikeAt pos pos') id c.toFraction c.toFraction := by
  cases c with
  | bool | str | int | rat => exact .ok _
  | float x => exact exactDouble_alike pos pos' x
  | complex z => exact exactDouble_alike pos pos' z.re

theorem toComplex_alike (c : Constant) :
    ResultsAlike (Failure.AlikeAt pos pos') id c.toComplex c.toComplex := by
  have hreal (c : Constant) : ResultsAlike (Failure.AlikeAt pos pos') id (do
      return .ofReal (← nearestDouble (← c.toFraction)) : Except Failure ComplexDouble) (do
      return .ofReal (← nearestDouble (← c.toFraction))) := by
    refine (toFraction_alike pos pos' c).bind fun q => .bind (u := id) ?_ fun _ => .ok _
    dsimp only [id]
    rw [nearestDouble]
    split
    · exact .ok _
    · exact .error ⟨rfl, trivial⟩
  cases c with
  | complex z => exact .ok _
  | float x => exact .ok _
  | bool | str | int | rat => exact hreal _

theorem wholeNumber_alike (c : Constant) :
    ResultsAlike (Failure.AlikeAt pos pos') id (c.wholeNumber pos) (c.wholeNumber pos') := by
  have hwhole (q : Rat) : ResultsAlike (Failure.AlikeAt pos pos') id
      (if q.den = 1 then .ok q.num else problem (.truncatedToInteger c) pos)
      (if q.den = 1 then .ok q.num else problem (.truncatedToInteger c) pos') := by
    split_ifs
    · exact .ok _
    · exact .error ⟨rfl, rfl⟩
  cases c with
  | bool | str | complex => exact .error ⟨rfl, rfl⟩
  | int n => exact .ok _
  | rat q => exact hwhole q
  | float x => exact (exactDouble_alike pos pos' x).bind hwhole

theorem convertNumber_alike (c : Constant) (kind : Kind) :
    ResultsAlike (Failure.AlikeAt pos pos') id (c.convertNumber kind pos)
      (c.convertNumber kind pos') := by
  unfold convertNumber
  split_ifs
  · exact (wholeNumber_alike pos pos' c).map fun _ => rfl
  · exact (toFraction_alike pos pos' c).map fun _ => rfl
  · exact (toComplex_alike pos pos' c).map fun _ => rfl
  · exact .error ⟨rfl, rfl⟩

/-- Where a conversion stands makes no difference to its value. -/
theorem convert_alike (c : Constant) (kind : Kind) :
    ResultsAlike (Failure.AlikeAt pos pos') id (c.convert kind pos) (c.convert kind pos') := by
  unfold convert
  cases c with
  | bool | str => split_ifs <;> first | exact .ok _ | exact .error ⟨rfl, rfl⟩
  | int | rat | float =>
    dsimp only
    split_ifs
    · exact .error ⟨rfl, rfl⟩
    · first | exact .ok _ | exact .error ⟨rfl, rfl⟩
    · exact convertNumber_alike pos pos' _ kind
  | complex z =>
    dsimp only
    split_ifs
    · exact .error ⟨rfl, rfl⟩
    · exact .error ⟨rfl, rfl⟩
    · exact .ok _
    · exact .error ⟨rfl, rfl⟩
    · exact (exactDouble_alike pos pos' _).bind fun _ => convertNumber_alike pos pos' _ kind

theorem compareWith_alike (op : BinaryOp) (a b : Constant) :
    ResultsAlike (Failure.AlikeAt pos pos') id (compareWith op a b pos)
      (compareWith op a b pos') := by
  unfold compareWith
  split
  · exact .ok _
  · exact .ok _
  · split
    all_goals first
      | exact .error ⟨rfl, rfl⟩
      | exact .ok _
      | exact (toFraction_alike pos pos' a).bind fun _ =>
          (toFraction_alike pos pos' b).bind fun _ => .ok _

/-- Where an operation stands shows only in the place of its problem. -/
theorem arith_alike (op : BinaryOp) (a b : Constant) (kind : Option Kind) :
    ResultsAlike (Failure.AlikeAt pos pos') id (arith op a b kind pos) (arith op a b kind pos') := by
  unfold arith
  split
  · split_ifs <;> first | exact .ok _ | exact .error ⟨rfl, rfl⟩
  all_goals try exact .error ⟨rfl, rfl⟩
  split_ifs
  · exact .error ⟨rfl, rfl⟩
  · exact (wholeNumber_alike pos pos' a).bind fun _ =>
      (wholeNumber_alike pos pos' b).bind fun _ => .ok _
  · exact .error ⟨rfl, rfl⟩
  · refine (toComplex_alike pos pos' a).bind fun _ => (toComplex_alike pos pos' b).bind fun _ => ?_
    dsimp only [id]
    split_ifs
    · exact .error ⟨rfl, trivial⟩
    · exact .ok _
  · exact (toFraction_alike pos pos' a).bind fun _ =>
      (toFraction_alike pos pos' b).bind fun _ => .ok _

theorem shift_alike (op : BinaryOp) (a count : Constant) :
    ResultsAlike (Failure.AlikeAt pos pos') id (a.shift op count pos) (a.shift op count pos') := by
  refine (wholeNumber_alike pos pos' a).bind fun m =>
    (wholeNumber_alike pos pos' count).bind fun n => ?_
  dsimp only [id]
  split_ifs
  · exact .error ⟨rfl, rfl⟩
  · exact .error ⟨rfl, rfl⟩
  · exact .ok _
  · exact .ok _

/-! ## Messages -/

theorem decimal_failsOnly (n : Int) : FailsOnly Fault.OfValue (Number.decimal n) := by
  rw [Number.decimal]
  split
  · exact .error trivial
  · exact .ok _

theorem cited_failsOnly (c : Constant) : FailsOnly Fault.OfValue c.cited := by
  cases c with
  | int n => exact decimal_failsOnly n
  | rat q => exact (decimal_failsOnly _).bind fun _ => (decimal_failsOnly _).bind fun _ => .ok _
  | _ => exact .ok _

theorem plain_failsOnly (c : Constant) : FailsOnly Fault.OfValue c.plain := by
  cases c with
  | rat q =>
    refine (decimal_failsOnly _).bind fun numerator => ?_
    split
    · exact .ok _
    · exact (decimal_failsOnly _).bind fun _ => .ok _
  | str t => exact .ok _
  | bool b => exact cited_failsOnly (.bool b)
  | int n => exact cited_failsOnly (.int n)
  | float x => exact cited_failsOnly (.float x)
  | complex z => exact cited_failsOnly (.complex z)

end Constant

/-- A message can be written unless a value in it cannot. -/
theorem Problem.message_failsOnly (why : Problem) : FailsOnly Fault.OfValue why.message := by
  cases why with
  | cannotConvert value | notAnInteger value =>
    exact value.cited_failsOnly.bind fun _ => .ok _
  | undefinedOperator op value => exact value.cited_failsOnly.bind fun _ => .ok _
  | truncatedToReal value | truncatedToInteger value =>
    exact value.plain_failsOnly.bind fun _ => .ok _
  | _ => exact .ok _

theorem Problem.diagnostic_failsOnly (why : Problem) (file : Option String) (pos : Position) :
    FailsOnly Fault.OfValue (why.diagnostic file pos) :=
  why.message_failsOnly.bind fun _ => .ok _

end DeclBridge
