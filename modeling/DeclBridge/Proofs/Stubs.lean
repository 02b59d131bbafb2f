import DeclBridge.Proofs.Types
import DeclBridge.Resolution.Reference

/-!
# Types without some packages

Of a type of a package that is not there nothing is known, not even whether it is an alias.
`Ty.stubbed M` forgets this for the packages `M`, and two types are alike when nothing else tells
them apart.  Types that are alike refer to the same symbols, and stay alike when parameters are
replaced by types that are.
-/

namespace DeclBridge

open List

variable {id : SymbolId} {M : List String} {ts : List Ty}

/-- Whether a symbol belongs to one of the packages `M`. -/
def SymbolId.isIn (M : List String) (id : SymbolId) : Bool :=
  id.package.any fun path => decide (path ∈ M)

theorem SymbolId.isIn_iff : id.isIn M = true ↔ ∃ path ∈ M, id.package = some path := by
  simp only [isIn, Option.any_eq_true, decide_eq_true_eq]
  exact ⟨fun ⟨path, h, hM⟩ => ⟨path, hM, h⟩, fun ⟨path, hM, h⟩ => ⟨path, h, hM⟩⟩

namespace Ty

/-- A reference to a type of the packages `M` without the mark of an alias. -/
def unmarked (M : List String) : Ty → Ty
  | aliased s ts => if s.isIn M then named s ts else aliased s ts
  | t => t

/-- A type as it is seen without the packages `M`: none of their types is known to be an alias. -/
def stubbed (M : List String) : Ty → Ty := mapParts (unmarked M)

theorem stubbed_eq (t : Ty) : t.stubbed M = (t.mapChildren (stubbed M)).unmarked M :=
  mapParts_eq t

theorem stubbed_named (s : SymbolId) (ts : List Ty) :
    (named s ts).stubbed M = named s (ts.map (stubbed M)) :=
  stubbed_eq _

theorem stubbed_aliased (s : SymbolId) (ts : List Ty) : (aliased s ts).stubbed M =
      if s.isIn M then named s (ts.map (stubbed M)) else aliased s (ts.map (stubbed M)) := by
  rw [stubbed_eq, mapChildren, unmarked]

theorem unmarked_unmarked (t : Ty) : (t.unmarked M).unmarked M = t.unmarked M := by
  cases t with
  | aliased s ts => by_cases h : s.isIn M <;> simp [unmarked, h]
  | _ => rfl

theorem mapChildren_unmarked {f : Ty → Ty} (t : Ty) :
    (t.unmarked M).mapChildren f = (t.mapChildren f).unmarked M := by
  cases t with
  | aliased s ts => by_cases h : s.isIn M <;> simp [unmarked, mapChildren, h]
  | _ => rfl

/-- Without any package to forget, a type stays as it is. -/
theorem stubbed_nil (t : Ty) : t.stubbed [] = t := by
  have hunmarked (u : Ty) : u.unmarked [] = u := by
    cases u with
    | aliased s ts => simp [unmarked, SymbolId.isIn]
    | _ => rfl
  induction t using childInduction with
  | step t ih => rw [stubbed_eq, hunmarked, mapChildren_congr ih, mapChildren_id]

@[simp] theorem symbol?_stubbed (t : Ty) : (t.stubbed M).symbol? = t.symbol? := by
  cases t with
  | aliased s ts =>
    rw [stubbed_aliased]
    split <;> rfl
  | _ => rfl

@[simp] theorem isUntyped_stubbed (t : Ty) : (t.stubbed M).isUntyped = t.isUntyped := by
  cases t with
  | aliased s ts =>
    rw [stubbed_aliased]
    split <;> rfl
  | _ => rfl

def kind? : Ty → Option Kind
  | basic k => some k
  | _ => none

@[simp] theorem kind?_stubbed (t : Ty) : (t.stubbed M).kind? = t.kind? := by
  cases t with
  | aliased s ts =>
    rw [stubbed_aliased]
    split <;> rfl
  | _ => rfl

def args : Ty → List Ty
  | named _ ts | aliased _ ts => ts
  | _ => []

theorem args_stubbed (t : Ty) : (t.stubbed M).args = t.args.map (stubbed M) := by
  cases t with
  | aliased s ts =>
    rw [stubbed_aliased]
    split <;> rfl
  | named s ts => rw [stubbed_named, args, args]
  | _ => rfl

/-- What is forgotten before a substitution, of the type or of the arguments, is forgotten after
it. -/
theorem stubbed_subst {args args' : Table String Ty}
    (h : ∀ name, (args.get? name).map (stubbed M) = (args'.get? name).map (stubbed M)) (t : Ty) :
    ((t.stubbed M).subst args).stubbed M = (t.subst args').stubbed M := by
  induction t using paramInduction with
  | param n i =>
    have hn := h n
    rw [show (param n i).stubbed M = param n i from rfl, subst, subst]
    cases hget : args.get? n <;> cases hget' : args'.get? n <;>
      simp only [hget, hget', Option.map_some, Option.map_none, reduceCtorEq] at hn
    · rfl
    · exact Option.some.inj hn
  | step t hparam ih =>
    have hstubbed : ∀ n i, t.stubbed M ≠ .param n i := by
      intro n i
      rw [stubbed_eq]
      cases t <;> simp only [mapChildren, unmarked, ne_eq, reduceCtorEq, not_false_eq_true]
      · split <;> simp
      · exact absurd rfl (hparam _ _)
    rw [subst_eq _ hstubbed, stubbed_eq t, mapChildren_unmarked, stubbed_eq, mapChildren_unmarked,
      unmarked_unmarked, mapChildren_mapChildren, mapChildren_mapChildren, mapChildren_congr ih,
      stubbed_eq, subst_eq args' hparam, mapChildren_mapChildren]

/-- Types that differ at most in which types of the packages `M` are aliases. -/
def Alike (M : List String) (t t' : Ty) : Prop := t.stubbed M = t'.stubbed M

namespace Alike

variable {t t' : Ty}

theorem refl (t : Ty) : Alike M t t := rfl

theorem eq (h : Alike [] t t') : t = t' := by
  rw [← stubbed_nil t, ← stubbed_nil t']
  exact h

theorem symbol? (h : Alike M t t') : t'.symbol? = t.symbol? := by
  rw [← symbol?_stubbed (M := M) t', ← h, symbol?_stubbed]

theorem isUntyped (h : Alike M t t') : t'.isUntyped = t.isUntyped := by
  rw [← isUntyped_stubbed (M := M) t', ← h, isUntyped_stubbed]

theorem args (h : Alike M t t') : t.args.map (stubbed M) = t'.args.map (stubbed M) := by
  rw [← args_stubbed, ← args_stubbed, show t.stubbed M = t'.stubbed M from h]

theorem kind? (h : Alike M t t') : t'.kind? = t.kind? := by
  rw [← kind?_stubbed (M := M) t', ← h, kind?_stubbed]

/-- A reference to a package that is there is an alias in both types or in neither. -/
theorem of_aliased (h : Alike M (aliased id ts) t')
    (hid : id.isIn M = false) : ∃ ts', t' = aliased id ts' := by
  have h : (aliased id ts).stubbed M = t'.stubbed M := h
  rw [stubbed_aliased, if_neg (by simp [hid])] at h
  cases t' with
  | aliased id' ts' =>
    rw [stubbed_aliased] at h
    split at h
    · cases h
    · exact ⟨ts', by rw [(aliased.inj h).1]⟩
  | _ => cases h

theorem of_named (h : Alike M (named id ts) t')
    (hid : id.isIn M = false) : ∃ ts', t' = named id ts' := by
  have h : (named id ts).stubbed M = t'.stubbed M := h
  cases t' with
  | named id' ts' => exact ⟨ts', by rw [(named.inj h).1]⟩
  | aliased id' ts' =>
    rw [stubbed_aliased] at h
    split at h
    · rw [(named.inj h).1] at hid
      simp_all
    · cases h
  | _ => cases h

theorem subst (h : Alike M t t') {args args' : Table String Ty}
    (hargs : ∀ name, (args.get? name).map (stubbed M) = (args'.get? name).map (stubbed M)) :
    Alike M (t.subst args) (t'.subst args') :=
  calc (t.subst args).stubbed M
    _ = ((t.stubbed M).subst args).stubbed M := (stubbed_subst (fun _ => rfl) t).symm
    _ = ((t'.stubbed M).subst args).stubbed M := by rw [show t.stubbed M = t'.stubbed M from h]
    _ = (t'.subst args').stubbed M := stubbed_subst hargs t'

end Alike

/-- What is found behind a type without the packages `M`: the same as with them, or the reference to
one of their types at which the way ends. -/
def Behind (M : List String) (u u' : Ty) : Prop :=
  Alike M u u' ∨ ∃ id, u'.symbol? = some id ∧ id.isIn M = true

/-- A way that ends at a missing package leads to no kind. -/
theorem Behind.kind? {u u' : Ty} (h : Behind M u u') :
    u'.kind? = u.kind? ∨ M ≠ [] ∧ u'.kind? = none := by
  rcases h with h | ⟨id, hid, hin⟩
  · exact .inl h.kind?
  · obtain ⟨path, hpath, -⟩ := SymbolId.isIn_iff.1 hin
    refine .inr ⟨ne_nil_of_mem hpath, ?_⟩
    cases u' with
    | basic => cases hid
    | _ => rfl

end Ty

/-- What is known of a declared type without the packages `M`. -/
structure TypeInfo.Fades (M : List String) (info info' : TypeInfo) : Prop where
  params : info.params.map (fun p => { p with constraint := p.constraint.map (Ty.stubbed M) }) =
    info'.params.map fun p => { p with constraint := p.constraint.map (Ty.stubbed M) }
  isAlias : info.isAlias = info'.isAlias
  rhs : info.rhs.map (Ty.stubbed M) = info'.rhs.map (Ty.stubbed M)
  underlying : Option.Rel (Ty.Behind M) info.underlying info'.underlying

theorem TypeInfo.Fades.refl (info : TypeInfo) : info.Fades M info where
  params := rfl
  isAlias := rfl
  rhs := rfl
  underlying := by
    cases info.underlying with
    | none => exact .none
    | some u => exact .some (.inl rfl)

theorem TypeInfo.Fades.names {info info' : TypeInfo} (h : info.Fades M info') :
    info.params.map (·.name) = info'.params.map (·.name) := by
  have := congrArg (map (·.name)) h.params
  rwa [map_map, map_map] at this

namespace Resolving

variable {params params' : List TypeParam} {args args' : List Ty} {t t' : Ty}

theorem instantiate_alike (hnames : params.map (·.name) = params'.map (·.name))
    (hargs : args.map (Ty.stubbed M) = args'.map (Ty.stubbed M)) (h : t.Alike M t') :
    (instantiate params args t).Alike M (instantiate params' args' t') := by
  refine h.subst fun name => ?_
  have hzip (names : List String) (args : List Ty) : (names.zip args).map
      (fun e => (e.1, e.2.stubbed M)) = names.zip (args.map (Ty.stubbed M)) := by
    rw [zip_map_right]
    rfl
  rw [← Table.get?_ofList_map, ← Table.get?_ofList_map, hzip, hzip, hnames, hargs]

theorem instantiate_behind (hnames : params.map (·.name) = params'.map (·.name))
    (hargs : args.map (Ty.stubbed M) = args'.map (Ty.stubbed M)) (h : t.Behind M t') :
    (instantiate params args t).Behind M (instantiate params' args' t') := by
  rcases h with h | ⟨id, hid, hM⟩
  · exact .inl (instantiate_alike hnames hargs h)
  · refine .inr ⟨id, ?_, hM⟩
    rw [instantiate, Ty.symbol?_subst _ fun n i heq => ?_, hid]
    rw [heq] at hid
    cases hid

end Resolving

end DeclBridge
