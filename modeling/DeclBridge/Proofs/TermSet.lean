import DeclBridge.Output.TermSet
import DeclBridge.Proofs.Program
import Mathlib.Data.List.Perm.Subperm

/-!
# Terms of interfaces

Two facts about the terms that a type restricts to.  They are types that the program has: parts of
the type itself or of a declared one (`Program.termSet_mem_typeParts`).  And the walk that finds
them ends by itself: it never enters the definition of a type twice, so from the number of symbols
on a larger bound gives the same terms (`Program.within_eq_termSet`).
-/

namespace DeclBridge

open List

variable {t u : Ty} {terms : List Ty} {S : Ty → Prop} {count : Nat} {seen : List SymbolId}
  {p : Program}

/-! ## Terms are parts of declared types -/

/-- What the terms of a type are made from: the type itself, or what an interface embeds. -/
inductive Ty.Embeds : Ty → Ty → Prop
  | self (t : Ty) : Embeds t t
  | member {embeds : List Ty} {methods : List String} {e t : Ty} : e ∈ embeds → Embeds e t →
    Embeds (.interface embeds methods) t

theorem Ty.Embeds.mem_parts (h : t.Embeds u) : u ∈ t.parts := by
  induction h with
  | self t => exact self_mem_parts t
  | member he _ ih => exact parts_trans (child_mem_parts he) ih

namespace TermSet

theorem mem_dedupe {types : List Ty} (h : t ∈ Ty.dedupe types) : t ∈ types := by
  have hfold : ∀ kept : List Ty,
      t ∈ types.foldl (fun kept t => if kept.any (t.same ·) then kept else kept ++ [t]) kept →
      t ∈ kept ∨ t ∈ types := by
    clear h
    induction types with
    | nil => exact fun kept h => .inl h
    | cons first rest ih =>
      intro kept h
      rcases ih _ h with h | h
      · dsimp only at h
        split at h
        · exact .inl h
        · rcases mem_append.1 h with h | h
          · exact .inl h
          · rw [mem_singleton.1 h]
            exact .inr mem_cons_self
      · exact .inr (mem_cons_of_mem _ h)
  simpa using hfold [] h

theorem mem_foldl_common {others : List (List Ty)} {first : List Ty}
    (h : t ∈ others.foldl common first) : t ∈ first := by
  induction others generalizing first with
  | nil => exact h
  | cons next others ih => exact (mem_filter.1 (ih h)).1

theorem mem_meet {sets : List (Option (List Ty))}
    (h : meet sets = some terms) (ht : t ∈ terms) : ∃ set, some set ∈ sets ∧ t ∈ set := by
  rw [meet] at h
  split at h
  · cases h
  · rename_i first others hsets
    cases h
    have hfirst : first ∈ sets.filterMap id := by
      rw [hsets]
      exact mem_cons_self
    exact ⟨first, by simpa using mem_filterMap.1 hfirst, mem_foldl_common ht⟩

theorem ofTys_eq (declared : SymbolId → Ty → Option (List Ty)) (ts : List Ty) :
    ofTys declared ts = ts.map (ofTy declared) := by
  induction ts with
  | nil => rfl
  | cons t ts ih => rw [ofTys, ih, map_cons]

/-- The terms of a type are parts of it, or terms of a reference that it embeds. -/
theorem mem_ofTy {declared : SymbolId → Ty → Option (List Ty)} (hparts : ∀ u ∈ t.parts, S u)
    (hdeclared : ∀ id reference found, t.Embeds reference → reference.symbol? = some id →
      declared id reference = some found → ∀ u ∈ found, S u)
    (h : ofTy declared t = some terms) : ∀ u ∈ terms, S u := by
  induction t generalizing terms with
  | basic | pointer | array | slice | map | chan | func | struct | param =>
    cases h
    exact fun u hu => mem_singleton.1 hu ▸ hparts _ (Ty.self_mem_parts _)
  | named id args =>
    rw [ofTy] at h
    split at h
    · exact hdeclared id _ terms (.self _) rfl h
    · split at h
      · cases h
      · cases h
        exact fun u hu => mem_singleton.1 hu ▸ hparts _ (Ty.self_mem_parts _)
  | aliased id args =>
    rw [ofTy] at h
    split at h
    · exact hdeclared id _ terms (.self _) rfl h
    · cases h
      exact fun u hu => mem_singleton.1 hu ▸ hparts _ (Ty.self_mem_parts _)
  | interface embeds methods ih =>
    rw [ofTy, ofTys_eq] at h
    intro u hu
    obtain ⟨set, hset, hu⟩ := mem_meet h hu
    obtain ⟨e, he, heq⟩ := mem_map.1 hset
    exact ih e he (fun v hv => hparts v (Ty.parts_trans (Ty.child_mem_parts he) hv))
      (fun id reference found href => hdeclared id reference found (.member he href)) heq u hu
  | union unionTerms =>
    cases h
    intro u hu
    obtain ⟨term, hterm, rfl⟩ := mem_map.1 (mem_dedupe hu)
    exact hparts _ (Ty.child_mem_parts (mem_map_of_mem hterm))

/-- Terms stay within a set that holds the parts of the type and, with a reference, the parts of
the type that is declared. -/
theorem mem_within {info : SymbolId → TypeInfo}
    (hinfo : ∀ reference id t, S reference → reference.symbol? = some id →
      (info id).underlying = some t → ∀ u ∈ t.parts, S u) (hparts : ∀ u ∈ t.parts, S u)
    (h : within info count seen t = some terms) : ∀ u ∈ terms, S u := by
  induction count generalizing seen t terms with
  | zero => cases h
  | succ count ih =>
    rw [within] at h
    refine mem_ofTy hparts (fun id reference found href hid hfound => ?_) h
    have hreference : S reference := hparts reference href.mem_parts
    split at hfound
    · rename_i embeds methods hunder
      split at hfound
      · cases hfound
      · exact ih (hinfo reference id _ hreference hid hunder) hfound
    · cases hfound
      exact fun u hu => mem_singleton.1 hu ▸ hreference

end TermSet

namespace Program

/-- The terms of a type that the program has are types that the program has. -/
theorem termSet_mem_typeParts (ht : t ∈ p.typeParts)
    (h : p.termSet t = some terms) (hu : u ∈ terms) : u ∈ p.typeParts :=
  TermSet.mem_within (fun _ _ _ _ _ hunder _ hv => underlying_mem_typeParts hunder hv)
    (fun _ hv => typeParts_closed ht hv) h u hu

end Program

/-! ## The walk ends by itself -/

namespace Program

/-- What identifies the symbols of the loaded packages. -/
def symbolIds (p : Program) : List SymbolId :=
  p.packages.entries.flatMap fun (path, package) => package.symbols.keys.map (⟨some path, ·⟩)

theorem length_symbolIds : p.symbolIds.length = p.symbolCount := by
  rw [symbolIds, symbolCount, symbols, Table.values, flatMap_map, length_flatMap,
    length_flatMap]
  simp [Table.keys, Table.values]

theorem mem_symbolIds {id : SymbolId} (h : (p.typeInfo id).underlying = some t) :
    id ∈ p.symbolIds := by
  obtain ⟨path, package, s, hpath, hpackage, hs, -⟩ := typeInfo_eq h
  refine mem_flatMap.2 ⟨(path, package), Table.mem_entries_of_get? hpackage, ?_⟩
  refine mem_map.2 ⟨id.name, Table.mem_keys_iff.2 (Table.contains_of_get? hs), ?_⟩
  rw [← hpath]

/-- A bound above the number of symbols that are still to be entered is as good as any other. -/
theorem within_eq_within (hnodup : seen.Nodup)
    (hseen : seen ⊆ p.symbolIds) {m n : Nat} (hm : p.symbolCount < seen.length + m)
    (hn : p.symbolCount < seen.length + n) (t : Ty) :
    TermSet.within p.typeInfo m seen t = TermSet.within p.typeInfo n seen t := by
  have hlength : seen.length ≤ p.symbolCount := by
    rw [← length_symbolIds]
    exact (subperm_of_subset hnodup hseen).length_le
  induction m generalizing n seen t with
  | zero => omega
  | succ m ih =>
    obtain ⟨n, rfl⟩ : ∃ k, n = k + 1 := ⟨n - 1, by omega⟩
    rw [TermSet.within, TermSet.within]
    congr 1
    funext id reference
    split
    · rename_i embeds methods hunder
      split
      · rfl
      · rename_i hid
        have hnodup' : (id :: seen).Nodup := nodup_cons.2 ⟨hid, hnodup⟩
        have hseen' : id :: seen ⊆ p.symbolIds := cons_subset.2 ⟨mem_symbolIds hunder, hseen⟩
        refine ih hnodup' hseen' ?_ ?_ _ ?_
        · rw [length_cons]
          omega
        · rw [length_cons]
          omega
        · rw [← length_symbolIds]
          exact (subperm_of_subset hnodup' hseen').length_le
    · rfl

/-- The bound on the walk is never what ends it. -/
theorem within_eq_termSet (h : p.symbolCount < count) (t : Ty) :
    TermSet.within p.typeInfo count [] t = p.termSet t :=
  within_eq_within nodup_nil (nil_subset _) (by simpa using h) (by simp) t

end Program

end DeclBridge
