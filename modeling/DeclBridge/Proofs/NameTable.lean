import DeclBridge.Output.NameTable
import DeclBridge.Proofs.Reachability
import Mathlib.Data.List.Perm.Subperm

/-!
# The names of modules

No two packages share a module name, whatever the packages are called: a name is given to a package
only when it is not taken (`freshName_not_mem`), and one candidate more than there are names taken
is enough to find one.  Every package that can be reached from a requested one has a name
(`build_names`).
-/

namespace DeclBridge.NameTable

open List

variable {names : Table String String} {p : Program} {path : String}

theorem candidate_injective (base : String) : Function.Injective (candidate base) := by
  intro m n h
  simp only [candidate] at h
  have hlength : ∀ k : Nat, (base ++ "_" ++ toString k).length ≠ base.length := by
    intro k
    rw [String.length_append, String.length_append]
    have : "_".length = 1 := rfl
    omega
  by_cases hm : m = 0 <;> by_cases hn : n = 0
  · rw [hm, hn]
  · rw [if_pos hm, if_neg hn] at h
    exact absurd (congrArg String.length h).symm (hlength n)
  · rw [if_neg hm, if_pos hn] at h
    exact absurd (congrArg String.length h) (hlength m)
  · rw [if_neg hm, if_neg hn] at h
    have hdigits : Nat.toDigits 10 m = Nat.toDigits 10 n := by
      simpa using congrArg String.toList h
    rw [← Nat.ofDigitChars_ten_toDigits (n := m), hdigits, Nat.ofDigitChars_ten_toDigits]

theorem freshName_not_mem (taken : List String) (base : String) : freshName taken base ∉ taken := by
  set candidates := (range (taken.length + 1)).map (candidate base) with hcandidates
  have hnodup : candidates.Nodup := nodup_range.map (candidate_injective base)
  have hfree : ∃ name ∈ candidates, name ∉ taken := by
    by_contra hnone
    have hall : candidates ⊆ taken := fun name hname => by
      by_contra hnot
      exact hnone ⟨name, hname, hnot⟩
    have hle := (subperm_of_subset hnodup hall).length_le
    rw [hcandidates, length_map, length_range] at hle
    omega
  obtain ⟨name, hname, hnot⟩ := hfree
  have hsome : (candidates.find? (· ∉ taken)).isSome :=
    find?_isSome.2 ⟨name, hname, by simpa using hnot⟩
  obtain ⟨found, hfound⟩ := Option.isSome_iff_exists.1 hsome
  have hval : freshName taken base = found := by
    rw [freshName, ← hcandidates, hfound, Option.getD_some]
  rw [hval]
  simpa using find?_some hfound

/-- No two packages share a name. -/
def Injective (names : Table String String) : Prop :=
  ∀ ⦃a b name⦄, names.get? a = some name → names.get? b = some name → a = b

theorem Injective.add (h : Injective names) (path : String) : Injective (add p names path) := by
  have hfresh := freshName_not_mem names.values (p.packageName path)
  intro a b name ha hb
  rw [NameTable.add, Table.get?_insert] at ha hb
  by_cases hpa : path = a <;> by_cases hpb : path = b
  · rw [← hpa, ← hpb]
  · rw [if_pos hpa] at ha
    rw [if_neg hpb] at hb
    exact absurd (Table.mem_values_of_get? hb) (Option.some.inj ha ▸ hfresh)
  · rw [if_neg hpa] at ha
    rw [if_pos hpb] at hb
    exact absurd (Table.mem_values_of_get? ha) (Option.some.inj hb ▸ hfresh)
  · rw [if_neg hpa] at ha
    rw [if_neg hpb] at hb
    exact h ha hb

theorem Injective.foldl_add (paths : List String)
    (h : Injective names) : Injective (paths.foldl (NameTable.add p) names) := by
  induction paths generalizing names with
  | nil => exact h
  | cons path paths ih => exact ih (h.add path)

/-- No two packages of a table that was built share a name. -/
theorem build_injective (p : Program) (primary : String) (roots : List String) :
    Injective (build p primary roots).names := by
  refine Injective.foldl_add _ fun a b name ha hb => ?_
  rw [Table.get?_insert] at ha hb
  by_cases hpa : primary = a <;> by_cases hpb : primary = b
  · rw [← hpa, ← hpb]
  · rw [if_neg hpb] at hb
    exact absurd hb (by simp [Table.empty])
  · rw [if_neg hpa] at ha
    exact absurd ha (by simp [Table.empty])
  · rw [if_neg hpa] at ha
    exact absurd ha (by simp [Table.empty])

/-! ## Which packages have names -/

/-- What has a name keeps one, and what is added has one. -/
theorem contains_foldl_add {paths : List String} (h : names.contains path = true ∨ path ∈ paths) :
    (paths.foldl (add p) names).contains path = true := by
  induction paths generalizing names with
  | nil => simpa using h
  | cons first paths ih =>
    refine ih ?_
    rw [Table.contains, add, Table.get?_insert]
    by_cases hfirst : first = path
    · exact .inl (by rw [if_pos hfirst]; rfl)
    · rw [if_neg hfirst]
      rcases h with h | h
      · exact .inl h
      · exact .inr (mem_of_ne_of_mem (Ne.symm hfirst) h)

theorem build_names_primary (p : Program) (primary : String) (roots : List String) :
    (build p primary roots).names.contains primary = true :=
  contains_foldl_add (.inl (Table.contains_of_get? (Table.get?_insert_self _ _ _)))

/-- Every package that can be reached from a requested one has a name. -/
theorem build_names (p : Program) {primary root : String} {roots : List String}
    (hroot : root ∈ roots) (h : p.Reaches root path) :
    (build p primary roots).names.contains path = true := by
  by_cases hprimary : path = primary
  · rw [hprimary]
    exact build_names_primary p primary roots
  · refine contains_foldl_add (.inr ?_)
    have hroot' : root ∈ if primary ∈ roots then roots else primary :: roots := by
      split
      · exact hroot
      · exact mem_cons_of_mem _ hroot
    rw [mem_mergeSort, mem_filter]
    exact ⟨p.mem_reachable hroot' h, by simpa using hprimary⟩

end DeclBridge.NameTable
