import DeclBridge.Proofs.NameTable
import Mathlib

/-!
# Which name a module gets

`NameTable.build` names the packages one after another, in the order of `nameKey`.  The order is
total, so the names depend on the set of packages that can be reached and on nothing else: not on
the order in which the packages were requested or are imported (`build_congr`).

## Shape of the argument

A package gets the first free candidate for its name (`freshName_least`), and what is taken when its
turn comes are the names of the packages before it (`mem_values_foldl_add`).  Packages that come
later do not touch the name (`get?_foldl_add_of_notMem`), so the finished table can be read as the
record of every turn (`build_turn`).
-/

namespace DeclBridge

open List Table

namespace Program

/-- Two programs whose packages have the same names and import the same packages, in whatever order
and however often. -/
structure SameImports (p p' : Program) : Prop where
  name : ∀ path, p'.packageName path = p.packageName path
  imports : ∀ path import', import' ∈ p'.importsOf path ↔ import' ∈ p.importsOf path

theorem SameImports.reaches_iff {p p' : Program} (h : p.SameImports p') {a b : String} :
    p'.Reaches a b ↔ p.Reaches a b := by
  have himports : p'.Imports = p.Imports :=
    funext fun path => funext fun import' => propext (h.imports path import')
  rw [Reaches, Reaches, himports]

end Program

namespace NameTable

variable {p p' : Program} {names : Table String String} {primary path : String}
  {roots roots' paths : List String}

/-! ## The order of naming -/

/-- Packages are named by the length of their path, then by their name, then by their path. -/
def nameKey (p : Program) (path : String) : ℕ ×ₗ String ×ₗ String :=
  toLex (path.length, toLex (p.packageName path, path))

theorem nameKey_injective (p : Program) : Function.Injective (nameKey p) := by
  intro a b h
  simp only [nameKey, EmbeddingLike.apply_eq_iff_eq, Prod.mk.injEq] at h
  exact h.2.2

theorem then_ne_gt_iff {α : Type} [LinearOrder α] {a b : α} {o : Ordering} :
    ((compare a b).then o != .gt) = true ↔ a < b ∨ a = b ∧ (o != .gt) = true := by
  rcases lt_trichotomy a b with h | h | h
  · simp [compare_lt_iff_lt.2 h, h]
  · simp [h]
  · have hgt : compare a b = .gt := compare_gt_iff_gt.2 h
    simp [hgt, h.not_gt, h.ne']

theorem namedBefore_iff {a b : String} : namedBefore p a b = true ↔ nameKey p a ≤ nameKey p b := by
  have hname := @then_ne_gt_iff String _ (p.packageName a) (p.packageName b) (compare a b)
  have hpath : (compare a b != .gt) = true ↔ a ≤ b := by
    rw [bne_iff_ne]
    exact compare_le_iff_le
  calc namedBefore p a b = true
      ↔ a.length < b.length ∨ a.length = b.length ∧ (p.packageName a < p.packageName b ∨
          p.packageName a = p.packageName b ∧ a ≤ b) := by
        rw [namedBefore, then_ne_gt_iff, ← hpath, ← hname]
    _ ↔ nameKey p a ≤ nameKey p b := by
        simp only [nameKey, Prod.Lex.toLex_le_toLex]

/-- The packages to be named after the primary one, in their order. -/
def queue (p : Program) (primary : String) (roots : List String) : List String :=
  ((p.reachable (if primary ∈ roots then roots else primary :: roots)).filter
    (· ≠ primary)).mergeSort (namedBefore p)

theorem build_eq_foldl (p : Program) (primary : String) (roots : List String) :
    (build p primary roots).names =
      (queue p primary roots).foldl (add p) (empty.insert primary index) := rfl

theorem mem_queue_iff : path ∈ queue p primary roots ↔
      path ≠ primary ∧ ∃ root ∈ primary :: roots, p.Reaches root path := by
  have hroots : ∀ root, root ∈ (if primary ∈ roots then roots else primary :: roots) ↔
      root ∈ primary :: roots := by
    intro root
    split
    · constructor
      · exact mem_cons_of_mem _
      · intro h
        rcases mem_cons.1 h with rfl | h <;> assumption
    · rfl
  rw [queue, mem_mergeSort, mem_filter, p.mem_reachable_iff, and_comm]
  simp only [hroots, decide_eq_true_eq]

theorem nodup_queue (p : Program) (primary : String) (roots : List String) :
    (queue p primary roots).Nodup :=
  (mergeSort_perm _ _).nodup_iff.2 ((p.nodup_reachable _).filter _)

theorem pairwise_queue (p : Program) (primary : String) (roots : List String) :
    (queue p primary roots).Pairwise fun a b => nameKey p a < nameKey p b := by
  have htrans : ∀ a b c, namedBefore p a b = true → namedBefore p b c = true →
      namedBefore p a c = true := by
    intro a b c hab hbc
    rw [namedBefore_iff] at hab hbc ⊢
    exact hab.trans hbc
  have htotal : ∀ a b, (namedBefore p a b || namedBefore p b a) = true := by
    intro a b
    rw [Bool.or_eq_true, namedBefore_iff, namedBefore_iff]
    exact le_total _ _
  have hsorted : (queue p primary roots).Pairwise fun a b => namedBefore p a b = true := by
    rw [queue]
    exact pairwise_mergeSort htrans htotal _
  -- sorted and without repetition is sorted strictly, since the key tells packages apart
  refine (hsorted.and (nodup_queue p primary roots)).imp fun {a b} h => ?_
  exact lt_of_le_of_ne (namedBefore_iff.1 h.1) fun heq => h.2 (nameKey_injective p heq)

/-- The order of naming depends only on what can be reached. -/
theorem queue_congr (h : p.SameImports p') (hroots : ∀ root, root ∈ roots' ↔ root ∈ roots) :
    queue p' primary roots' = queue p primary roots := by
  have hkey : nameKey p' = nameKey p := by
    funext path
    rw [nameKey, nameKey, h.name]
  have hmem : ∀ path, path ∈ queue p' primary roots' ↔ path ∈ queue p primary roots := by
    intro path
    simp only [mem_queue_iff, mem_cons, hroots, h.reaches_iff]
  have hperm : (queue p' primary roots').Perm (queue p primary roots) :=
    (perm_ext_iff_of_nodup (nodup_queue p' primary roots')
      (nodup_queue p primary roots)).2 hmem
  have hsorted := pairwise_queue p' primary roots'
  rw [hkey] at hsorted
  exact hperm.eq_of_pairwise (fun a b _ _ hab hba => absurd (hab.trans hba) (lt_irrefl _)) hsorted
    (pairwise_queue p primary roots)

/-! ## One turn -/

/-- The name that is found is the first candidate that is free. -/
theorem freshName_least (taken : List String) (base : String) :
    ∃ k, freshName taken base = candidate base k ∧ ∀ j < k, candidate base j ∈ taken := by
  have hfree := freshName_not_mem taken base
  obtain hnone | ⟨found, hfound⟩ := Option.eq_none_or_eq_some
    (((range (taken.length + 1)).map (candidate base)).find? (· ∉ taken))
  · -- then the bare name would be the result, and it was seen to be taken
    have hbase : candidate base 0 ∈ taken := by
      have hmem : candidate base 0 ∈ (range (taken.length + 1)).map (candidate base) :=
        mem_map_of_mem (mem_range.2 (Nat.succ_pos _))
      simpa using find?_eq_none.1 hnone _ hmem
    rw [freshName, hnone] at hfree
    exact absurd hbase hfree
  · have hval : freshName taken base = found := by rw [freshName, hfound, Option.getD_some]
    rw [hval]
    rw [find?_map, Option.map_eq_some_iff] at hfound
    obtain ⟨k, hk, rfl⟩ := hfound
    obtain ⟨-, -, hbelow⟩ := find?_range_eq_some.1 hk
    exact ⟨k, rfl, fun j hj => by simpa using hbelow j hj⟩

theorem get?_foldl_add_of_notMem (h : path ∉ paths) :
    (paths.foldl (add p) names).get? path = names.get? path := by
  induction paths generalizing names with
  | nil => rfl
  | cons first paths ih =>
    have hne : first ≠ path := fun heq => h (heq ▸ mem_cons_self)
    have hrest : path ∉ paths := fun hmem => h (mem_cons_of_mem _ hmem)
    rw [foldl_cons, ih hrest, add, get?_insert_of_ne _ _ hne]

/-- The names that are taken when a package's turn comes: that of the primary package and those of
the packages before it in the order. -/
def Taken (p : Program) (primary : String) (names : Table String String) (path name : String) :
    Prop :=
  ∃ earlier, (earlier = primary ∨ nameKey p earlier < nameKey p path) ∧
    names.get? earlier = some name

theorem contains_foldl_add_iff : (paths.foldl (add p) names).contains path = true ↔
      names.contains path = true ∨ path ∈ paths := by
  refine ⟨fun h => ?_, contains_foldl_add⟩
  by_cases hmem : path ∈ paths
  · exact .inr hmem
  · rw [Table.contains, get?_foldl_add_of_notMem hmem] at h
    exact .inl h

theorem distinct_foldl_add (h : names.Distinct) : (paths.foldl (add p) names).Distinct := by
  induction paths generalizing names with
  | nil => exact h
  | cons first paths ih => exact ih (h.insert _ _)

theorem distinct_primary (primary : String) :
    (empty.insert primary index : Table String String).Distinct :=
  distinct_empty.insert _ _

/-- What a package of the queue is called is settled in its turn: the first candidate that no
package before it has. -/
theorem build_turn (hpath : path ∈ queue p primary roots) :
    ∃ k, (build p primary roots).names.get? path = some (candidate (p.packageName path) k) ∧
      ∀ j < k, Taken p primary (build p primary roots).names path
        (candidate (p.packageName path) j) := by
  obtain ⟨before, after, hqueue⟩ := append_of_mem hpath
  have hnodup := nodup_queue p primary roots
  have hsorted := pairwise_queue p primary roots
  rw [hqueue] at hnodup hsorted
  obtain ⟨-, hrest, hdisjoint⟩ := nodup_append.1 hnodup
  have hlater : path ∉ after := (nodup_cons.1 hrest).1
  set table := before.foldl (add p) (empty.insert primary index) with htable
  have hbuild : (build p primary roots).names = after.foldl (add p) (add p table path) := by
    rw [build_eq_foldl, hqueue, foldl_append, foldl_cons]
  obtain ⟨k, hk, hbelow⟩ := freshName_least table.values (p.packageName path)
  refine ⟨k, ?_, fun j hj => ?_⟩
  · rw [hbuild, get?_foldl_add_of_notMem hlater, add, get?_insert_self, hk]
  -- a name taken at that turn belongs to a package before, and is still its name at the end
  · obtain ⟨⟨earlier, name⟩, hentry, rfl⟩ := mem_map.1 (hbelow j hj)
    have hget : table.get? earlier = some (candidate (p.packageName path) j) :=
      (distinct_foldl_add (distinct_primary primary)).get?_of_mem hentry
    have hearlier : earlier = primary ∨ earlier ∈ before := by
      have hcontains := contains_foldl_add_iff.1 (contains_of_get? hget)
      rw [Table.contains_insert] at hcontains
      exact hcontains.imp_left fun h => by simpa [Table.contains, Table.empty, eq_comm] using h
    have hkept : earlier ∉ path :: after := by
      rcases hearlier with rfl | hbefore
      · intro hmem
        have hself : earlier ∈ queue p earlier roots := by
          rw [hqueue]
          exact mem_append_right _ hmem
        exact (mem_queue_iff.1 hself).1 rfl
      · exact fun hmem => hdisjoint earlier hbefore earlier hmem rfl
    refine ⟨earlier, hearlier.imp_right fun hbefore => ?_, ?_⟩
    · exact (pairwise_append.1 hsorted).2.2 earlier hbefore path mem_cons_self
    · rw [hbuild, ← foldl_cons, get?_foldl_add_of_notMem hkept, hget]

/-! ## The finished table -/

/-- What a table of module names is to be, for the packages requested. -/
structure Names (p : Program) (primary : String) (roots : List String)
    (names : Table String String) : Prop where
  /-- Exactly the packages that can be reached have a name, loaded or not. -/
  reached : ∀ path, names.contains path = true ↔ ∃ root ∈ primary :: roots, p.Reaches root path
  injective : Injective names
  index_iff : ∀ path, names.get? path = some index ↔ path = primary
  /-- Any other package has the first candidate for its name that was free in its turn. -/
  least : ∀ path, names.contains path = true → path ≠ primary →
    ∃ k, names.get? path = some (candidate (p.packageName path) k) ∧
      ¬ Taken p primary names path (candidate (p.packageName path) k) ∧
      ∀ j < k, Taken p primary names path (candidate (p.packageName path) j)

theorem get?_build_primary (p : Program) (primary : String) (roots : List String) :
    (build p primary roots).names.get? primary = some index := by
  have hnot : primary ∉ queue p primary roots := fun h => (mem_queue_iff.1 h).1 rfl
  rw [build_eq_foldl, get?_foldl_add_of_notMem hnot, Table.get?_insert_self]

theorem contains_build_iff : (build p primary roots).names.contains path = true ↔
      path = primary ∨ path ∈ queue p primary roots := by
  rw [build_eq_foldl, contains_foldl_add_iff, Table.contains_insert]
  simp [Table.contains, Table.empty, eq_comm]

theorem names_build (p : Program) (primary : String) (roots : List String) :
    Names p primary roots (build p primary roots).names where
  reached path := by
    rw [contains_build_iff, mem_queue_iff]
    by_cases hpath : path = primary
    · subst hpath
      exact ⟨fun _ => ⟨path, mem_cons_self, .refl⟩, fun _ => .inl rfl⟩
    · simp only [hpath, false_or, ne_eq, not_false_eq_true, true_and]
  injective := build_injective p primary roots
  index_iff path := by
    have hprimary := get?_build_primary p primary roots
    constructor
    · exact fun h => build_injective p primary roots h hprimary
    · rintro rfl
      exact hprimary
  least path hnamed hother := by
    have hqueue := (contains_build_iff.1 hnamed).resolve_left hother
    obtain ⟨k, hk, hbelow⟩ := build_turn hqueue
    refine ⟨k, hk, ?_, hbelow⟩
    -- no two packages share a name, and none comes before itself
    rintro ⟨earlier, hearlier, hget⟩
    obtain rfl := build_injective p primary roots hget hk
    exact hearlier.elim hother (lt_irrefl _)

/-- The order in which packages are requested or imported has no part in their names. -/
theorem build_congr (h : p.SameImports p') (hroots : ∀ root, root ∈ roots' ↔ root ∈ roots) :
    build p' primary roots' = build p primary roots := by
  have hadd : add p' = add p := by
    funext names path
    rw [add, add, h.name]
  show NameTable.mk ((queue p' primary roots').foldl (add p') _) = _
  rw [queue_congr h hroots, hadd]
  rfl

/-- Module names are given to exactly the packages that can be reached, no two packages share one,
only the primary package is called `index`, and every other package has the first candidate for its
name that is free in its turn.  The order in which packages are requested or imported has no part in
it. -/
theorem build_names_reached (p : Program) (primary : String) (roots : List String) :
    Names p primary roots (build p primary roots).names ∧
      ∀ (p' : Program) (roots' : List String), p.SameImports p' →
        (∀ root, root ∈ roots' ↔ root ∈ roots) →
        (build p' primary roots').names = (build p primary roots).names := by
  refine ⟨names_build p primary roots, fun p' roots' h hroots => ?_⟩
  rw [build_congr h hroots]

/-- A package that imports two others of one name. -/
def twoUtils (imports : List String) : Program where
  packages := ⟨[("p", { path := "p", name := "p", imports })]⟩

/-- The second package called `util` in the order of paths gets a number, whichever of the two is
imported first. -/
theorem build_names_twoUtils :
    (build (twoUtils ["b/util", "a/util", "b/util"]) "p" ["p", "a/util"]).names =
        (build (twoUtils ["a/util", "b/util"]) "p" ["a/util", "p"]).names ∧
      (build (twoUtils ["a/util", "b/util"]) "p" ["a/util", "p"]).names.get? "b/util" =
        some "util_1" := by
  refine ⟨(build_names_reached (twoUtils ["a/util", "b/util"]) "p" ["a/util", "p"]).2 _ _
    ⟨?_, ?_⟩ ?_, by cbv⟩
  · intro path
    by_cases hpath : "p" = path <;> simp [Program.packageName, twoUtils, get?_cons, hpath]
  · intro path import'
    by_cases hpath : "p" = path
    · simp only [Program.importsOf, twoUtils, get?_cons, hpath, if_true, Option.map_some,
        Option.getD_some, mem_cons, not_mem_nil]
      tauto
    · simp [Program.importsOf, twoUtils, get?_cons, hpath]
  · intro root
    simp [or_comm]

end NameTable

end DeclBridge
