import DeclBridge.Proofs.Table
import DeclBridge.Program.Program
import Mathlib.Algebra.GroupWithZero.Nat
import Mathlib.Logic.Relation

/-!
# What can be reached in the import graph

`Program.Reaches` is the relation between a package and those it imports, directly or through
others.  The depth-first walk of `Program.visit` has a count that bounds its steps.  Every step
takes a path from the stack, and what is put on it are the imports of packages not visited before,
so the number of those imports and the height of the stack bound the steps that are left.  With
such a count the walk has the order of the recursion (`visit_preorder`), `Program.Preorder`, from
which it is read off that it comes to everything that can be reached and to nothing else
(`mem_reachable_iff`).
-/

namespace DeclBridge.Program

open List

variable {roots seen stack : List String} {count : Nat} {path : String}

def Imports (p : Program) (a b : String) : Prop := b ∈ p.importsOf a

/-- A package imports another, directly or through others. -/
def Reaches (p : Program) : String → String → Prop := Relation.ReflTransGen p.Imports

/-- The number of imports of the packages in a list that were not visited. -/
def importsLeft (seen : List String) (entries : List (String × Package)) : Nat :=
  (entries.map fun e => if e.1 ∈ seen then 0 else e.2.imports.length).sum

theorem importsLeft_nil (entries : List (String × Package)) :
    importsLeft [] entries = (entries.flatMap (·.2.imports)).length := by
  simp [importsLeft, length_flatMap]

/-- A visit moves the imports of a package out of those that are left. -/
theorem importsLeft_cons_le (path : String) (h : path ∉ seen) (entries : List (String × Package)) :
    ((((⟨entries⟩ : Table String Package).get? path).map (·.imports)).getD []).length +
      importsLeft (path :: seen) entries ≤ importsLeft seen entries := by
  induction entries with
  | nil => simp [importsLeft]
  | cons entry rest ih =>
    obtain ⟨k, package⟩ := entry
    rw [Table.get?_cons]
    simp only [importsLeft, map_cons, sum_cons] at ih ⊢
    by_cases hk : k = path
    · subst hk
      rw [if_pos rfl, if_pos mem_cons_self, if_neg h, Option.map_some, Option.getD_some]
      omega
    · rw [if_neg hk]
      have hmem : k ∈ path :: seen ↔ k ∈ seen := by simp [hk]
      simp only [hmem]
      omega

/-! ## The order of the walk -/

/-- The order of the recursive depth-first walk: a path that was not visited before comes first,
then what its imports lead to, then what the rest of the list leads to.  The last path visited
stands at the head of `seen`. -/
inductive Preorder (p : Program) : (seen work order : List String) → Prop
  | nil {seen : List String} : Preorder p seen [] []
  | skip {seen work order : List String} {path : String} (hseen : path ∈ seen)
    (h : Preorder p seen work order) : Preorder p seen (path :: work) order
  | visit {seen work below after : List String} {path : String} (hnew : path ∉ seen)
    (hbelow : Preorder p (path :: seen) (p.importsOf path) below)
    (hafter : Preorder p (below.reverse ++ path :: seen) work after) :
    Preorder p seen (path :: work) (path :: (below ++ after))

namespace Preorder

variable {p : Program} {old work work' order order' : List String}

theorem unique (h : p.Preorder seen work order) (h' : p.Preorder seen work order') :
    order = order' := by
  induction h generalizing order' with
  | nil => cases h'; rfl
  | skip hseen _ ih =>
    cases h' with
    | skip _ h' => exact ih h'
    | visit hnew => exact absurd hseen hnew
  | visit hnew _ _ ihbelow ihafter =>
    cases h' with
    | skip hseen => exact absurd hseen hnew
    | visit _ hbelow' hafter' =>
      obtain rfl := ihbelow hbelow'
      rw [ihafter hafter']

theorem exists_append (h : p.Preorder seen (work ++ work') order) : ∃ first second,
    order = first ++ second ∧ p.Preorder seen work first ∧
      p.Preorder (first.reverse ++ seen) work' second := by
  induction work generalizing seen order with
  | nil => exact ⟨[], order, rfl, .nil, h⟩
  | cons path work ih =>
    cases h with
    | skip hseen h =>
      obtain ⟨first, second, rfl, hfirst, hsecond⟩ := ih h
      exact ⟨first, second, rfl, .skip hseen hfirst, hsecond⟩
    | @visit _ _ below _ _ hnew hbelow hafter =>
      obtain ⟨first, second, rfl, hfirst, hsecond⟩ := ih hafter
      refine ⟨path :: (below ++ first), second, by simp, .visit hnew hbelow hfirst, ?_⟩
      simpa using hsecond

theorem of_filter (hold : old ⊆ seen) (h : p.Preorder seen (work.filter (· ∉ old)) order) :
    p.Preorder seen work order := by
  induction work generalizing seen order with
  | nil => exact h
  | cons path work ih =>
    by_cases hpath : path ∈ old
    · rw [filter_cons_of_neg (by simpa using hpath)] at h
      exact .skip (hold hpath) (ih hold h)
    · rw [filter_cons_of_pos (by simpa using hpath)] at h
      cases h with
      | skip hseen h => exact .skip hseen (ih hold h)
      | visit hnew hbelow hafter =>
        exact .visit hnew hbelow (ih (fun _ h => by simp [hold h]) hafter)

theorem fresh (h : p.Preorder seen work order) : order.Nodup ∧ ∀ path ∈ order, path ∉ seen := by
  induction h with
  | nil => exact ⟨nodup_nil, forall_mem_nil _⟩
  | skip _ _ ih => exact ih
  | visit hnew _ _ ihbelow ihafter =>
    obtain ⟨hbelow, hbelow'⟩ := ihbelow
    obtain ⟨hafter, hafter'⟩ := ihafter
    simp only [mem_append, mem_reverse, mem_cons, not_or] at hbelow' hafter'
    refine ⟨nodup_cons.2 ⟨fun hmem => ?_, hbelow.append hafter ?_⟩, ?_⟩
    · rcases mem_append.1 hmem with hmem | hmem
      · exact (hbelow' _ hmem).1 rfl
      · exact (hafter' _ hmem).2.1 rfl
    · exact fun path hmem hmem' => (hafter' path hmem').1 hmem
    · refine forall_mem_cons.2 ⟨hnew, forall_mem_append.2 ⟨fun path hmem => ?_, fun path hmem => ?_⟩⟩
      · exact (hbelow' path hmem).2
      · exact (hafter' path hmem).2.2

theorem covers (h : p.Preorder seen work order) : (∀ path ∈ work, path ∈ seen ∨ path ∈ order) ∧
    ∀ path ∈ order, ∀ path' ∈ p.importsOf path, path' ∈ seen ∨ path' ∈ order := by
  induction h with
  | nil => exact ⟨forall_mem_nil _, forall_mem_nil _⟩
  | skip hseen _ ih => exact ⟨forall_mem_cons.2 ⟨.inl hseen, ih.1⟩, ih.2⟩
  | visit _ _ _ ihbelow ihafter => grind

theorem reached (h : p.Preorder seen work order) :
    ∀ path ∈ order, ∃ root ∈ work, p.Reaches root path := by
  induction h with
  | nil => exact forall_mem_nil _
  | skip _ _ ih => exact fun path hpath => (ih path hpath).imp fun _ h => ⟨.tail _ h.1, h.2⟩
  | @visit _ _ _ _ top _ _ _ ihbelow ihafter =>
    refine forall_mem_cons.2 ⟨⟨top, mem_cons_self, .refl⟩, forall_mem_append.2 ⟨?_, ?_⟩⟩
    -- the way to what is below leads through `top`
    · intro path hpath
      obtain ⟨root, hroot, hreach⟩ := ihbelow path hpath
      exact ⟨top, mem_cons_self, .head hroot hreach⟩
    · exact fun path hpath => (ihafter path hpath).imp fun _ h => ⟨.tail _ h.1, h.2⟩

end Preorder

/-- With a count that covers the stack and the imports that are left, the stack is walked in the
order of the recursion.  What the stack holds of packages visited since they were put on it is what
the recursion passes over. -/
theorem visit_preorder (p : Program)
    (hcount : stack.length + importsLeft seen p.packages.entries ≤ count) :
    p.Preorder seen stack (p.visit count seen stack) := by
  induction count generalizing seen stack with
  | zero =>
    obtain rfl : stack = [] := eq_nil_of_length_eq_zero (by omega)
    exact .nil
  | succ count ih =>
    cases stack with
    | nil => exact .nil
    | cons top stack =>
      simp only [length_cons] at hcount
      by_cases hseen : top ∈ seen
      · simp only [visit, if_pos hseen]
        exact .skip hseen (ih (by omega))
      · simp only [visit, if_neg hseen]
        have hleft : (p.importsOf top).length + importsLeft (top :: seen) p.packages.entries ≤
            importsLeft seen p.packages.entries :=
          importsLeft_cons_le top hseen p.packages.entries
        have hfilter := length_filter_le (· ∉ top :: seen) (p.importsOf top)
        have hwalk := @ih (top :: seen) ((p.importsOf top).filter (· ∉ top :: seen) ++ stack) (by
          rw [length_append]
          omega)
        obtain ⟨below, after, horder, hbelow, hafter⟩ := hwalk.exists_append
        rw [horder]
        exact .visit hseen (hbelow.of_filter (Subset.refl _)) hafter

theorem visit_roots_preorder (p : Program) (roots : List String) (extra : Nat) :
    p.Preorder [] roots (p.visit
      (roots.length + (p.packages.values.flatMap (·.imports)).length + extra) [] roots) := by
  refine p.visit_preorder ?_
  rw [importsLeft_nil, Table.values, flatMap_map]
  omega

theorem preorder_reachable (p : Program) (roots : List String) :
    p.Preorder [] roots (p.reachable roots) :=
  p.visit_roots_preorder roots 0

/-- The walk comes to everything that can be reached from its roots. -/
theorem mem_reachable (p : Program) {root : String}
    (hroot : root ∈ roots) (h : p.Reaches root path) : path ∈ p.reachable roots := by
  obtain ⟨hroots, himports⟩ := (p.preorder_reachable roots).covers
  simp only [not_mem_nil, false_or] at hroots himports
  induction h with
  | refl => exact hroots root hroot
  | tail _ hstep ih => exact himports _ ih _ hstep

/-- The walk comes to exactly what can be reached from its roots. -/
theorem mem_reachable_iff (p : Program) :
    path ∈ p.reachable roots ↔ ∃ root ∈ roots, p.Reaches root path :=
  ⟨(p.preorder_reachable roots).reached path, fun ⟨_, hroot, h⟩ => p.mem_reachable hroot h⟩

theorem nodup_reachable (p : Program) (roots : List String) : (p.reachable roots).Nodup :=
  (p.preorder_reachable roots).fresh.1

/-- The walk with a stack ends, and it comes to what can be reached, each path once, in the order of
the recursive walk. -/
theorem reachable_eq_preorder (p : Program) (roots : List String) :
    (∀ order, p.Preorder [] roots order ↔ order = p.reachable roots) ∧
    (∀ extra, p.visit (roots.length + (p.packages.values.flatMap (·.imports)).length + extra) []
      roots = p.reachable roots) ∧ (p.reachable roots).Nodup ∧
    ∀ path, path ∈ p.reachable roots ↔ ∃ root ∈ roots, p.Reaches root path := by
  have hpreorder := p.preorder_reachable roots
  refine ⟨fun order => ⟨fun h => h.unique hpreorder, fun h => h ▸ hpreorder⟩, fun extra => ?_,
    p.nodup_reachable roots, fun path => p.mem_reachable_iff⟩
  exact (p.visit_roots_preorder roots extra).unique hpreorder

end DeclBridge.Program
