import DeclBridge.Table
import Mathlib.Data.List.Nodup

/-!
# Laws of tables

A table is read through `get?`, and each operation has one equation that says what `get?` gives
after it.  These equations hold of every list of entries.  A table that was built by insertion also
has no key twice (`Table.Distinct`), and then an entry of the list is the value of its key.
-/

namespace DeclBridge

open List

theorem countP_lt_of_mem {α : Type} {l : List α} {p q : α → Bool} {a : α} (ha : a ∈ l)
    (h : ∀ b, q b = true → p b = true) (hp : p a = true) (hq : q a = false) :
    l.countP q < l.countP p := by
  obtain ⟨before, after, rfl⟩ := append_of_mem ha
  have hbefore := countP_mono_left (l := before) fun b _ => h b
  have hafter := countP_mono_left (l := after) fun b _ => h b
  simp only [countP_append, countP_cons, hp, hq, Bool.false_eq_true, if_false, if_true]
  omega

namespace Table

variable {κ α : Type} [DecidableEq κ]

variable {t t' : Table κ α} {k k' : κ} {v : α} {β : Type} {entries : List (κ × α)}

/-! ## Reading after an operation -/

@[simp] theorem get?_nil (k : κ) : (⟨[]⟩ : Table κ α).get? k = none := rfl

theorem get?_cons (k' : κ) (v : α) (entries : List (κ × α)) (k : κ) :
    (⟨(k', v) :: entries⟩ : Table κ α).get? k =
      if k' = k then some v else (⟨entries⟩ : Table κ α).get? k := by
  by_cases h : k' = k
  · simp [get?, h]
  · simp [get?, h]

theorem get?_insert (t : Table κ α) (k : κ) (v : α) (k' : κ) :
    (t.insert k v).get? k' = if k = k' then some v else t.get? k' := by
  obtain ⟨entries⟩ := t
  induction entries with
  | nil => exact get?_cons k v [] k'
  | cons entry rest ih =>
    obtain ⟨k₀, v₀⟩ := entry
    simp only [insert, insertEntry] at ih ⊢
    by_cases h : k₀ = k
    · subst h
      rw [if_pos rfl, get?_cons, get?_cons]
      split <;> rfl
    · rw [if_neg h, get?_cons, get?_cons, ih]
      by_cases h₀ : k₀ = k'
      · subst h₀
        rw [if_pos rfl, if_neg (Ne.symm h), if_pos rfl]
      · rw [if_neg h₀, if_neg h₀]

@[simp] theorem get?_insert_self (t : Table κ α) (k : κ) (v : α) :
    (t.insert k v).get? k = some v := by
  rw [get?_insert, if_pos rfl]

theorem get?_insert_of_ne (t : Table κ α) (v : α) (h : k ≠ k') :
    (t.insert k v).get? k' = t.get? k' := by
  rw [get?_insert, if_neg h]

theorem get?_modify (t : Table κ α) (k : κ) (f : α → α) (k' : κ) :
    (t.modify k f).get? k' = if k = k' then (t.get? k').map f else t.get? k' := by
  obtain ⟨entries⟩ := t
  induction entries with
  | nil => simp [modify]
  | cons entry rest ih =>
    obtain ⟨k₀, v₀⟩ := entry
    simp only [modify, map_cons] at ih ⊢
    by_cases h : k₀ = k
    · subst h
      rw [if_pos rfl, get?_cons, get?_cons, ih]
      by_cases h₀ : k₀ = k' <;> simp [h₀]
    · rw [if_neg h, get?_cons, get?_cons, ih]
      by_cases h₀ : k₀ = k'
      · subst h₀
        rw [if_pos rfl, if_neg (Ne.symm h), if_pos rfl]
      · rw [if_neg h₀, if_neg h₀]

theorem get?_modify_of_ne (t : Table κ α) (f : α → α) (h : k ≠ k') :
    (t.modify k f).get? k' = t.get? k' := by
  rw [get?_modify, if_neg h]

theorem contains_iff : t.contains k = true ↔ ∃ v, t.get? k = some v :=
  Option.isSome_iff_exists

theorem contains_insert (t : Table κ α) (k : κ) (v : α) (k' : κ) :
    (t.insert k v).contains k' = true ↔ t.contains k' = true ∨ k' = k := by
  rw [contains, get?_insert]
  split
  · simp [*]
  · rename_i hne
    simp [contains, Ne.symm hne]

theorem contains_of_get? (h : t.get? k = some v) : t.contains k = true :=
  contains_iff.2 ⟨v, h⟩

theorem mem_entries_of_get? (h : t.get? k = some v) : (k, v) ∈ t.entries := by
  obtain ⟨entry, hfind, rfl⟩ := Option.map_eq_some_iff.1 h
  have hkey : entry.1 = k := by simpa using find?_some hfind
  subst hkey
  exact mem_of_find?_eq_some hfind

theorem mem_values_of_get? (h : t.get? k = some v) : v ∈ t.values :=
  mem_map_of_mem (mem_entries_of_get? h)

theorem mem_keys_iff : k ∈ t.keys ↔ t.contains k = true := by
  rw [contains, get?, Option.isSome_map, find?_isSome, keys, mem_map]
  simp

theorem mem_of_get?_ofList (h : (ofList entries).get? k = some v) : (k, v) ∈ entries := by
  have hfold : ∀ t : Table κ α,
      (entries.foldl (fun t e => t.insert e.1 e.2) t).get? k = some v →
      t.get? k = some v ∨ (k, v) ∈ entries := by
    clear h
    induction entries with
    | nil => exact fun t h => .inl h
    | cons entry rest ih =>
      intro t h
      rcases ih _ h with h | h
      · rw [get?_insert] at h
        split at h
        · cases h
          subst ‹entry.1 = k›
          exact .inr mem_cons_self
        · exact .inl h
      · exact .inr (mem_cons_of_mem _ h)
  rcases hfold empty h with h | h
  · cases h
  · exact h

theorem contains_ofList : (ofList entries).contains k = true ↔ k ∈ entries.map (·.1) := by
  suffices h : ∀ t : Table κ α, (entries.foldl (fun t e => t.insert e.1 e.2) t).contains k = true ↔
      t.contains k = true ∨ k ∈ entries.map (·.1) by
    rw [ofList, h empty]
    exact or_iff_right (fun hempty => nomatch hempty)
  induction entries with
  | nil => simp
  | cons e entries ih =>
    intro t
    rw [foldl_cons, ih, contains_insert, map_cons, mem_cons, or_assoc]

theorem get?_ofList_map (f : α → β) (entries : List (κ × α)) (k : κ) :
    (ofList (entries.map fun e => (e.1, f e.2))).get? k = ((ofList entries).get? k).map f := by
  suffices h : ∀ (t : Table κ α) (t' : Table κ β), (∀ k, t'.get? k = (t.get? k).map f) →
      ((entries.map fun e => (e.1, f e.2)).foldl (fun t e => t.insert e.1 e.2) t').get? k =
        ((entries.foldl (fun t e => t.insert e.1 e.2) t).get? k).map f from
    h empty empty fun _ => rfl
  induction entries with
  | nil => exact fun t t' h => h k
  | cons e entries ih =>
    intro t t' h
    refine ih _ _ fun k' => ?_
    rw [get?_insert, get?_insert, h k']
    split <;> rfl

def mapValues {β : Type} (f : α → β) (t : Table κ α) : Table κ β :=
  ⟨t.entries.map fun e => (e.1, f e.2)⟩

theorem get?_mapValues (f : α → β) (t : Table κ α) (k : κ) :
    (t.mapValues f).get? k = (t.get? k).map f := by
  rw [get?, mapValues, find?_map, get?, Option.map_map, Option.map_map]
  rfl

omit [DecidableEq κ] in
theorem keys_mapValues (f : α → β) (t : Table κ α) : (t.mapValues f).keys = t.keys := by
  rw [keys, mapValues, map_map]
  rfl

theorem modify_of_not_contains (h : t.contains k = false) (f : α → α) : t.modify k f = t := by
  obtain ⟨entries⟩ := t
  rw [modify, mk.injEq]
  refine map_congr_left (g := id) (fun entry hentry => if_neg fun hk => ?_) |>.trans
    (map_id _)
  have hmem : k ∈ (⟨entries⟩ : Table κ α).keys := hk ▸ mem_map_of_mem hentry
  rw [mem_keys_iff, h] at hmem
  cases hmem

/-- Taking out what was put in under a new key leaves the table as it was. -/
theorem erase_insert (h : t.contains k = false) (v : α) : (t.insert k v).erase k = t := by
  obtain ⟨entries⟩ := t
  rw [insert, erase, mk.injEq]
  induction entries with
  | nil => simp [insertEntry]
  | cons entry rest ih =>
    obtain ⟨k₀, v₀⟩ := entry
    rw [contains, get?_cons] at h
    by_cases h₀ : k₀ = k
    · rw [if_pos h₀] at h
      cases h
    · rw [if_neg h₀] at h
      rw [insertEntry, if_neg h₀, filter_cons_of_pos (by simpa using h₀), ih h]

/-! ## Tables without repeated keys -/

/-- No key has two entries. -/
def Distinct (t : Table κ α) : Prop := t.keys.Nodup

omit [DecidableEq κ] in
theorem distinct_empty : (⟨[]⟩ : Table κ α).Distinct := nodup_nil

theorem keys_insertEntry (k : κ) (v : α) (entries : List (κ × α)) :
    (insertEntry k v entries).map (·.1) =
      if k ∈ entries.map (·.1) then entries.map (·.1) else entries.map (·.1) ++ [k] := by
  induction entries with
  | nil => simp [insertEntry]
  | cons entry rest ih =>
    obtain ⟨k₀, v₀⟩ := entry
    simp only [insertEntry, map_cons]
    by_cases h : k₀ = k
    · simp [h]
    · rw [if_neg h, map_cons, ih]
      by_cases hmem : k ∈ rest.map (·.1)
      · rw [if_pos hmem, if_pos (mem_cons_of_mem _ hmem)]
      · rw [if_neg hmem, if_neg (by simp [Ne.symm h, hmem]), cons_append]

theorem keys_insert (t : Table κ α) (k : κ) (v : α) :
    (t.insert k v).keys = if k ∈ t.keys then t.keys else t.keys ++ [k] :=
  keys_insertEntry k v t.entries

theorem keys_modify (t : Table κ α) (k : κ) (f : α → α) : (t.modify k f).keys = t.keys := by
  simp only [modify, keys, map_map]
  apply map_congr_left
  intro entry _
  simp only [Function.comp_apply]
  split <;> rfl

theorem Distinct.insert (h : t.Distinct) (k : κ) (v : α) : (t.insert k v).Distinct := by
  rw [Distinct, keys_insert]
  split
  · exact h
  · exact List.Nodup.append h (nodup_singleton k) (by simpa using ‹k ∉ t.keys›)

theorem Distinct.modify (h : t.Distinct) (k : κ) (f : α → α) : (t.modify k f).Distinct := by
  rwa [Distinct, keys_modify]

/-- In a table without repeated keys every entry is the value of its key. -/
theorem Distinct.get?_of_mem (h : t.Distinct) (hmem : (k, v) ∈ t.entries) : t.get? k = some v := by
  obtain ⟨entries⟩ := t
  induction entries with
  | nil => exact absurd hmem not_mem_nil
  | cons entry rest ih =>
    obtain ⟨k₀, v₀⟩ := entry
    simp only [Distinct, keys, map_cons, nodup_cons] at h ih
    rw [get?_cons]
    rcases mem_cons.1 hmem with heq | htail
    · obtain ⟨rfl, rfl⟩ := Prod.mk.inj heq
      rw [if_pos rfl]
    · have hne : k₀ ≠ k := fun heq => h.1 (heq ▸ mem_map_of_mem htail)
      rw [if_neg hne]
      exact ih h.2 htail

theorem entries_insert (h : k ∉ t.keys) (v : α) :
    (t.insert k v).entries = t.entries ++ [(k, v)] := by
  obtain ⟨entries⟩ := t
  rw [insert]
  induction entries with
  | nil => rfl
  | cons entry rest ih =>
    obtain ⟨k₀, v₀⟩ := entry
    simp only [keys, map_cons, mem_cons, not_or] at h
    have hne : k₀ ≠ k := fun heq => h.1 heq.symm
    dsimp only at ih ⊢
    rw [insertEntry, if_neg hne, ih h.2, cons_append]

/-- In tables without repeated keys the order of the entries does not matter to a key's value. -/
theorem Distinct.get?_of_perm (h : t.Distinct)
    (hperm : t'.entries.Perm t.entries) (k : κ) : t'.get? k = t.get? k := by
  have h' : t'.Distinct := by
    rw [Distinct, keys, (hperm.map _).nodup_iff]
    exact h
  cases hk : t.get? k with
  | some v => exact h'.get?_of_mem (hperm.mem_iff.2 (mem_entries_of_get? hk))
  | none =>
    cases hk' : t'.get? k with
    | none => rfl
    | some v =>
      rw [h.get?_of_mem (hperm.mem_iff.1 (mem_entries_of_get? hk'))] at hk
      cases hk

/-- The same of tables whose entries agree once their values are changed. -/
theorem Distinct.get?_mapValues_of_perm {f : α → β} (h : t.Distinct)
    (hperm : (t'.mapValues f).entries.Perm (t.mapValues f).entries) (k : κ) :
    (t'.mapValues f).get? k = (t.get? k).map f := by
  have hdistinct : (t.mapValues f).Distinct := by rwa [Distinct, keys_mapValues]
  rw [hdistinct.get?_of_perm hperm, get?_mapValues]

theorem modify_congr (h : t.Distinct) (hv : t.get? k = some v)
    {f g : α → α} (hfg : f v = g v) : t.modify k f = t.modify k g := by
  rw [modify, modify, mk.injEq]
  refine map_congr_left fun entry hentry => ?_
  by_cases hk : entry.1 = k
  · have hget := h.get?_of_mem (k := entry.1) (v := entry.2) hentry
    rw [hk, hv, Option.some.injEq] at hget
    simp only [hk, if_true, ← hget, hfg]
  · simp only [hk, if_false]

end Table

end DeclBridge
