import DeclBridge.Program.Program
import DeclBridge.Proofs.Types

/-!
# Symbols of a program

A symbol is complete if the type that its definition is written from is there.  `Program.typeParts`
holds the types of all declarations with their parts, and with a declared type what is known of it.
-/

namespace DeclBridge

variable {s : Symbol} {t : Ty} {id : SymbolId}

/-- The type that a definition is written from. -/
def TypeInfo.written (info : TypeInfo) : Option Ty :=
  if info.isAlias then info.rhs else info.underlying

/-- Whether the type that a symbol's definition is written from is there. -/
def Symbol.IsComplete (s : Symbol) : Prop :=
  ∀ info, s.body = .type info → info.written.isSome

theorem Symbol.body_of_typeInfo? {info : TypeInfo} (h : s.typeInfo? = some info) :
    s.body = .type info := by
  rw [typeInfo?] at h
  split at h
  · cases h
    assumption
  · cases h

namespace Program

variable {p : Program}

theorem mem_symbols {path name : String} {package : Package}
    (hpackage : p.packages.get? path = some package) (hs : package.symbols.get? name = some s) :
    s ∈ p.symbols :=
  List.mem_flatMap.2 ⟨package, Table.mem_values_of_get? hpackage, Table.mem_values_of_get? hs⟩

theorem mem_typeParts {u : Ty} (hs : s ∈ p.symbols) (ht : t ∈ s.types)
    (hu : u ∈ t.parts) : u ∈ p.typeParts :=
  List.mem_flatMap.2 ⟨t, List.mem_flatMap.2 ⟨s, hs, ht⟩, hu⟩

theorem typeParts_closed {u : Ty} (ht : t ∈ p.typeParts) (hu : u ∈ t.parts) : u ∈ p.typeParts := by
  obtain ⟨whole, hwhole, ht⟩ := List.mem_flatMap.1 ht
  exact List.mem_flatMap.2 ⟨whole, hwhole, Ty.parts_trans ht hu⟩

theorem typeInfo_eq (h : (p.typeInfo id).underlying = some t) :
    ∃ path package s, id.package = some path ∧ p.packages.get? path = some package ∧
      package.symbols.get? id.name = some s ∧ s.body = .type (p.typeInfo id) := by
  rw [typeInfo] at h ⊢
  split at h
  · rename_i package hpackage
    obtain ⟨path, hpath, hpackage⟩ := Option.bind_eq_some_iff.1 hpackage
    cases hs : package.symbols.get? id.name with
    | none =>
      rw [hs] at h
      cases h
    | some s =>
      refine ⟨path, package, s, hpath, hpackage, hs, ?_⟩
      simp only [hs, Option.bind_some] at h ⊢
      rw [Symbol.typeInfo?] at h ⊢
      cases hbody : s.body with
      | const value type =>
        rw [hbody] at h
        cases h
      | type info => rfl
  · cases h

theorem underlying_mem_typeParts {u : Ty}
    (h : (p.typeInfo id).underlying = some t) (hu : u ∈ t.parts) : u ∈ p.typeParts := by
  obtain ⟨path, package, s, -, hpackage, hs, hbody⟩ := typeInfo_eq h
  refine mem_typeParts (mem_symbols hpackage hs) ?_ hu
  simp [Symbol.types, hbody, h]

end Program

end DeclBridge
