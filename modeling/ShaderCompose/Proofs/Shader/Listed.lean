import Mathlib.Data.List.Basic
import ShaderCompose.Lang.Decl

/-!
The declarations of a shader, at the top level and in constant buffers.
-/

namespace ShaderCompose

open List

def Decl.inner (d : Decl) : List DeclId :=
  match d.kind with
  | .buffer _ members => members
  | _ => []

namespace Shader

def listed (s : Shader) : List DeclId := s.entries.flatMap fun (id, d) => d.inner ++ [id]

def declared (s : Shader) : List Decl := s.select s.listed

def Declares (s : Shader) (name : String) : Prop := ∃ d ∈ s.declared, d.name = name

variable {s : Shader}

theorem mem_entries {id : DeclId} {d : Decl} :
    (id, d) ∈ s.entries ↔ id ∈ s.declarations ∧ s.table[id]? = some d := by
  simp only [entries, mem_filterMap, Option.map_eq_some_iff, Prod.mk.injEq]
  constructor
  · rintro ⟨i, hi, d', hd', rfl, rfl⟩
    exact ⟨hi, hd'⟩
  · rintro ⟨hi, hd⟩
    exact ⟨id, hi, d, hd, rfl, rfl⟩

theorem mem_decls {d : Decl} : d ∈ s.decls ↔ ∃ id ∈ s.declarations, s.table[id]? = some d := by
  simp only [decls, mem_map, Prod.exists, mem_entries, exists_eq_right]

theorem mem_listed {i : DeclId} :
    i ∈ s.listed ↔ ∃ id d, id ∈ s.declarations ∧ s.table[id]? = some d ∧ (i ∈ d.inner ∨ i = id) := by
  simp only [listed, mem_flatMap, Prod.exists, mem_entries, mem_append, mem_singleton, and_assoc]

theorem mem_declared {d : Decl} : d ∈ s.declared ↔ ∃ i ∈ s.listed, s.table[i]? = some d := mem_filterMap

theorem listed_map (table : Array Decl) (declarations : List DeclId) {f : Decl → Decl}
    (hf : ∀ d, (f d).inner = d.inner) :
    (⟨table.map f, declarations⟩ : Shader).listed = (⟨table, declarations⟩ : Shader).listed := by
  have hentries : (⟨table.map f, declarations⟩ : Shader).entries =
      (⟨table, declarations⟩ : Shader).entries.map fun e => (e.1, f e.2) := by
    simp only [entries, map_filterMap]
    refine filterMap_congr fun id _ => ?_
    rw [Array.getElem?_map, Option.map_map, Option.map_map]
    rfl
  simp only [listed, hentries, flatMap_map, hf]

end Shader

namespace ShaderClass

variable {c : ShaderClass} {id : DeclId} {d : Decl}

theorem mem_memberDecls : (id, d) ∈ c.memberDecls ↔ id ∈ c.members ∧ c.table[id]? = some d := by
  simp only [memberDecls, mem_filterMap, Option.map_eq_some_iff, Prod.mk.injEq]
  constructor
  · rintro ⟨i, hi, d', hd', rfl, rfl⟩
    exact ⟨hi, hd'⟩
  · rintro ⟨hi, hd⟩
    exact ⟨id, hi, d, hd, rfl, rfl⟩

theorem mem_methods : (id, d) ∈ c.methods ↔ id ∈ c.members ∧ c.table[id]? = some d ∧ d.isMethod = true := by
  rw [methods, mem_filter, mem_memberDecls, and_assoc]

theorem mem_vars : (id, d) ∈ c.vars ↔ c.table[id]? = some d ∧ d.isVar = true := by
  simp only [vars, entries, mem_filter, mem_map, Prod.exists, Prod.mk.injEq,
    mk_mem_zipIdx_iff_getElem?, Array.getElem?_toList]
  constructor
  · rintro ⟨⟨d', i, hd', rfl, rfl⟩, hvar⟩
    exact ⟨hd', hvar⟩
  · rintro ⟨hd, hvar⟩
    exact ⟨⟨d, id, hd, rfl, rfl⟩, hvar⟩

end ShaderClass

end ShaderCompose
