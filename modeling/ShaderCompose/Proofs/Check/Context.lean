import ShaderCompose.Check.Context
import ShaderCompose.Proofs.Library.CachedBases

/-!
The context of a load knows exactly the loaded classes.
-/

namespace ShaderCompose

open List

def LoadedClass.known (c : LoadedClass) : KnownClass := ⟨c, .ofModule c.module⟩

@[simp] theorem LoadedClass.loaded_known (c : LoadedClass) : c.known.loaded = c := rfl

abbrev Cache.Sorted (loaded : Cache) : Prop :=
  (loaded.map (·.2)).Pairwise fun a b => a.key.atMost b.key = true

namespace Context

variable {loaded : Cache} {builtins : List Module} {macros : List MacroDef}

def modules (c : Context) : List Module := c.classes.map fun k => k.loaded.module

theorem mem_classes_make {k : KnownClass} :
    k ∈ (make loaded builtins macros).classes ↔ ∃ e ∈ loaded, k = e.2.known := by
  simp only [make, mem_map, mem_mergeSort, exists_exists_and_eq_and]
  exact exists_congr fun e => and_congr_right fun _ => eq_comm

theorem mem_of_find? {c : Context} {key : ModuleKey} {k : KnownClass} (h : c.find? key = some k) :
    k ∈ c.classes ∧ k.loaded.key = key :=
  ⟨mem_of_find?_eq_some h, by simpa using find?_some h⟩

theorem find?_make (hnodup : (loaded.map (·.1)).Nodup) (hkey : ∀ e ∈ loaded, e.2.key = e.1) (key : ModuleKey) :
    (make loaded builtins macros).find? key = (loaded.lookup key).map LoadedClass.known := by
  cases hfound : loaded.lookup key with
  | none =>
    refine find?_eq_none.mpr fun k hk hkk => ?_
    obtain ⟨e, he, rfl⟩ := mem_classes_make.mp hk
    have hsame : e.1 = key := (hkey e he).symm.trans (by simpa using hkk)
    have hsome := lookup_isSome_of_mem_keys (mem_map_of_mem he)
    rw [hsame, hfound] at hsome
    exact absurd hsome (by simp)
  | some c =>
    have hmem := mem_of_lookup hfound
    have hsome : ((make loaded builtins macros).find? key).isSome := by
      refine find?_isSome.mpr ⟨c.known, mem_classes_make.mpr ⟨_, hmem, rfl⟩, ?_⟩
      simpa using hkey _ hmem
    obtain ⟨k, hk⟩ := Option.isSome_iff_exists.mp hsome
    obtain ⟨hk', hkk⟩ := mem_of_find? hk
    obtain ⟨e, he, rfl⟩ := mem_classes_make.mp hk'
    have hsame : e.1 = key := (hkey e he).symm.trans hkk
    have hlookup := lookup_of_mem hnodup (show (key, e.2) ∈ loaded from hsame ▸ he)
    rw [hk, ← Option.some.inj (hlookup.symm.trans hfound)]
    rfl

theorem make_of_sorted (h : loaded.Sorted) :
    make loaded builtins macros = ⟨loaded.map fun e => e.2.known, builtins, macros⟩ := by
  rw [make, mergeSort_of_pairwise h, map_map]
  rfl

theorem modules_make_subset : (make loaded builtins macros).modules ⊆ loaded.modules := by
  intro m hm
  obtain ⟨k, hk, rfl⟩ := mem_map.mp hm
  obtain ⟨e, he, rfl⟩ := mem_classes_make.mp hk
  exact Cache.mem_modules he

end Context

end ShaderCompose
