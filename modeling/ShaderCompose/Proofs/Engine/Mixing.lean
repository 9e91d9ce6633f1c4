import ShaderCompose.Proofs.Library.Sourced
import ShaderCompose.Proofs.Mix.Coverage
import ShaderCompose.Proofs.Mix.Instances

/-!
The instances that a request is mixed from.
-/

namespace ShaderCompose

open Mix

namespace Context

theorem table?_make {loaded : Cache} {builtins : List Module} {macros : List MacroDef}
    {key : ModuleKey} {table : MemberTable} (h : (make loaded builtins macros).table? key = some table) :
    ∃ entry ∈ loaded, entry.2.key = key ∧ table = .ofModule entry.2.module := by
  obtain ⟨k, hk, rfl⟩ := Option.map_eq_some_iff.mp h
  obtain ⟨hmem, hkey⟩ := mem_of_find? hk
  obtain ⟨entry, hentry, rfl⟩ := mem_classes_make.mp hmem
  exact ⟨entry, hentry, hkey, rfl⟩

end Context

namespace Engine

def instances (e : Engine) (context : Context) (r : Request) : Option (List MixInstance) :=
  match (e.composed context r).1 with
  | some [root] => (instancesOf context (e.composed context r).2.filled root).1
  | _ => none

variable {e : Engine} {context : Context} {r : Request} {macros : List MacroDef}

theorem compose_spec {shader : Shader} (h : (e.compose context r).1 = some shader) :
    ∃ root instances, (e.composed context r).1 = some [root] ∧
      (instancesOf context (e.composed context r).2.filled root).1 = some instances ∧
      (instancesOf context (e.composed context r).2.filled root).2.hasErrors = false ∧
      (emit context.builtins instances).2.hasErrors = false ∧
      shader = (emit context.builtins instances).1 := by
  unfold compose at h
  generalize e.composed context r = one at h ⊢
  obtain ⟨roots, s⟩ := one
  dsimp only at h ⊢
  split at h
  · cases h
  · split at h
    · cases h
    · next root =>
      obtain ⟨instances, hinstances, hquiet, hlog, hshader⟩ := mix_eq_some h
      exact ⟨root, instances, rfl, hinstances, hquiet, hlog, hshader⟩
    · cases h

theorem compose_eq_some {shader : Shader} (h : (e.compose context r).1 = some shader) :
    ∃ instances, e.instances context r = some instances ∧ (emit context.builtins instances).2.hasErrors = false ∧
      shader = (emit context.builtins instances).1 := by
  obtain ⟨root, instances, hroot, hinstances, -, hlog, hshader⟩ := compose_spec h
  refine ⟨instances, ?_, hlog, hshader⟩
  rw [Engine.instances, hroot]
  exact hinstances

variable {instances : List MixInstance}

theorem instances_made (h : e.instances context r = some instances) :
    ∃ root, (e.composed context r).1 = some [root] ∧ ∀ n i, instances[n]? = some i →
      ∃ m, InTree (e.composed context r).2.filled root m ∧
        MadeOf context (e.composed context r).2.filled instances n i m := by
  unfold Engine.instances at h
  split at h
  · next root hroot => exact ⟨root, hroot, instancesOf_made h⟩
  · cases h

theorem instances_loaded
    (h : (e.loaded r macros).instances (e.contextOf r macros) r = some instances) {i : MixInstance}
    (hi : i ∈ instances) : i.names = .ofTable i.label i.table ∧
      ∃ entry ∈ (e.loading r macros).loaded, i.table = .ofModule entry.2.module := by
  obtain ⟨n, hn⟩ := List.mem_iff_getElem?.mp hi
  obtain ⟨root, -, hmade⟩ := instances_made h
  obtain ⟨m, -, hm⟩ := hmade n i hn
  obtain ⟨entry, hentry, -, htable⟩ := Context.table?_make hm.table
  exact ⟨hm.names, entry, hentry, htable⟩

theorem Reachable.layout (h : e.Reachable) {entry : ModuleKey × LoadedClass}
    (hentry : entry ∈ (e.loading r macros).loaded) {cls : ShaderClass}
    (hcls : cls ∈ (MemberTable.ofModule entry.2.module).classes) : cls.Layout := by
  rw [MemberTable.classes_ofModule] at hcls
  obtain ⟨a, ha, rfl⟩ := List.mem_map.mp hcls
  refine (h.sourced r macros ⟨entry.2.module, ?_, Module.part_of_mem_hierarchy ha⟩).layout
  exact List.mem_append_right _ (Cache.mem_modules hentry)

theorem Reachable.orderly (h : e.Reachable)
    (his : (e.loaded r macros).instances (e.contextOf r macros) r = some instances) :
    ∀ i ∈ instances, i.Orderly := by
  intro i hi
  obtain ⟨hnames, entry, hentry, htable⟩ := instances_loaded his hi
  refine ⟨hnames, ?_, fun cls hcls => ?_⟩
  · rw [htable]
    exact MemberTable.ofModule_lists _
  · rw [htable] at hcls
    exact h.layout hentry hcls

def mixesSorted (e : Engine) (r : Request) (test : Shader → List MixInstance → Bool) : Bool :=
  decide (e.loading r []).loaded.Sorted && ((e.loaded r []).compose (e.orderedContext r) r).1.any fun shader =>
    ((e.loaded r []).instances (e.orderedContext r) r).any (test shader)

theorem mixes_of_sorted {test : Shader → List MixInstance → Bool} (h : e.mixesSorted r test = true) :
    ∃ shader instances, ((e.loaded r []).compose (e.contextOf r []) r).1 = some shader ∧
      (e.loaded r []).instances (e.contextOf r []) r = some instances ∧ test shader instances = true := by
  obtain ⟨hsorted, h⟩ := Bool.and_eq_true_iff.mp h
  rw [contextOf_sorted (of_decide_eq_true hsorted)]
  obtain ⟨shader, hmix, h⟩ := (Option.any_eq_true _ _).mp h
  obtain ⟨instances, his, h⟩ := (Option.any_eq_true _ _).mp h
  exact ⟨shader, instances, hmix, his, h⟩

end Engine

end ShaderCompose
