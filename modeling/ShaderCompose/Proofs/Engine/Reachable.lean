import ShaderCompose.Engine
import ShaderCompose.Proofs.Check.Context
import ShaderCompose.Proofs.Module.Copy

/-!
The engines that come about, and what holds of all of them.
-/

namespace ShaderCompose

open List ShaderCompose.Module

/-! ## Numbers that a load stays away from -/

structure Loading.Avoids (ids : List Nat) (s : Loading) : Prop where
  taken : ∀ i ∈ ids, i < s.library.next
  free : ∀ a : Module, a.Among s.modules → a.id ∉ ids

namespace Loading.Avoids

variable {ids : List Nat} {s t : Loading}

theorem mono (h : s.Avoids ids) (hnext : t.library.next = s.library.next)
    (hmodules : t.modules ⊆ s.modules) : t.Avoids ids where
  taken i hi := hnext ▸ h.taken i hi
  free a ha := by
    obtain ⟨m, hm, hpart⟩ := ha
    exact h.free a ⟨m, hmodules hm, hpart⟩

end Loading.Avoids

theorem loadBy_avoids {ids : List Nat} {l : Library} (h : ({ library := l } : Loading).Avoids ids)
    (plan : LoadPlan) (r : Request) : (l.loadBy plan r).Avoids ids where
  taken i hi := Nat.lt_of_lt_of_le (h.taken i hi) (loadBy_next_le plan l r)
  free a ha := by
    have free : ∀ n, l.next ≤ n → n ∉ ids := fun n hn hi => Nat.not_lt.mpr hn (h.taken n hi)
    exact loadBy_among (p := fun a => a.id ∉ ids) (fun _ _ _ _ _ n _ => free n) (fun _ _ n => free n) h.free r ha

/-! ## Engines -/

namespace Engine

/-- The engines that come about. -/
inductive Reachable : Engine → Prop
  | new (store : SourceStore) (options : Options) : Reachable { library := { store }, options }
  | addBuiltin {e e' : Engine} (source : String) : Reachable e → e.addBuiltin source = .ok e' → Reachable e'
  | compile {e : Engine} (r : Request) (macros : List MacroDef) : Reachable e → Reachable (e.compile r macros).2
  | analyze {e : Engine} (r : Request) (macros : List MacroDef) : Reachable e → Reachable (e.analyze r macros).2
  | evict {e : Engine} (names : List String) : Reachable e → Reachable (e.evict names)
  | edit {e : Engine} (store : SourceStore) : Reachable e → Reachable { e with library := { e.library with store } }

variable {e : Engine}

theorem Reachable.addBuiltin_getD (h : e.Reachable) (source : String) :
    ((e.addBuiltin source).toOption.getD e).Reachable := by
  cases hadd : e.addBuiltin source with
  | error cause => exact h
  | ok e' => exact .addBuiltin source h hadd

theorem addBuiltin_ok {e e' : Engine} {source : String} (h : e.addBuiltin source = .ok e') :
    ∃ (text : String) (classes : List ShaderClass), e' = { e with
      library := { e.library with next := e.library.next + classes.length }
      builtins := e.builtins ++ classes.zipIdx.map fun (cls, i) =>
        { id := e.library.next + i, key := ⟨cls.name, [], []⟩, cls, bases := [], digest := .ofString text } } := by
  unfold addBuiltin at h
  split at h
  · cases h
  · dsimp only at h
    split at h
    · cases h
    · split at h <;> cases h
      exact ⟨_, _, rfl⟩

def plan (e : Engine) (r : Request) (macros : List MacroDef) : LoadPlan :=
  ⟨macros ++ r.collectMacros, e.options.fillGenerics, fun _ _ => []⟩

def loading (e : Engine) (r : Request) (macros : List MacroDef) : Loading :=
  e.library.loadBy (e.plan r macros) r

def contextOf (e : Engine) (r : Request) (macros : List MacroDef) : Context :=
  .make (e.loading r macros).loaded e.builtins (macros ++ r.collectMacros)

def loaded (e : Engine) (r : Request) (macros : List MacroDef) : Engine :=
  { e with library := (e.loading r macros).library }

def orderedContext (e : Engine) (r : Request) : Context :=
  ⟨(e.loading r []).loaded.map fun entry => entry.2.known, e.builtins, r.collectMacros⟩

theorem contextOf_sorted {r : Request} (h : (e.loading r []).loaded.Sorted) :
    e.contextOf r [] = e.orderedContext r := Context.make_of_sorted h

theorem check_engine (e : Engine) (r : Request) (macros : List MacroDef) :
    (e.check r macros).2.2 = e.loaded r macros := by
  unfold check
  dsimp only
  split <;> rfl

theorem compile_engine (e : Engine) (r : Request) (macros : List MacroDef) :
    (e.compile r macros).2 = e.loaded r macros := by
  rw [← check_engine, compile]
  generalize e.check r macros = checked
  obtain ⟨context, outcome, e'⟩ := checked
  cases context with
  | none => rfl
  | some context =>
    dsimp only
    split <;> rfl

structure Sound (e : Engine) : Prop where
  grounded : e.library.Grounded
  numbered : Numbered e.library.next e.library.cache.modules
  builtins : ∀ b ∈ e.builtins, b.bases = []
  avoids : ({ library := e.library } : Loading).Avoids (e.builtins.map Module.id)

theorem Sound.loading (h : e.Sound) (r : Request) (macros : List MacroDef) :
    (e.loading r macros).Sound [] (macros ++ r.collectMacros) :=
  @loadBy_sound [] e.library h.grounded h.numbered (e.plan r macros) r

theorem Sound.loaded (h : e.Sound) (r : Request) (macros : List MacroDef) :
    (e.loaded r macros).Sound := by
  have hsound := h.loading r macros
  have havoids := loadBy_avoids h.avoids (e.plan r macros) r
  refine ⟨hsound.grounded, hsound.numbered.subset fun _ hm =>
    mem_append_right _ (mem_append_left _ hm), h.builtins, havoids.mono rfl ?_⟩
  exact append_subset.mpr ⟨fun _ hm => mem_append_left _ hm, nil_subset _⟩

theorem Sound.addBuiltin {e e' : Engine} (h : e.Sound) {source : String}
    (hadd : e.addBuiltin source = .ok e') : e'.Sound := by
  obtain ⟨text, classes, rfl⟩ := addBuiltin_ok hadd
  refine ⟨h.grounded.of_cache rfl, h.numbered.mono (Nat.le_add_right _ _), ?_, ?_, ?_⟩
  · intro b hb
    rcases mem_append.mp hb with hb | hb
    · exact h.builtins b hb
    · obtain ⟨_, -, rfl⟩ := mem_map.mp hb
      rfl
  · intro i hi
    rw [map_append] at hi
    rcases mem_append.mp hi with hi | hi
    · exact Nat.lt_of_lt_of_le (h.avoids.taken i hi) (Nat.le_add_right _ _)
    · rw [map_map] at hi
      obtain ⟨⟨cls, n⟩, hmem, rfl⟩ := mem_map.mp hi
      have := snd_lt_of_mem_zipIdx hmem
      simpa using this
  · intro a ha hi
    rw [map_append] at hi
    rcases mem_append.mp hi with hi | hi
    · exact h.avoids.free a ha hi
    · rw [map_map] at hi
      obtain ⟨⟨cls, n⟩, -, hid⟩ := mem_map.mp hi
      obtain ⟨m, hm, hpart⟩ := ha
      have hm : m ∈ e.library.cache.modules := by
        simpa [Loading.modules, Cache.modules] using hm
      have := h.numbered.below m hm a hpart
      simp only [Function.comp_apply] at hid
      omega

theorem Reachable.sound (h : e.Reachable) : e.Sound := by
  induction h with
  | new store options =>
    refine ⟨.empty rfl, .nil _, forall_mem_nil _, forall_mem_nil _, ?_⟩
    exact fun _ _ => not_mem_nil
  | addBuiltin source _ hadd ih => exact ih.addBuiltin hadd
  | compile r macros _ ih =>
    rw [compile_engine]
    exact ih.loaded r macros
  | analyze r macros _ ih =>
    rw [Engine.analyze, check_engine]
    exact ih.loaded r macros
  | evict names _ ih =>
    refine ⟨ih.grounded.evict names,
      ih.numbered.subset (Cache.modules_subset (Library.evict_cache_subset _ names)), ih.builtins,
      ih.avoids.mono rfl ?_⟩
    refine append_subset.mpr ⟨fun m hm => mem_append_left _ ?_, nil_subset _⟩
    exact Cache.modules_subset (Library.evict_cache_subset _ names) hm
  | edit store _ ih =>
    exact ⟨ih.grounded.of_cache rfl, ih.numbered, ih.builtins, ih.avoids.mono rfl fun _ hm => hm⟩

end Engine

end ShaderCompose
