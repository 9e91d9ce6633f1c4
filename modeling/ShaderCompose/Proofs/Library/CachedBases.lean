import ShaderCompose.Proofs.Library.Invariant
import ShaderCompose.Proofs.Module.Parts

/-!
Classes in the cache sit on the cached classes (`Library.Grounded`).
-/

namespace ShaderCompose

open List Loading ShaderCompose.Module

def Cache.modules (c : Cache) : List Module := c.map fun e => e.2.module

theorem Cache.mem_modules {c : Cache} {e : ModuleKey × LoadedClass} (h : e ∈ c) : e.2.module ∈ c.modules :=
  mem_map_of_mem h

theorem Cache.modules_subset {c d : Cache} (h : c ⊆ d) : c.modules ⊆ d.modules := map_subset _ h

theorem Cache.modules_setKey (key : ModuleKey) (c : LoadedClass) (cache : Cache) :
    Cache.modules (setKey key c cache) ⊆ c.module :: cache.modules := by
  intro m hm
  obtain ⟨e, he, rfl⟩ := mem_map.mp hm
  rcases mem_setKey he with rfl | he
  · exact mem_cons_self
  · exact mem_cons_of_mem _ (Cache.mem_modules he)

/-- Kept classes inherit from what is kept under their base keys. -/
structure Library.Grounded (l : Library) : Prop where
  nodup : (l.cache.map (·.1)).Nodup
  key : ∀ e ∈ l.cache, e.2.key = e.1
  macros : ∀ e ∈ l.cache, ∀ d ∈ e.2.dependencies, d.macros = e.1.macros
  isMixin : ∀ e ∈ l.cache, e.2.isMixin = false
  bases : ∀ e ∈ l.cache, e.2.baseKeys.map (fun b => (l.cached? b).map LoadedClass.module) = e.2.module.bases.map some

namespace Library.Grounded

variable {l : Library}

theorem empty {l : Library} (h : l.cache = []) : l.Grounded where
  nodup := by simp [h]
  key := by simp [h]
  macros := by simp [h]
  isMixin := by simp [h]
  bases := by simp [h]

theorem of_cache {l' : Library} (h : l.Grounded) (hcache : l'.cache = l.cache) : l'.Grounded := by
  obtain ⟨nodup, key, macros, isMixin, bases⟩ := h
  unfold Library.cached? at bases
  rw [← hcache] at nodup key macros isMixin bases
  exact ⟨nodup, key, macros, isMixin, bases⟩

theorem evict (h : l.Grounded) (names : List String) : (l.evict names).Grounded := by
  obtain ⟨dropped, -, hcache, -, hdropped⟩ := l.evict_cache names
  have hsub := l.evict_cache_subset names
  refine ⟨?_, fun e he => h.key e (hsub he), fun e he => h.macros e (hsub he), fun e he => h.isMixin e (hsub he), ?_⟩
  · rw [hcache]
    exact nodup_keys_filter h.nodup
  · intro e he
    rw [hcache, mem_filter] at he
    obtain ⟨he, hkept⟩ := he
    rw [← h.bases e he]
    refine map_congr_left fun b hb => congrArg (Option.map LoadedClass.module) ?_
    -- the base is not dropped, or the class would be obsolete
    have hname : b.name ∉ dropped := by
      intro hdrop
      simp only [isObsolete, Bool.not_eq_true', Bool.or_eq_false_iff, any_eq_false] at hkept
      exact hkept.2 b hb (by simpa using hdrop)
    unfold Library.cached?
    rw [hcache]
    refine lookup_filter_of_true fun c hc => ?_
    cases ho : isObsolete dropped (b, c) with
    | false => rfl
    | true => exact absurd (hdropped (b, c) hc ho) hname

theorem insert (h : l.Grounded) {key : ModuleKey} {c : LoadedClass} (fresh : l.cached? key = none)
    (hkey : c.key = key) (hmacros : ∀ d ∈ c.dependencies, d.macros = key.macros)
    (hmixin : c.isMixin = false)
    (hbases : c.baseKeys.map (fun b => (l.cached? b).map LoadedClass.module) = c.module.bases.map some) :
    ({ l with cache := setKey key c l.cache } : Library).Grounded where
  nodup := nodup_keys_setKey h.nodup
  key := forall_mem_setKey hkey h.key
  macros := forall_mem_setKey hmacros h.macros
  isMixin := forall_mem_setKey hmixin h.isMixin
  bases := by
    -- no base of a kept class has the key, as nothing was kept under it
    have others : ∀ d : LoadedClass,
        d.baseKeys.map (fun b => (l.cached? b).map LoadedClass.module) = d.module.bases.map some →
        d.baseKeys.map (fun b => (Library.cached? { l with cache := setKey key c l.cache } b).map
          LoadedClass.module) = d.module.bases.map some := by
      intro d hd
      rw [← hd]
      refine map_congr_left fun b hb => ?_
      have hne : b ≠ key := by
        rintro rfl
        have hmem : (l.cached? b).map LoadedClass.module ∈ d.module.bases.map some := hd ▸ mem_map_of_mem hb
        simp [fresh] at hmem
      simp [Library.cached?, hne]
    exact forall_mem_setKey (others c hbases) fun e he => others e.2 (h.bases e he)

end Library.Grounded

/-! ## What a load keeps -/

def Loading.modules (s : Loading) : List Module := s.library.cache.modules ++ s.loaded.modules

namespace Loading

variable (s : Loading) (key : ModuleKey) (c : LoadedClass)

theorem modules_add : (s.add key c).modules ⊆ c.module :: s.modules := by
  refine append_subset.mpr ⟨fun m hm => ?_, fun m hm => ?_⟩
  · exact mem_cons_of_mem _ (mem_append_left _ hm)
  · exact cons_subset_cons _ (subset_append_right _ _) (Cache.modules_setKey key c s.loaded hm)

theorem modules_keep : (s.keep key c).modules ⊆ c.module :: s.modules := by
  refine append_subset.mpr ⟨fun m hm => ?_, fun m hm => ?_⟩
  · exact cons_subset_cons _ (subset_append_left _ _) (Cache.modules_setKey key c s.library.cache hm)
  · exact mem_cons_of_mem _ (mem_append_right _ hm)

end Loading

structure Loading.Sound (others : List Module) (macros : List MacroDef) (s : Loading) : Prop where
  grounded : s.library.Grounded
  numbered : Numbered s.library.next (others ++ s.modules)
  nodup : (s.loaded.map (·.1)).Nodup
  key : ∀ e ∈ s.loaded, e.2.key = e.1
  under : ∀ e ∈ s.loaded, e.1.macros = macros
  waiting : ∀ k ∈ s.waiting, k.macros = macros

namespace Loading.Sound

variable {others : List Module} {macros : List MacroDef} {s : Loading}

variable {key : ModuleKey} {c : LoadedClass} {bases : List LoadedClass}

theorem mem_modules_of_cached (h : s.library.cached? key = some c) : c.module ∈ s.modules :=
  mem_append_left _ (Cache.mem_modules (mem_of_lookup h))

theorem mem_modules_of_loaded (h : s.loaded.lookup key = some c) : c.module ∈ s.modules :=
  mem_append_right _ (Cache.mem_modules (mem_of_lookup h))

theorem loaded_numbered (h : s.Sound others macros) : Numbered s.library.next s.loaded.modules :=
  h.numbered.subset fun _ hm => mem_append_right _ (mem_append_right _ hm)

theorem same_classes {t : Loading} (h : s.Sound others macros) (hcache : t.library.cache = s.library.cache)
    (hnext : t.library.next = s.library.next) (hloaded : t.loaded = s.loaded)
    (hwaiting : t.waiting = s.waiting) : t.Sound others macros := by
  refine ⟨h.grounded.of_cache hcache, ?_, hloaded ▸ h.nodup, hloaded ▸ h.key, hloaded ▸ h.under, hwaiting ▸ h.waiting⟩
  unfold Loading.modules
  rw [hcache, hnext, hloaded]
  exact h.numbered

theorem evict (h : s.Sound others macros) (names : List String) :
    ({ s with library := s.library.evict names } : Loading).Sound others macros := by
  refine ⟨h.grounded.evict names, h.numbered.subset ?_, h.nodup, h.key, h.under, h.waiting⟩
  refine append_subset.mpr ⟨fun m hm => mem_append_left _ hm, fun m hm => ?_⟩
  refine mem_append_right _ ?_
  rcases mem_append.mp hm with hm | hm
  · exact mem_append_left _ (Cache.modules_subset (s.library.evict_cache_subset names) hm)
  · exact mem_append_right _ hm

theorem evict_all (h : s.Sound others macros) (batches : List (List String)) :
    ({ s with library := batches.foldl Library.evict s.library } : Loading).Sound others macros := by
  induction batches generalizing s with
  | nil => exact h
  | cons names batches ih => exact ih (h.evict names)

theorem read (h : s.Sound others macros) (plan : LoadPlan) (key : ModuleKey) :
    (s.read plan key).2.Sound others macros := by
  obtain ⟨batches, hlibrary⟩ := read_library plan key s
  have hstore : ({ s with library :=
      { s.library with store := (s.library.store.load key.name).2 } } : Loading).Sound others macros :=
    h.same_classes rfl rfl rfl rfl
  refine (hstore.evict_all batches).same_classes ?_ ?_ rfl rfl
  · rw [hlibrary]
  · rw [hlibrary]

theorem subset_of_cons {t : Loading} (hc : c.module ∈ others ++ s.modules)
    (h : t.modules ⊆ c.module :: s.modules) : others ++ t.modules ⊆ others ++ s.modules := by
  refine append_subset.mpr ⟨fun m hm => mem_append_left _ hm, fun m hm => ?_⟩
  rcases mem_cons.mp (h hm) with rfl | hm
  · exact hc
  · exact mem_append_right _ hm

theorem add (h : s.Sound others macros) (hkey : c.key = key) (hmacros : key.macros = macros)
    (hc : c.module ∈ others ++ s.modules) :
    (s.add key c).Sound others macros where
  grounded := h.grounded
  numbered := h.numbered.subset (subset_of_cons hc (s.modules_add key c))
  nodup := nodup_keys_setKey h.nodup
  key := forall_mem_setKey hkey h.key
  under := forall_mem_setKey hmacros h.under
  waiting := h.waiting

theorem await (h : s.Sound others macros) {keys : List ModuleKey}
    (hkeys : ∀ k ∈ keys, k.macros = macros) : (s.await keys).Sound others macros :=
  { h with
    waiting := fun k hk => by
      rcases mem_append.mp hk with hk | hk
      · exact hkeys k (mem_reverse.mp hk)
      · exact h.waiting k hk }

theorem keep (h : s.Sound others macros) (hc : c.module ∈ others ++ s.modules)
    (hgrounded : ({ s.library with cache := setKey key c s.library.cache } : Library).Grounded) :
    (s.keep key c).Sound others macros where
  grounded := hgrounded
  numbered := h.numbered.subset (subset_of_cons hc (s.modules_keep key c))
  nodup := h.nodup
  key := h.key
  under := h.under
  waiting := h.waiting

theorem takeNumber (h : s.Sound others macros) {m : Module} (hid : m.id = s.library.next)
    (hbases : m.bases ⊆ s.modules) : s.takeNumber.Sound (m :: others) macros :=
  ⟨h.grounded.of_cache rfl,
    h.numbered.extend hid fun _ hb => Module.among_of_mem (mem_append_right _ (hbases hb)), h.nodup, h.key,
    h.under, h.waiting⟩

theorem drop {m : Module} (h : s.Sound (m :: others) macros) : s.Sound others macros :=
  { h with numbered := h.numbered.subset fun _ hm => mem_cons_of_mem _ hm }

theorem bases_subset {keys : List ModuleKey} (h : List.Forall₂ (fun k c => s.loaded.lookup k = some c) keys bases) :
    bases.map LoadedClass.module ⊆ s.modules := by
  induction h with
  | nil => exact nil_subset _
  | cons hk _ ih => exact cons_subset.mpr ⟨mem_modules_of_loaded hk, ih⟩

theorem kept_bases (h : s.Sound others macros)
    (hbases : List.Forall₂ (fun k d => s.loaded.lookup k = some d) c.baseKeys bases)
    (hmodule : c.module.bases = bases.map LoadedClass.module)
    (hcurrent : ∀ b ∈ c.baseKeys, ∃ kept used, s.library.cached? b = some kept ∧
      s.loaded.lookup b = some used ∧ kept.module.id = used.module.id) :
    c.baseKeys.map (fun b => (s.library.cached? b).map LoadedClass.module) =
      c.module.bases.map some := by
  have hloaded : c.baseKeys.map (fun b => s.loaded.lookup b) = bases.map some :=
    forall₂_eq_eq_eq ▸ forall₂_map_left_iff.mpr (forall₂_map_right_iff.mpr hbases)
  calc c.baseKeys.map (fun b => (s.library.cached? b).map LoadedClass.module)
      = c.baseKeys.map (fun b => (s.loaded.lookup b).map LoadedClass.module) := by
        refine map_congr_left fun b hb => ?_
        obtain ⟨kept, used, hkept, hused, hid⟩ := hcurrent b hb
        have : kept.module = used.module :=
          h.numbered.eq (Module.among_of_mem (mem_append_right _ (mem_modules_of_cached hkept)))
            (Module.among_of_mem (mem_append_right _ (mem_modules_of_loaded hused))) hid
        rw [hkept, hused, Option.map_some, Option.map_some, this]
    _ = (c.baseKeys.map fun b => s.loaded.lookup b).map (Option.map LoadedClass.module) := by
        rw [map_map]
        rfl
    _ = c.module.bases.map some := by
        rw [hloaded, hmodule, map_map, map_map]
        rfl

theorem finish {plan : LoadPlan} (h : s.Sound others plan.macros)
    {read : ReadClass} (hmacros : key.macros = plan.macros)
    (unkept : s.library.cached? key = none)
    (hbases : List.Forall₂ (fun k c => s.loaded.lookup k = some c)
    (baseKeysOf read.cls plan.macros) bases) :
    (finishClass plan key read bases s).2.Sound others plan.macros := by
  set made := madeClass plan key read bases s.library.next with hmade
  have hslots : ∀ k ∈ made.slotKeys, k.macros = plan.macros := by
    intro k hk
    obtain ⟨t, -, rfl⟩ := mem_map.mp (mem_eraseDups.mp hk)
    rfl
  have hnumber : (s.await made.slotKeys).takeNumber.Sound (made.module :: others) plan.macros :=
    (h.await hslots).takeNumber rfl (bases_subset hbases)
  have hat : made.module ∈ (made.module :: others) ++ (s.await made.slotKeys).takeNumber.modules :=
    mem_append_left _ mem_cons_self
  rcases finishClass_cases plan read bases unkept hmade.symm with heq | ⟨hcurrent, heq⟩
  · rw [heq]
    exact (hnumber.add (show made.key = key from rfl) hmacros hat).drop
  · rw [heq]
    have hdeps : ∀ d ∈ made.dependencies, d.macros = key.macros := by
      intro d hd
      rw [hmacros]
      rcases mem_append.mp hd with hd | hd
      · obtain ⟨b, -, rfl⟩ := mem_map.mp hd
        rfl
      · exact hslots d hd
    have hground := hnumber.grounded.insert unkept rfl hdeps rfl (hnumber.kept_bases (c := made) hbases rfl hcurrent)
    exact ((hnumber.keep hat hground).add (show made.key = key from rfl) hmacros
      (mem_append_left _ mem_cons_self)).drop

theorem mixin (h : s.Sound others macros) {refs : List ClassRef}
    (hbases : List.Forall₂ (fun k c => s.loaded.lookup k = some c)
    (refs.map fun r => r.key macros) bases) :
    (s.takeNumber.add (mixinKey refs macros)
      (madeMixin macros refs bases s.library.next)).Sound others macros := by
  have hnumber := h.takeNumber (m := (madeMixin macros refs bases s.library.next).module) rfl (bases_subset hbases)
  exact (hnumber.add rfl rfl (mem_append_left _ mem_cons_self)).drop

theorem start {l : Library} (h : l.Grounded) (hnumbered : Numbered l.next (others ++ l.cache.modules)) :
    ({ library := l } : Loading).Sound others macros where
  grounded := h
  numbered := by simpa [Loading.modules, Cache.modules] using hnumbered
  nodup := nodup_nil
  key := nofun
  under := nofun
  waiting := nofun

end Loading.Sound

theorem sound_invariant (plan : LoadPlan) (bound : Nat) (others : List Module) :
    RequestInvariant plan bound (fun key => key.macros = plan.macros) (fun _ _ => True)
      (Loading.Sound others plan.macros) where
  cyclic _ _ _ _ h := h.same_classes rfl rfl rfl rfl
  empty _ h := h.same_classes rfl rfl rfl rfl
  giveUp _ _ _ _ _ h := h.same_classes rfl rfl rfl rfl
  fail _ _ _ _ _ h := h.same_classes rfl rfl rfl rfl
  await _ _ hkeys h := h.await hkeys
  take s key c hmacros _ hc h := by
    have hmem := mem_of_lookup hc
    have hawait : (s.await c.dependencies).Sound others plan.macros :=
      h.await fun d hd => (h.grounded.macros _ hmem d hd).trans hmacros
    exact hawait.add (h.grounded.key _ hmem) hmacros (mem_append_right _ (Loading.Sound.mem_modules_of_cached hc))
  read s key _ _ _ h := ⟨h.read plan key, fun _ _ => trivial⟩
  base _ _ _ b hb := by
    obtain ⟨_, -, rfl⟩ := mem_map.mp hb
    rfl
  finish _ _ _ _ hmacros _ _ unkept hbases h := h.finish hmacros unkept hbases
  mixin _ _ _ _ hbases h := h.mixin hbases

theorem loadWithin_sound {others : List Module} {l : Library} (h : l.Grounded)
    (hnumbered : Numbered l.next (others ++ l.cache.modules)) (plan : LoadPlan) (bound : Nat)
    (r : Request) : (l.loadWithin plan bound r).Sound others plan.macros :=
  loadWithin_invariant (sound_invariant plan bound others) (fun _ hI => hI.waiting)
    (fun _ _ hsub hI => { hI with waiting := fun k hk => hI.waiting k (hsub hk) })
    (fun _ _ => rfl) (.start h hnumbered)

theorem loadBy_sound {others : List Module} {l : Library} (h : l.Grounded)
    (hnumbered : Numbered l.next (others ++ l.cache.modules)) (plan : LoadPlan) (r : Request) :
    (l.loadBy plan r).Sound others plan.macros := by
  obtain ⟨bound, hbound⟩ := l.exists_loadWithin plan r
  rw [hbound]
  exact loadWithin_sound h hnumbered plan bound r

/-! ## What holds of every class -/

def Loading.Each (q : LoadedClass → Prop) (s : Loading) : Prop :=
  (∀ e ∈ s.library.cache, q e.2) ∧ ∀ e ∈ s.loaded, q e.2

structure LoadPlan.Makes (plan : LoadPlan) (least : Nat) (q : LoadedClass → Prop) : Prop where
  made : ∀ store file key read bases n, (classOfFile plan store key file).1 = some read → least ≤ n →
    (∀ b ∈ bases, q b) → q (madeClass plan key read bases n)
  mixin : ∀ refs bases n, least ≤ n → (∀ b ∈ bases, q b) → q (madeMixin plan.macros refs bases n)

section

variable {plan : LoadPlan} {q : LoadedClass → Prop}

theorem Loading.Each.bases {s : Loading} (h : s.Each q) {keys : List ModuleKey} {bases : List LoadedClass}
    (hbases : List.Forall₂ (fun k c => s.loaded.lookup k = some c) keys bases) : ∀ b ∈ bases, q b := by
  induction hbases with
  | nil => exact forall_mem_nil _
  | cons hk _ ih => exact forall_mem_cons.mpr ⟨h.2 _ (mem_of_lookup hk), ih⟩

theorem each_invariant {least : Nat} (hq : plan.Makes least q) (bound : Nat) :
    RequestInvariant plan bound (fun _ => True)
      (fun key r => ∃ store file, (classOfFile plan store key file).1 = some r)
      (fun s => least ≤ s.library.next ∧ s.Each q) where
  cyclic _ _ _ _ h := h
  empty _ h := h
  giveUp _ _ _ _ _ h := h
  fail _ _ _ _ _ h := h
  await _ _ _ h := h
  take s key c _ _ hc h := ⟨h.1, h.2.1, forall_mem_setKey (h.2.1 _ (mem_of_lookup hc)) h.2.2⟩
  read s key _ _ _ h := by
    obtain ⟨hcache, hnext⟩ := s.read_frame plan key
    exact ⟨⟨hnext ▸ h.1, fun e he => h.2.1 e (hcache he), h.2.2⟩, fun r hr => ⟨_, _, hr⟩⟩
  base _ _ _ _ _ := trivial
  finish s key read bases _ hread _ unkept hbases h := by
    obtain ⟨store, file, hread⟩ := hread
    have hmade := hq.made store file key read bases _ hread h.1 (h.2.bases hbases)
    have hnext := Nat.le_succ_of_le h.1
    rcases finishClass_cases plan read bases unkept rfl with heq | ⟨-, heq⟩ <;> rw [heq]
    · exact ⟨hnext, h.2.1, forall_mem_setKey hmade h.2.2⟩
    · exact ⟨hnext, forall_mem_setKey hmade h.2.1, forall_mem_setKey hmade h.2.2⟩
  mixin s refs bases _ hbases h := by
    have hmade := hq.mixin refs bases _ h.1 (h.2.bases hbases)
    exact ⟨Nat.le_succ_of_le h.1, h.2.1, forall_mem_setKey hmade h.2.2⟩

variable {l : Library}

theorem loadBy_each (hq : plan.Makes l.next q) (hkept : ∀ e ∈ l.cache, q e.2) (r : Request) :
    l.next ≤ (l.loadBy plan r).library.next ∧ (l.loadBy plan r).Each q := by
  obtain ⟨bound, hbound⟩ := l.exists_loadWithin plan r
  rw [hbound]
  exact loadWithin_invariant (each_invariant hq bound) (fun _ _ _ _ => trivial) (fun _ _ _ hs => hs)
    (fun _ _ => trivial) ⟨Nat.le_refl _, hkept, forall_mem_nil _⟩

theorem loadBy_next_le (plan : LoadPlan) (l : Library) (r : Request) : l.next ≤ (l.loadBy plan r).library.next := by
  refine (loadBy_each (q := fun _ => True) ⟨?_, ?_⟩ (fun _ _ => trivial) r).1
  · exact fun _ _ _ _ _ _ _ _ _ => trivial
  · exact fun _ _ _ _ _ => trivial

theorem loadBy_among {p : Module → Prop}
    (hmade : ∀ store file key read bases n, (classOfFile plan store key file).1 = some read → l.next ≤ n →
      p (madeClass plan key read bases n).module)
    (hmixin : ∀ refs bases n, l.next ≤ n → p (madeMixin plan.macros refs bases n).module)
    (hkept : ∀ a : Module, a.Among ({ library := l } : Loading).modules → p a) (r : Request) {a : Module}
    (ha : a.Among (l.loadBy plan r).modules) : p a := by
  have above : ∀ {m : Module} {bases : List LoadedClass}, m.bases = bases.map LoadedClass.module → p m →
      (∀ b ∈ bases, ∀ a : Module, a.Part b.module → p a) → ∀ a : Module, a.Part m → p a := by
    intro m bases hbases hm h a ha
    rcases part_iff.mp ha with rfl | ⟨b, hb, ha⟩
    · exact hm
    · rw [hbases] at hb
      obtain ⟨c, hc, rfl⟩ := mem_map.mp hb
      exact h c hc a ha
  have makes : plan.Makes l.next fun c => ∀ a : Module, a.Part c.module → p a :=
    ⟨fun store file key read bases n hread hn => above rfl (hmade store file key read bases n hread hn),
      fun refs bases n hn => above rfl (hmixin refs bases n hn)⟩
  have each := (loadBy_each makes (fun e he a ha => hkept a ⟨_, mem_append_left _ (Cache.mem_modules he), ha⟩) r).2
  obtain ⟨m, hm, hpart⟩ := ha
  rcases mem_append.mp hm with hm | hm
  · obtain ⟨e, he, rfl⟩ := mem_map.mp hm
    exact each.1 e he a hpart
  · obtain ⟨e, he, rfl⟩ := mem_map.mp hm
    exact each.2 e he a hpart

end

/-! ## Every library -/

/-- The libraries that come about. -/
inductive Library.Reachable : Library → Prop
  | new (store : SourceStore) (next : Nat) : Reachable { store, next }
  | load {l : Library} (plan : LoadPlan) (r : Request) : Reachable l → Reachable (l.loadBy plan r).library
  | edit {l : Library} (store : SourceStore) : Reachable l → Reachable { l with store }
  | evict {l : Library} (names : List String) : Reachable l → Reachable (l.evict names)

theorem Library.Reachable.sound {l : Library} (h : l.Reachable) : l.Grounded ∧ Numbered l.next l.cache.modules := by
  induction h with
  | new store next => exact ⟨.empty rfl, .nil next⟩
  | @load l plan r _ ih =>
    have hload := @loadBy_sound [] _ ih.1 ih.2 plan r
    exact ⟨hload.grounded, hload.numbered.subset fun _ hm =>
      mem_append_right _ (mem_append_left _ hm)⟩
  | edit store _ ih => exact ⟨ih.1.of_cache rfl, ih.2⟩
  | evict names _ ih =>
    exact ⟨ih.1.evict names, ih.2.subset (Cache.modules_subset (evict_cache_subset _ names))⟩

/-- The bases of a kept class are kept, and are the modules it inherits from. -/
theorem Library.kept_bases_of_reachable {l : Library} (h : l.Reachable)
    {e : ModuleKey × LoadedClass} (he : e ∈ l.cache) :
    e.2.module.bases.length = e.2.baseKeys.length ∧
      ∀ (i : Nat) (b : ModuleKey), e.2.baseKeys[i]? = some b →
        ∃ kept, l.cached? b = some kept ∧ e.2.module.bases[i]? = some kept.module := by
  have hbases := h.sound.1.bases e he
  refine ⟨by simpa using (congrArg List.length hbases).symm, fun i b hb => ?_⟩
  have hplace : some ((l.cached? b).map LoadedClass.module) = e.2.module.bases[i]?.map some := by
    have := congrArg (fun ms => ms[i]?) hbases
    simpa only [List.getElem?_map, hb, Option.map_some] using this
  obtain ⟨m, hm, hkept⟩ := Option.map_eq_some_iff.mp hplace.symm
  obtain ⟨kept, hcached, rfl⟩ := Option.map_eq_some_iff.mp hkept.symm
  exact ⟨kept, hcached, hm⟩

def derivedSources : SourceStore where
  inMemory :=
    [("Base", "shader Base { float A; };"), ("Other", "shader Other { float B; };"),
     ("Derived", "shader Derived : Base, Other { float C; };")]

def evictedLibrary : Library :=
  (({ store := derivedSources } : Library).loadBy
    ⟨[], false, fun parsed _ => if parsed = 2 then [["Base"]] else []⟩ (.single ⟨"Derived", []⟩)).library

def derivedLibrary : Library :=
  (evictedLibrary.loadBy ⟨[], false, fun _ _ => []⟩ (.single ⟨"Derived", []⟩)).library

theorem kept_bases_of_derived :
    ∃ base other derived, derivedLibrary.cached? ⟨"Base", [], []⟩ = some base ∧
      derivedLibrary.cached? ⟨"Other", [], []⟩ = some other ∧
      derivedLibrary.cached? ⟨"Derived", [], []⟩ = some derived ∧
      derived.module.bases[0]? = some base.module ∧
      derived.module.bases[1]? = some other.module := by
  have evicted : evictedLibrary.Reachable := by
    unfold evictedLibrary
    exact .load _ _ (.new derivedSources 0)
  have reachable : derivedLibrary.Reachable := by
    unfold derivedLibrary
    exact .load _ _ evicted
  have hkeys : (derivedLibrary.cached? ⟨"Derived", [], []⟩).map LoadedClass.baseKeys =
      some [⟨"Base", [], []⟩, ⟨"Other", [], []⟩] := by decide +kernel
  generalize derivedLibrary = l at reachable hkeys ⊢
  obtain ⟨derived, hderived, hkeys⟩ := Option.map_eq_some_iff.mp hkeys
  have bases := (Library.kept_bases_of_reachable reachable (mem_of_lookup hderived)).2
  obtain ⟨base, hbase, hfirst⟩ := bases 0 ⟨"Base", [], []⟩ (by rw [hkeys]; rfl)
  obtain ⟨other, hother, hsecond⟩ := bases 1 ⟨"Other", [], []⟩ (by rw [hkeys]; rfl)
  exact ⟨base, other, derived, hbase, hother, hderived, hfirst, hsecond⟩

end ShaderCompose
