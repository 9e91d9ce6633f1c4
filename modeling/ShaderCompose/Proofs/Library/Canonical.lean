import ShaderCompose.Proofs.Compose.Renumber
import ShaderCompose.Proofs.Library.Independence
import ShaderCompose.Proofs.Library.Sorted

/-!
Two loads of one task differ in numbers only.
-/

namespace ShaderCompose

open List

def Cache.numberBy (loaded : Cache) (keys : List ModuleKey) (next top : Nat) (id : Nat) : Nat :=
  match loaded.find? fun e => e.2.module.id == id with
  | some e => keys.idxOf e.1
  | none => if id < next then keys.length + id else keys.length + top + (id - next)

namespace Cache

variable {loaded : Cache} {keys : List ModuleKey} {next top : Nat}

theorem numberBy_of_mem (hnumbered : Module.Numbered next loaded.modules)
    (hkey : ∀ e ∈ loaded, e.2.key = e.1) {e : ModuleKey × LoadedClass} (he : e ∈ loaded) :
    loaded.numberBy keys next top e.2.module.id = keys.idxOf e.1 := by
  unfold numberBy
  cases hfound : loaded.find? fun d => d.2.module.id == e.2.module.id with
  | none => exact absurd (find?_eq_none.mp hfound e he) (by simp)
  | some d =>
    have hid : d.2.module.id = e.2.module.id := by simpa using find?_some hfound
    have hd := mem_of_find?_eq_some hfound
    have hmodule := hnumbered.eq (Module.among_of_mem (mem_modules hd)) (Module.among_of_mem (mem_modules he)) hid
    have hsame : d.1 = e.1 := by
      rw [← hkey d hd, ← hkey e he, LoadedClass.key, LoadedClass.key, hmodule]
    exact congrArg keys.idxOf hsame

theorem numberBy_of_not_mem {id : Nat} (h : ∀ e ∈ loaded, e.2.module.id ≠ id) : loaded.numberBy keys next top id =
      if id < next then keys.length + id else keys.length + top + (id - next) := by
  unfold numberBy
  rw [find?_eq_none.mpr fun e he => by simpa using h e he]

theorem numberBy_next (hnumbered : Module.Numbered next loaded.modules) (n : Nat) :
    loaded.numberBy keys next top (next + n) = keys.length + top + n := by
  rw [numberBy_of_not_mem, if_neg (by omega), Nat.add_sub_cancel_left]
  intro e he hid
  have := hnumbered.below _ (mem_modules he) _ (.self _)
  omega

theorem renumbers_numberBy (hnumbered : Module.Numbered next loaded.modules)
    (hnodup : (loaded.map (·.1)).Nodup) (hkey : ∀ e ∈ loaded, e.2.key = e.1)
    (hkeys : ∀ e ∈ loaded, e.1 ∈ keys) (htop : next ≤ top) :
    Renumbers (loaded.numberBy keys next top) next where
  shift n := by
    have hzero : loaded.numberBy keys next top next = keys.length + top := numberBy_next hnumbered 0
    rw [numberBy_next hnumbered, hzero]
  injective := by
    -- a number is that of a loaded class, or it is moved by a fixed distance
    have hcases : ∀ id, (∃ e ∈ loaded, e.2.module.id = id ∧
          loaded.numberBy keys next top id = keys.idxOf e.1 ∧ keys.idxOf e.1 < keys.length) ∨
        loaded.numberBy keys next top id =
          if id < next then keys.length + id else keys.length + top + (id - next) := by
      intro id
      by_cases hid : ∃ e ∈ loaded, e.2.module.id = id
      · obtain ⟨e, he, rfl⟩ := hid
        exact .inl ⟨e, he, rfl, numberBy_of_mem hnumbered hkey he, idxOf_lt_length_of_mem (hkeys e he)⟩
      · exact .inr (numberBy_of_not_mem fun e he h => hid ⟨e, he, h⟩)
    intro i j hij
    rcases hcases i with ⟨d, hd, rfl, hi, hlt⟩ | hi <;>
      rcases hcases j with ⟨e, he, rfl, hj, hlt'⟩ | hj
    · rw [hi, hj, idxOf_inj (hkeys d hd)] at hij
      rw [inj_on_of_nodup_map hnodup hd he hij]
    · split at hj <;> omega
    · split at hi <;> omega
    · split at hi <;> split at hj <;> omega

end Cache

theorem Context.make_renumber (f : Nat → Nat) (loaded : Cache) (builtins : List Module) (macros : List MacroDef) :
    (make loaded builtins macros).renumber f =
      ⟨((loaded.map fun e => e.2.renumber f).mergeSort fun a b => a.key.atMost b.key).map
        LoadedClass.known, builtins, macros⟩ := by
  have hsorted : ((loaded.map (·.2)).mergeSort fun a b => a.key.atMost b.key).map (LoadedClass.renumber f) =
        ((loaded.map (·.2)).map (LoadedClass.renumber f)).mergeSort
          fun a b => a.key.atMost b.key := by
    refine map_mergeSort fun a _ b _ => ?_
    rw [LoadedClass.key_renumber, LoadedClass.key_renumber]
  have hcompose : (loaded.map fun e => e.2.renumber f) = (loaded.map (·.2)).map (LoadedClass.renumber f) := by
    rw [map_map]
    rfl
  rw [hcompose, ← hsorted, make]
  refine congrArg (fun classes => Context.mk classes builtins macros) ?_
  rw [map_map, map_map]
  exact map_congr_left fun c _ => (c.known_renumber f).symm

namespace LoadTask.Solved

variable {t : LoadTask} {loaded loaded' : Cache} {key : ModuleKey} {c c' : LoadedClass}

theorem bare_eq (h : t.Solved loaded) (h' : t.Solved loaded') (hclash : t.NoClash)
    (hc : loaded.lookup key = some c) (hc' : loaded'.lookup key = some c') : c.bare = c'.bare := by
  rcases h.meant _ (mem_of_lookup hc) with ⟨hkey, hdeclared⟩ | ⟨refs, hrefs, hbare⟩ <;>
    rcases h'.meant _ (mem_of_lookup hc') with ⟨hkey', hdeclared'⟩ | ⟨refs', hrefs', hbare'⟩
  · exact Option.some.inj (hdeclared.symm.trans hdeclared')
  · rw [hclash.mixin? hkey] at hrefs'
    cases hrefs'
  · rw [hclash.mixin? hkey'] at hrefs
    cases hrefs
  · obtain rfl : refs = refs' := Option.some.inj (hrefs.symm.trans hrefs')
    exact hbare.trans hbare'.symm

theorem isSome_iff (h : t.Solved loaded) (h' : t.Solved loaded') (key : ModuleKey) :
    (loaded.lookup key).isSome = true ↔ (loaded'.lookup key).isSome = true :=
  (h.keys key).trans (h'.keys key).symm

theorem digests_eq (h : t.Solved loaded) (h' : t.Solved loaded') (hclash : t.NoClash) :
    loaded.digests = loaded'.digests := by
  have hsub : ∀ {as bs : Cache}, t.Solved as → t.Solved bs →
      (as.filter fun e => !e.2.isMixin).map (fun e => (e.1.name, e.2.sourceDigest)) ⊆
        (bs.filter fun e => !e.2.isMixin).map fun e => (e.1.name, e.2.sourceDigest) := by
    intro as bs has hbs x hx
    obtain ⟨⟨key, c⟩, he, rfl⟩ := mem_map.mp hx
    obtain ⟨he, hmixin⟩ := mem_filter.mp he
    have hc := lookup_of_mem has.nodup he
    obtain ⟨c', hc'⟩ := Option.isSome_iff_exists.mp ((has.isSome_iff hbs key).mp (by rw [hc, Option.isSome_some]))
    have hbare := has.bare_eq hbs hclash hc hc'
    have hsame : c.isMixin = c'.isMixin := (congrArg LoadedClass.isMixin hbare :)
    have hdigest : c.sourceDigest = c'.sourceDigest := (congrArg LoadedClass.sourceDigest hbare :)
    refine mem_map.mpr ⟨(key, c'), mem_filter.mpr ⟨mem_of_lookup hc', ?_⟩, ?_⟩
    · exact hsame ▸ hmixin
    · exact Prod.ext rfl hdigest.symm
  refine Cache.digests_eq ?_ fun x => ⟨fun hx => hsub h h' hx, fun hx => hsub h' h hx⟩
  -- a class that is not made up has the digest of the text of its name
  have htext : ∀ e ∈ loaded, e.2.isMixin = false →
      ∃ file, t.store.fetch e.1.name = .ok file ∧ e.2.sourceDigest = file.digest := by
    intro e he hmixin
    rcases h.meant e he with ⟨-, hdeclared⟩ | ⟨refs, -, hbare⟩
    · obtain ⟨file, hfile, hdigest⟩ := SourceStore.sourceDigest_of_declared hdeclared
      exact ⟨file, hfile, hdigest⟩
    · have hmade : e.2.isMixin = true := (congrArg LoadedClass.isMixin hbare :)
      rw [hmixin] at hmade
      cases hmade
  intro c hc d hd hcm hdm hname
  obtain ⟨file, hfile, hdigest⟩ := htext c hc hcm
  obtain ⟨file', hfile', hdigest'⟩ := htext d hd hdm
  rw [hname, hfile'] at hfile
  cases hfile
  exact hdigest.trans hdigest'.symm

section

variable {keys : List ModuleKey} {next next' top : Nat}

theorem module_renumber_eq (h : t.Solved loaded) (h' : t.Solved loaded') (hclash : t.NoClash)
    (hnumbered : Module.Numbered next loaded.modules)
    (hnumbered' : Module.Numbered next' loaded'.modules)
    (hc : loaded.lookup key = some c) (hc' : loaded'.lookup key = some c') :
    c.module.renumber (loaded.numberBy keys next top) =
      c'.module.renumber (loaded'.numberBy keys next' top) := by
  obtain ⟨m, hm⟩ : ∃ m, c.module = m := ⟨_, rfl⟩
  induction m using Module.bases_induction generalizing key c c' with
  | step m ih =>
    subst hm
    have hbare := h.bare_eq h' hclash hc hc'
    have hmem := mem_of_lookup hc
    have hmem' := mem_of_lookup hc'
    have hid : loaded.numberBy keys next top c.module.id = loaded'.numberBy keys next' top c'.module.id := by
      rw [Cache.numberBy_of_mem hnumbered h.key hmem, Cache.numberBy_of_mem hnumbered' h'.key hmem']
    have hbaseKeys : c.baseKeys = c'.baseKeys := (congrArg LoadedClass.baseKeys hbare :)
    have hkey : c.module.key = c'.module.key := congrArg (fun d => d.module.key) hbare
    have hcls : c.module.cls = c'.module.cls := congrArg (fun d => d.module.cls) hbare
    have hdigest : c.module.digest = c'.module.digest := congrArg (fun d => d.module.digest) hbare
    have hlinked : c.baseKeys.map (fun b => (loaded.lookup b).map LoadedClass.module) =
      c.module.bases.map some := h.linked _ hmem
    have hlinked' : c'.baseKeys.map (fun b => (loaded'.lookup b).map LoadedClass.module) =
      c'.module.bases.map some := h'.linked _ hmem'
    have hbases : c.module.bases.map (Module.renumber (loaded.numberBy keys next top)) =
        c'.module.bases.map (Module.renumber (loaded'.numberBy keys next' top)) := by
      have hsome : ∀ (f : Nat → Nat) (ms : List Module),
          (ms.map some).map (Option.map (Module.renumber f)) = (ms.map (Module.renumber f)).map some := by
        intro f ms
        rw [map_map, map_map]
        rfl
      refine map_injective_iff.mpr (Option.some_injective _) ?_
      rw [← hsome, ← hsome, ← hlinked, ← hlinked', ← hbaseKeys, map_map, map_map]
      refine map_congr_left fun b hb => ?_
      have hbase : (loaded.lookup b).map LoadedClass.module ∈ c.module.bases.map some := hlinked ▸ mem_map_of_mem hb
      obtain ⟨m, hm, hmodule⟩ := mem_map.mp hbase
      obtain ⟨d, hd, rfl⟩ := Option.map_eq_some_iff.mp hmodule.symm
      obtain ⟨d', hd'⟩ := Option.isSome_iff_exists.mp ((h.isSome_iff h' b).mp (by rw [hd, Option.isSome_some]))
      simp only [Function.comp_apply, hd, hd', Option.map_some, ih d.module hm hd hd' rfl]
    generalize c.module = m at hid hkey hcls hdigest hbases
    generalize c'.module = m' at hid hkey hcls hdigest hbases
    obtain ⟨id, key, cls, bases, digest⟩ := m
    obtain ⟨id', key', cls', bases', digest'⟩ := m'
    simp only [Module.renumber, Module.renumberAll_eq_map] at *
    simp only [hid, hkey, hcls, hdigest, hbases]

theorem renumber_eq (h : t.Solved loaded) (h' : t.Solved loaded') (hclash : t.NoClash)
    (hnumbered : Module.Numbered next loaded.modules)
    (hnumbered' : Module.Numbered next' loaded'.modules)
    (hc : loaded.lookup key = some c) (hc' : loaded'.lookup key = some c') :
    c.renumber (loaded.numberBy keys next top) = c'.renumber (loaded'.numberBy keys next' top) := by
  have hmodule : c.module.renumber (loaded.numberBy keys next top) =
      c'.module.renumber (loaded'.numberBy keys next' top) :=
    h.module_renumber_eq h' hclash hnumbered hnumbered' hc hc'
  have hbare := h.bare_eq h' hclash hc hc'
  unfold LoadedClass.bare at hbare
  unfold LoadedClass.renumber
  rw [hmodule]
  obtain ⟨m, sourceDigest, baseKeys, slotKeys, path, isMixin⟩ := c
  obtain ⟨m', sourceDigest', baseKeys', slotKeys', path', isMixin'⟩ := c'
  simp only [LoadedClass.mk.injEq, true_and] at hbare ⊢
  exact hbare.2

theorem nodup_renumber (h : t.Solved loaded) (f : Nat → Nat) :
    ((loaded.map fun e => e.2.renumber f).map LoadedClass.key).Nodup := by
  have hkeys : (loaded.map fun e => e.2.renumber f).map LoadedClass.key = loaded.map (·.1) := by
    rw [map_map]
    refine map_congr_left fun e he => ?_
    rw [Function.comp_apply, LoadedClass.key_renumber, h.key e he]
  rw [hkeys]
  exact h.nodup

theorem renumber_subset (h : t.Solved loaded) (h' : t.Solved loaded') {f f' : Nat → Nat}
    (heq : ∀ {key c c'}, loaded.lookup key = some c → loaded'.lookup key = some c' → c.renumber f = c'.renumber f') :
    (loaded.map fun e => e.2.renumber f) ⊆ loaded'.map fun e => e.2.renumber f' := by
  intro x hx
  obtain ⟨⟨key, c⟩, he, rfl⟩ := mem_map.mp hx
  have hc := lookup_of_mem h.nodup he
  obtain ⟨c', hc'⟩ := Option.isSome_iff_exists.mp ((h.isSome_iff h' key).mp (by rw [hc, Option.isSome_some]))
  exact mem_map.mpr ⟨(key, c'), mem_of_lookup hc', (heq hc hc').symm⟩

theorem make_renumber_eq (h : t.Solved loaded) (h' : t.Solved loaded') (hclash : t.NoClash)
    (hnumbered : Module.Numbered next loaded.modules)
    (hnumbered' : Module.Numbered next' loaded'.modules) (builtins : List Module)
    (macros : List MacroDef) :
    (Context.make loaded builtins macros).renumber (loaded.numberBy keys next top) =
      (Context.make loaded' builtins macros).renumber (loaded'.numberBy keys next' top) := by
  have heq : ∀ {key c c'}, loaded.lookup key = some c → loaded'.lookup key = some c' →
      c.renumber (loaded.numberBy keys next top) = c'.renumber (loaded'.numberBy keys next' top) :=
    fun hc hc' => h.renumber_eq h' hclash hnumbered hnumbered' hc hc'
  rw [Context.make_renumber, Context.make_renumber]
  refine congrArg (fun classes : List LoadedClass =>
    Context.mk (classes.map LoadedClass.known) builtins macros) ?_
  refine @mergeSort_eq_of_mem_iff _ _ ModuleKey.atMost LoadedClass.key
    (fun _ _ _ => ModuleKey.atMost_trans) ModuleKey.atMost_total
    (fun _ _ => ModuleKey.atMost_antisymm) _ _ (h.nodup_renumber _) (h'.nodup_renumber _) fun x => ?_
  exact ⟨fun hx => h.renumber_subset h' heq hx, fun hx => h'.renumber_subset h (fun hc hc' => (heq hc' hc).symm) hx⟩

end

end LoadTask.Solved

end ShaderCompose
