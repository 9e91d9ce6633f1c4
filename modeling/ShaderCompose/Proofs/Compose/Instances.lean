import ShaderCompose.Compose.Resolve
import ShaderCompose.Proofs.Check.Context
import ShaderCompose.Proofs.Module.Copy

/-!
What composition makes: one instance for each class and mixin of a request.
-/

namespace ShaderCompose

open List

/-! ## Copies within a range of numbers -/

namespace Module

def CopyOf (scope : CopyScope) (lo hi : Nat) (origin m : Module) : Prop :=
  ∃ f : Nat → Nat, m = origin.renumber f ∧ ∀ a : Module, a.Part origin →
    (∃ x, scope.find? a.id = some x ∧ f a.id = x.id) ∨ (scope.find? a.id = none ∧ lo ≤ f a.id ∧ f a.id < hi)

namespace CopyOf

variable {scope : CopyScope} {lo hi : Nat} {origin m : Module}

theorem mono (h : CopyOf scope lo hi origin m) {lo' hi' : Nat} (hlo : lo' ≤ lo) (hhi : hi ≤ hi') :
    CopyOf scope lo' hi' origin m := by
  obtain ⟨f, hm, hf⟩ := h
  refine ⟨f, hm, fun a ha => (hf a ha).imp_right ?_⟩
  rintro ⟨hnone, hl, hh⟩
  exact ⟨hnone, hlo.trans hl, hh.trans_le hhi⟩

theorem key (h : CopyOf scope lo hi origin m) : m.key = origin.key := by
  obtain ⟨f, rfl, -⟩ := h
  exact key_renumber f origin

theorem mem_hierarchy (h : CopyOf scope lo hi origin m) {x : Module} (hx : x ∈ m.hierarchy) :
    ∃ a ∈ origin.hierarchy, x.cls = a.cls ∧ ((∃ y, scope.find? a.id = some y ∧ x.id = y.id) ∨
        (scope.find? a.id = none ∧ lo ≤ x.id ∧ x.id < hi)) := by
  obtain ⟨f, rfl, hf⟩ := h
  rw [hierarchy_renumber] at hx
  obtain ⟨a, ha, rfl⟩ := mem_map.mp hx
  refine ⟨a, ha, cls_renumber f a, ?_⟩
  rw [id_renumber]
  exact hf a (part_of_mem_hierarchy ha)

theorem shared_mem_hierarchy (h : CopyOf scope lo hi origin m) {a y : Module}
    (ha : a ∈ origin.hierarchy) (hy : scope.find? a.id = some y) :
    ∃ x ∈ m.hierarchy, x.cls = a.cls ∧ x.id = y.id := by
  obtain ⟨f, rfl, hf⟩ := h
  rw [hierarchy_renumber]
  refine ⟨a.renumber f, mem_map_of_mem ha, cls_renumber f a, ?_⟩
  rw [id_renumber]
  rcases hf a (part_of_mem_hierarchy ha) with ⟨x, hx, hid⟩ | ⟨hnone, -⟩
  · rw [hid, Option.some.inj (hx.symm.trans hy)]
  · exact absurd hy (by simp [hnone])

end CopyOf

theorem copy_copyOf {ms : List Module} {outer : Copying} (houter : outer.Coherent ms) {m : Module}
    (hm : m.Among ms) {next : Nat} (hnext : outer.next ≤ next) :
    next ≤ (m.copy ⟨outer.scope.child, next⟩).2.next ∧
      CopyOf outer.scope next (m.copy ⟨outer.scope.child, next⟩).2.next m
        (m.copy ⟨outer.scope.child, next⟩).1 := by
  have h := copy_spec hm (houter.child hnext)
  refine ⟨h.next, _, by simpa using h.copies, fun a ha => ?_⟩
  have hmade := h.recorded m (mem_singleton_self m) a ha
  obtain ⟨x, hx⟩ := Option.isSome_iff_exists.mp hmade
  rw [CopyScope.number_of_find hx]
  cases hy : outer.scope.find? a.id with
  | none =>
    obtain ⟨lo, hi, -⟩ := h.fresh a x (hm.part ha) (by simpa using hy) hx
    exact .inr ⟨rfl, lo, hi⟩
  | some y =>
    have hkept := h.kept a y (hm.part ha) (by simpa using hy)
    exact .inl ⟨y, rfl, by rw [Option.some.inj (hx.symm.trans hkept)]⟩

theorem copyAll_eq_foldl (ms : List Module) (s : Copying) :
    (copyAll ms s).2 = ms.foldl (fun s m => (m.copy s).2) s := by
  induction ms generalizing s with
  | nil => rfl
  | cons m ms ih => rw [copyAll, foldl_cons, ← ih]

end Module

namespace Context

def stageModules (c : Context) : List Module := c.modules.filter Module.isStageOnly

variable {c : Context} {scope : CopyScope} {lo hi : Nat} {m : Module}

theorem shareStageModules_spec {s : Copying} (h : s.Coherent c.modules) :
    Copying.Copied c.modules c.stageModules s (Module.copyAll c.stageModules s).1
      (c.shareStageModules s) := by
  have hshare : c.shareStageModules s = (Module.copyAll c.stageModules s).2 := by
    rw [Module.copyAll_eq_foldl, stageModules, modules, filter_map, foldl_map]
    rfl
  rw [hshare]
  exact Module.copyAll_spec (fun m hm => Module.among_of_mem (mem_of_mem_filter hm)) h

def Instance (c : Context) (scope : CopyScope) (lo hi : Nat) (m : Module) : Prop :=
  ∃ k ∈ c.classes, Module.CopyOf scope lo hi k.loaded.module m

theorem Instance.mono {lo' hi' : Nat} (h : c.Instance scope lo hi m) (hlo : lo' ≤ lo) (hhi : hi ≤ hi') :
    c.Instance scope lo' hi' m := by
  obtain ⟨k, hk, h⟩ := h
  exact ⟨k, hk, h.mono hlo hhi⟩

def IsShared (c : Context) (scope : CopyScope) (id : Nat) : Prop :=
  ∃ a : Module, a.Among c.modules ∧ ∃ y, scope.find? a.id = some y ∧ id = y.id

theorem Instance.id_of_mem {x : Module} (h : c.Instance scope lo hi m) (hx : x ∈ m.hierarchy) :
    c.IsShared scope x.id ∨ lo ≤ x.id ∧ x.id < hi := by
  obtain ⟨k, hk, h⟩ := h
  obtain ⟨a, ha, -, ⟨y, hy, hid⟩ | ⟨-, hrange⟩⟩ := h.mem_hierarchy hx
  · have hmem : k.loaded.module ∈ c.modules := mem_map_of_mem hk
    exact .inl ⟨a, ⟨_, hmem, Module.part_of_mem_hierarchy ha⟩, y, hy, hid⟩
  · exact .inr hrange

/-- Instances in the order they are made, numbered from `lo` on. -/
inductive Sites (c : Context) (scope : CopyScope) : (lo hi : Nat) → List Module → Prop
  | nil {lo hi : Nat} : lo ≤ hi → Sites c scope lo hi []
  | cons {lo mid hi : Nat} {m : Module} {ms : List Module} : c.Instance scope lo mid m → lo ≤ mid →
      Sites c scope mid hi ms → Sites c scope lo hi (m :: ms)

theorem Sites.le {ms : List Module} (h : c.Sites scope lo hi ms) : lo ≤ hi := by
  induction h with
  | nil h => exact h
  | cons _ hle _ ih => exact hle.trans ih

theorem Sites.append {mid : Nat} {ms ns : List Module} (h : c.Sites scope lo mid ms)
    (h' : c.Sites scope mid hi ns) : c.Sites scope lo hi (ms ++ ns) := by
  induction h with
  | nil hle =>
    cases h' with
    | nil hle' => exact .nil (hle.trans hle')
    | cons hm hle' hms => exact .cons (hm.mono hle (Nat.le_refl _)) (hle.trans hle') hms
  | cons hm hle _ ih => exact .cons hm hle (ih h')

def Fills (c : Context) (scope : CopyScope) (e : SlotKey × List Module) : Prop :=
  ∃ lo, (c.IsShared scope e.1.instanceId ∨ e.1.instanceId < lo) ∧ ∀ v ∈ e.2, ∃ hi, c.Instance scope lo hi v

structure Composed (c : Context) (scope : CopyScope) (s t : Composing) : Prop where
  made : ∃ sites, t.made = s.made ++ sites ∧ c.Sites scope s.next t.next sites
  filled : ∃ entries, t.filled = s.filled ++ entries ∧ ∀ e ∈ entries, c.Fills scope e
  log : s.log <+: t.log

namespace Composed

variable {c : Context} {scope : CopyScope} {s t u : Composing}

theorem next (h : c.Composed scope s t) : s.next ≤ t.next := by
  obtain ⟨_, _, hsites⟩ := h.made
  exact hsites.le

theorem refl (s : Composing) : c.Composed scope s s :=
  ⟨⟨[], by simp, .nil (Nat.le_refl _)⟩, ⟨[], by simp, by simp⟩, prefix_refl _⟩

theorem trans (h : c.Composed scope s t) (h' : c.Composed scope t u) : c.Composed scope s u := by
  obtain ⟨sites, hmade, hsites⟩ := h.made
  obtain ⟨sites', hmade', hsites'⟩ := h'.made
  obtain ⟨entries, hfilled, hentries⟩ := h.filled
  obtain ⟨entries', hfilled', hentries'⟩ := h'.filled
  refine ⟨⟨sites ++ sites', ?_, hsites.append hsites'⟩, ⟨entries ++ entries', ?_, ?_⟩, h.log.trans h'.log⟩
  · rw [hmade', hmade, append_assoc]
  · rw [hfilled', hfilled, append_assoc]
  · exact forall_mem_append.mpr ⟨hentries, hentries'⟩

theorem report (s : Composing) (d : Diagnostic) : c.Composed scope s (s.report d) :=
  ⟨⟨[], by simp [Composing.report], .nil (Nat.le_refl _)⟩,
    ⟨[], by simp [Composing.report], by simp⟩, prefix_append _ _⟩

theorem fill (s : Composing) (slot : String) {key : SlotKey} {values : List Module}
    (h : c.Fills scope (key, values)) : c.Composed scope s (s.fill slot key values) := by
  unfold Composing.fill
  split
  · exact .report s _
  · exact ⟨⟨[], by simp, .nil (Nat.le_refl _)⟩, ⟨[(key, values)], rfl, by simpa using h⟩,
      prefix_refl _⟩

end Composed

variable {c : Context} {outer : Copying}

theorem instance?_spec (houter : outer.Coherent c.modules) (r : Request) {s : Composing}
    (hnext : outer.next ≤ s.next) :
    c.Composed outer.scope s (c.instance? outer.scope r s).2 ∧ ∀ m, (c.instance? outer.scope r s).1 = some m →
        ∃ k, (r.key? c.macros).bind c.find? = some k ∧ (c.instance? outer.scope r s).2.made = s.made ++ [m] ∧
          Module.CopyOf outer.scope s.next (c.instance? outer.scope r s).2.next
            k.loaded.module m := by
  unfold instance?
  cases hkey : r.key? c.macros with
  | none => exact ⟨.report s _, nofun⟩
  | some key =>
    dsimp only
    cases hfind : c.find? key with
    | none => exact ⟨.refl s, nofun⟩
    | some k =>
      have hk := (mem_of_find? hfind).1
      have hmem : k.loaded.module ∈ c.modules := mem_map_of_mem hk
      obtain ⟨hle, hcopy⟩ := Module.copy_copyOf houter ⟨_, hmem, .self _⟩ hnext
      refine ⟨⟨⟨[_], rfl, .cons ⟨k, hk, hcopy⟩ hle (.nil (Nat.le_refl _))⟩,
        ⟨[], by simp, by simp⟩, prefix_refl _⟩, ?_⟩
      rintro m ⟨⟩
      exact ⟨k, by simpa using hfind, rfl, hcopy⟩

theorem slot?_mem {name : String} {key : SlotKey} (h : m.slot? name = some key) :
    ∃ x ∈ m.hierarchy, key.instanceId = x.id := by
  obtain ⟨x, hx, hslot⟩ := exists_of_findSome?_eq_some h
  obtain ⟨id, -, hid⟩ := Option.bind_eq_some_iff.mp hslot
  split at hid
  · exact ⟨x, mem_reverse.mp hx, by rw [← Option.some.inj hid]⟩
  · exact absurd hid (by simp)

mutual

theorem compose_spec (houter : outer.Coherent c.modules) (o : Options) :
    ∀ (r : Request) (s : Composing), outer.next ≤ s.next → c.Composed outer.scope s (c.compose o outer.scope r s).2 ∧
        ∀ ms, (c.compose o outer.scope r s).1 = some ms →
          ∀ m ∈ ms, c.Instance outer.scope s.next (c.compose o outer.scope r s).2.next m
  | .single cls, s, hnext => by
    obtain ⟨hcomposed, hmade⟩ := instance?_spec houter (.single cls) hnext
    refine ⟨hcomposed, fun ms hms m hm => ?_⟩
    obtain ⟨n, hn, rfl⟩ := Option.map_eq_some_iff.mp hms
    obtain rfl := mem_singleton.mp hm
    obtain ⟨k, hk, -, hcopy⟩ := hmade m hn
    obtain ⟨key, -, hfind⟩ := Option.bind_eq_some_iff.mp hk
    exact ⟨k, (mem_of_find? hfind).1, hcopy⟩
  | .mixin bases slots macros, s, hnext => by
    obtain ⟨hcomposed, hmade⟩ := instance?_spec houter (.mixin bases slots macros) hnext
    unfold compose
    cases hinst : c.instance? outer.scope (.mixin bases slots macros) s with
    | mk made t =>
      rw [hinst] at hcomposed hmade
      cases made with
      | none => exact ⟨hcomposed, nofun⟩
      | some m =>
        obtain ⟨k, hk, -, hcopy⟩ := hmade m rfl
        obtain ⟨key, -, hfind⟩ := Option.bind_eq_some_iff.mp hk
        have hm : c.Instance outer.scope s.next t.next m := ⟨k, (mem_of_find? hfind).1, hcopy⟩
        have hslots := composeSlots_spec houter o slots t s.next m hm (hnext.trans hcomposed.next)
        have hall := hcomposed.trans hslots
        dsimp only at hslots hall ⊢
        split
        · next hres =>
          rw [hres] at hslots hall
          refine ⟨hall, fun ms hms n hn => ?_⟩
          obtain rfl := Option.some.inj hms
          obtain rfl := mem_singleton.mp hn
          exact hm.mono (Nat.le_refl _) hslots.next
        · next hres =>
          rw [hres] at hall
          exact ⟨hall, nofun⟩
  | .array values, s, hnext => composeValues_spec houter o values s hnext

theorem composeSlots_spec (houter : outer.Coherent c.modules) (o : Options) :
    ∀ (slots : List (String × Request)) (s : Composing) (lo : Nat) (m : Module),
      c.Instance outer.scope lo s.next m → outer.next ≤ s.next →
      c.Composed outer.scope s (c.composeSlots o outer.scope m slots s).2
  | [], s, _, _, _, _ => .refl s
  | (slot, value) :: rest, s, lo, m, hm, hnext => by
    unfold composeSlots
    split
    · next hslot =>
      have hwarn : c.Composed outer.scope s
          (if o.warnUnknownSlot then s.report (.warning (.unknownSlot m.name slot)) else s) := by
        split
        · exact .report s _
        · exact .refl s
      exact hwarn.trans (composeSlots_spec houter o rest _ lo m
        (hm.mono (Nat.le_refl _) hwarn.next) (hnext.trans hwarn.next))
    · next key hslot =>
      obtain ⟨hvalue, hmade⟩ := compose_spec houter o value s hnext
      split
      · next t hres =>
        rw [hres] at hvalue
        exact hvalue
      · next values t hres =>
        rw [hres] at hvalue hmade
        have hfills : c.Fills outer.scope (key, values) := by
          obtain ⟨x, hx, hid⟩ := slot?_mem hslot
          refine ⟨s.next, ?_, fun v hv => ⟨t.next, hmade values rfl v hv⟩⟩
          rw [hid]
          exact (hm.id_of_mem hx).imp_right And.right
        have hfill := hvalue.trans (.fill t slot hfills)
        exact hfill.trans (composeSlots_spec houter o rest _ lo m
          (hm.mono (Nat.le_refl _) hfill.next) (hnext.trans hfill.next))

theorem composeValues_spec (houter : outer.Coherent c.modules) (o : Options) :
    ∀ (values : List Request) (s : Composing), outer.next ≤ s.next →
      c.Composed outer.scope s (c.composeValues o outer.scope values s).2 ∧
        ∀ ms, (c.composeValues o outer.scope values s).1 = some ms →
          ∀ m ∈ ms, c.Instance outer.scope s.next (c.composeValues o outer.scope values s).2.next m
  | [], s, _ => ⟨.refl s, by rintro ms ⟨⟩ m hm; exact absurd hm not_mem_nil⟩
  | value :: rest, s, hnext => by
    obtain ⟨hvalue, hmade⟩ := compose_spec houter o value s hnext
    unfold composeValues
    split
    · next t hres =>
      rw [hres] at hvalue
      exact ⟨hvalue, nofun⟩
    · next ms t hres =>
      rw [hres] at hvalue hmade
      obtain ⟨hrest, hmore⟩ := composeValues_spec houter o rest t (hnext.trans hvalue.next)
      refine ⟨hvalue.trans hrest, fun all hall m hm => ?_⟩
      obtain ⟨more, hres', rfl⟩ := Option.map_eq_some_iff.mp hall
      rcases mem_append.mp hm with hm | hm
      · exact (hmade ms rfl m hm).mono (Nat.le_refl _) hrest.next
      · exact (hmore more hres' m hm).mono hvalue.next (Nat.le_refl _)

end

end Context

end ShaderCompose
