import ShaderCompose.Proofs.Engine.Mixing
import ShaderCompose.Proofs.Engine.Outcome
import ShaderCompose.Proofs.Library.Joined
import ShaderCompose.Proofs.Module.Conflicts

/-!
The modules that a request loads, and their bases.
-/

namespace ShaderCompose

open List

theorem Context.quiet_table {c : Context} (h : c.log.hasErrors = false) {k : KnownClass}
    (hk : k ∈ c.classes) : k.table.log.hasErrors = false := by
  have hall : c.declarationLog.hasErrors = false := by
    unfold Context.log at h
    dsimp only at h
    split at h
    · exact h
    · next hquiet => exact eq_false_of_ne_true hquiet
  refine eq_false_of_ne_true fun htable => ?_
  obtain ⟨d, hd, herror⟩ := any_eq_true.mp htable
  have hany : c.declarationLog.hasErrors = true := any_eq_true.mpr ⟨d, mem_flatMap.mpr ⟨k, hk, hd⟩, herror⟩
  rw [hall] at hany
  cases hany

namespace Engine

open Mix

def Loads (e : Engine) (r : Request) (macros : List MacroDef) (m : Module) : Prop :=
  m ∈ (e.loading r macros).loaded.modules

variable {e : Engine} {r : Request} {macros : List MacroDef}

theorem loads_iff {m : Module} : e.Loads r macros m ↔ ∃ entry ∈ (e.loading r macros).loaded, entry.2.module = m :=
  mem_map

theorem Reachable.loads_unique (h : e.Reachable) {a b : Module} (ha : e.Loads r macros a)
    (hb : e.Loads r macros b) (hkey : a.key = b.key) : a = b := by
  obtain ⟨x, hx, rfl⟩ := loads_iff.mp ha
  obtain ⟨y, hy, rfl⟩ := loads_iff.mp hb
  have hsound := h.sound.loading r macros
  have hsame : x.1 = y.1 := (hsound.key x hx).symm.trans (hkey.trans (hsound.key y hy))
  rw [inj_on_of_nodup_map hsound.nodup hx hy hsame]

theorem Reachable.loads_sourced (h : e.Reachable) {m : Module} (hm : e.Loads r macros m) : m.Sourced :=
  h.sourced r macros ⟨m, mem_append_right _ hm, .self m⟩

theorem Reachable.inTree_renumber (h : e.Reachable) {root m : Module}
    (hroot : ((e.loaded r macros).composed (e.contextOf r macros) r).1 = some [root])
    (hm : InTree ((e.loaded r macros).composed (e.contextOf r macros) r).2.filled root m) :
    ∃ origin f, e.Loads r macros origin ∧ m = origin.renumber f := by
  obtain ⟨hfilled, hroots⟩ := h.sound.composed_spec r macros
  have hinstance : ∃ lo hi, (e.contextOf r macros).Instance
      ((e.loaded r macros).requestScope (e.contextOf r macros)).scope lo hi m := by
    rcases hm with rfl | ⟨entry, hentry, hm⟩
    · exact hroots _ hroot _ (mem_singleton_self _)
    · obtain ⟨lo, -, hvalues⟩ := hfilled entry hentry
      obtain ⟨hi, hm⟩ := hvalues m hm
      exact ⟨lo, hi, hm⟩
  obtain ⟨lo, hi, k, hk, f, rfl, -⟩ := hinstance
  obtain ⟨entry, hentry, rfl⟩ := Context.mem_classes_make.mp hk
  exact ⟨entry.2.module, f, Cache.mem_modules hentry, rfl⟩

theorem Reachable.inTree_loads (h : e.Reachable) {root m : Module}
    (hroot : ((e.loaded r macros).composed (e.contextOf r macros) r).1 = some [root])
    (hm : InTree ((e.loaded r macros).composed (e.contextOf r macros) r).2.filled root m) :
    ∃ origin, e.Loads r macros origin ∧ m.key = origin.key ∧ m.name = origin.name := by
  obtain ⟨origin, f, horigin, rfl⟩ := h.inTree_renumber hroot hm
  exact ⟨origin, horigin, Module.key_renumber _ _, Module.name_renumber _ _⟩

theorem Reachable.instance_loads (h : e.Reachable) {instances : List MixInstance}
    (his : (e.loaded r macros).instances (e.contextOf r macros) r = some instances) {n : Nat}
    {i : MixInstance} (hi : instances[n]? = some i) :
    ∃ m, e.Loads r macros m ∧ i.table = .ofModule m ∧ i.label = labelOf m.name n := by
  obtain ⟨root, hroot, hmade⟩ := instances_made his
  obtain ⟨m, htree, hm⟩ := hmade n i hi
  obtain ⟨origin, horigin, hkey, hname⟩ := h.inTree_loads hroot htree
  obtain ⟨entry, hentry, hkey', htable⟩ := Context.table?_make hm.table
  have hsame := h.loads_unique (Cache.mem_modules hentry) horigin (hkey'.trans hkey)
  exact ⟨origin, horigin, by rw [htable, hsame], by rw [hm.label, hname]⟩

theorem check_context {context : Context} {outcome : Outcome} {e' : Engine}
    (h : e.check r macros = (some context, outcome, e')) :
    e' = e.loaded r macros ∧ context = e.contextOf r macros ∧ context.log.hasErrors = false := by
  refine ⟨?_, (check_some h).2.1, ?_⟩
  · rw [← check_engine, h]
  · unfold check at h
    dsimp only at h
    split at h
    · cases h
    · obtain ⟨hcontext, -⟩ := Prod.mk.inj h
      split at hcontext
      · cases hcontext
      · next hquiet =>
        cases hcontext
        simp only [Log.hasErrors_append, Bool.or_eq_true, not_or, Bool.not_eq_true] at hquiet
        exact hquiet.2

theorem Reachable.tidy (h : e.Reachable) {context : Context} {outcome : Outcome} {e' : Engine}
    (hcheck : e.check r macros = (some context, outcome, e'))
    (hbases : ∀ entry ∈ (e.loading r macros).loaded, ∀ k ∈ entry.2.baseKeys, ¬ k.IsMixin)
    (hnames : ∀ a b, e.Loads r macros a → e.Loads r macros b → a.name = b.name → a = b) :
    Tidy (e.Loads r macros) where
  bases m hm b hb := by
    obtain ⟨entry, hentry, rfl⟩ := loads_iff.mp hm
    obtain ⟨k, hk, hkb⟩ := mem_right_of_forall₂ (h.base_loaded (check_some hcheck).1 hentry) hb
    obtain ⟨c, hc, rfl⟩ := hkb.resolve_left (hbases entry hentry k hk)
    exact Cache.mem_modules (mem_of_lookup hc)
  names := hnames
  quiet m hm := by
    obtain ⟨entry, hentry, rfl⟩ := loads_iff.mp hm
    obtain ⟨-, rfl, hlog⟩ := check_context hcheck
    exact Context.quiet_table hlog (Context.mem_classes_make.mpr ⟨entry, hentry, rfl⟩)

theorem Reachable.class_loads (h : e.Reachable) (htidy : Tidy (e.Loads r macros)) {instances : List MixInstance}
    (his : (e.loaded r macros).instances (e.contextOf r macros) r = some instances) {i : MixInstance}
    (hi : i ∈ instances) : ∃ m, e.Loads r macros m ∧ i.table = .ofModule m ∧
      ∀ cls ∈ i.table.classes, ∃ a ∈ m.hierarchy, e.Loads r macros a ∧ a.cls = cls := by
  obtain ⟨n, hn⟩ := mem_iff_getElem?.mp hi
  obtain ⟨m, hm, htable, -⟩ := h.instance_loads his hn
  refine ⟨m, hm, htable, fun cls hcls => ?_⟩
  rw [htable, MemberTable.classes_ofModule] at hcls
  obtain ⟨a, ha, rfl⟩ := mem_map.mp hcls
  exact ⟨a, ha, htidy.mem_hierarchy hm ha, rfl⟩

end Engine

end ShaderCompose
