import Mathlib.Data.List.Forall2
import ShaderCompose.Proofs.Module.Parts

/-!
A module with other numbers.
-/

namespace ShaderCompose.Module

open List

@[elab_as_elim]
theorem bases_induction {P : Module → Prop} (step : ∀ m, (∀ b ∈ m.bases, P b) → P m) (m : Module) :
    P m :=
  @Module.rec P (fun ms => ∀ b ∈ ms, P b) (fun _ _ _ _ _ ih => step _ ih) (fun _ h => absurd h not_mem_nil)
    (fun _ _ hm hms => forall_mem_cons.mpr ⟨hm, hms⟩) m

theorem not_part_of_base {m b : Module} (hb : b ∈ m.bases) : ¬ Part m b := by
  have small : ∀ {a n : Module}, Part a n → sizeOf a ≤ sizeOf n := by
    intro a n h
    induction h with
    | self => exact Nat.le_refl _
    | @base c n hc _ ih =>
      have := sizeOf_lt_of_mem hc
      cases n
      simp only [mk.sizeOf_spec] at *
      omega
  intro h
  have := small h
  have := sizeOf_lt_of_mem hb
  cases m
  simp only [mk.sizeOf_spec] at *
  omega

mutual

def renumber (f : Nat → Nat) : Module → Module
  | ⟨id, key, cls, bases, digest⟩ => ⟨f id, key, cls, renumberAll f bases, digest⟩

def renumberAll (f : Nat → Nat) : List Module → List Module
  | [] => []
  | m :: ms => renumber f m :: renumberAll f ms

end

variable (f : Nat → Nat)

theorem renumberAll_eq_map (ms : List Module) : renumberAll f ms = ms.map (renumber f) := by
  induction ms with
  | nil => rfl
  | cons m ms ih => rw [renumberAll, ih, map_cons]

section

variable (f : Nat → Nat) (m : Module)

@[simp] theorem id_renumber : (m.renumber f).id = f m.id := by cases m; rfl
@[simp] theorem key_renumber : (m.renumber f).key = m.key := by cases m; rfl
@[simp] theorem cls_renumber : (m.renumber f).cls = m.cls := by cases m; rfl
@[simp] theorem digest_renumber : (m.renumber f).digest = m.digest := by cases m; rfl

@[simp] theorem bases_renumber : (m.renumber f).bases = m.bases.map (renumber f) := by
  cases m
  exact renumberAll_eq_map f _

@[simp] theorem name_renumber : (m.renumber f).name = m.name := by simp [name]

@[simp] theorem isStageOnly_renumber : (m.renumber f).isStageOnly = m.isStageOnly := by
  simp [isStageOnly]

end

theorem renumber_congr {f g : Nat → Nat} {m : Module} (h : ∀ a, Part a m → f a.id = g a.id) :
    m.renumber f = m.renumber g := by
  induction m using bases_induction with
  | step m ih =>
    obtain ⟨id, key, cls, bases, digest⟩ := m
    have hid := h _ (.self _)
    have hbases : bases.map (renumber f) = bases.map (renumber g) :=
      map_congr_left fun b hb => ih b hb fun a ha => h a (.base hb ha)
    simp only [renumber, renumberAll_eq_map, hid, hbases]

/-! ## The hierarchy -/

structure Corresponds (R : Module → Module → Prop) : Prop where
  name : ∀ {a b}, R a b → a.name = b.name
  bases : ∀ {a b}, R a b → List.Forall₂ R a.bases b.bases

variable {R : Module → Module → Prop}

mutual

theorem visit_forall₂ (hR : Corresponds R) : ∀ (m n : Module) (w v : Walk), R m n → w.seen = v.seen →
    List.Forall₂ R w.done v.done →
    (m.visit w).seen = (n.visit v).seen ∧ List.Forall₂ R (m.visit w).done (n.visit v).done
  | ⟨id, key, cls, bases, digest⟩, ⟨id', key', cls', bases', digest'⟩, w, v, h, hseen, hdone => by
    have hcls : cls.name = cls'.name := hR.name h
    simp only [visit, ← hseen, ← hcls]
    split
    · exact ⟨hseen, hdone⟩
    · obtain ⟨hseen, hdone⟩ := visitAll_forall₂ hR bases bases' { w with seen := cls.name :: w.seen }
        { v with seen := cls.name :: w.seen } (hR.bases h) rfl hdone
      exact ⟨hseen, rel_append hdone (.cons h .nil)⟩

theorem visitAll_forall₂ (hR : Corresponds R) : ∀ (ms ns : List Module) (w v : Walk), List.Forall₂ R ms ns →
    w.seen = v.seen → List.Forall₂ R w.done v.done →
    (visitAll ms w).seen = (visitAll ns v).seen ∧ List.Forall₂ R (visitAll ms w).done (visitAll ns v).done
  | [], _, _, _, .nil, hseen, hdone => ⟨hseen, hdone⟩
  | m :: ms, n :: ns, w, v, .cons h hs, hseen, hdone => by
    obtain ⟨hseen, hdone⟩ := visit_forall₂ hR m n w v h hseen hdone
    exact visitAll_forall₂ hR ms ns (m.visit w) (n.visit v) hs hseen hdone

end

theorem Corresponds.hierarchy (hR : Corresponds R) {m n : Module} (h : R m n) :
    List.Forall₂ R m.hierarchy n.hierarchy :=
  (visit_forall₂ hR m n {} {} h rfl .nil).2

theorem corresponds_renumber : Corresponds fun a b => renumber f a = b where
  name h := by rw [← h, name_renumber]
  bases h := by
    rw [← h, bases_renumber, forall₂_map_right_iff, forall₂_same]
    exact fun _ _ => rfl

@[simp] theorem hierarchy_renumber (m : Module) :
    (m.renumber f).hierarchy = m.hierarchy.map (renumber f) := by
  have h := (corresponds_renumber f).hierarchy (m := m) rfl
  rw [← forall₂_map_left_iff, forall₂_eq_eq_eq] at h
  exact h.symm

@[simp] theorem inherits_renumber (m : Module) (cls : String) :
    (m.renumber f).inherits cls = m.inherits cls := by
  simp [inherits, Function.comp_def]

mutual

theorem visit_done : ∀ (m : Module) (w : Walk) {a : Module}, a ∈ (m.visit w).done → a ∈ w.done ∨ Part a m
  | ⟨id, key, cls, bases, digest⟩, w, a, h => by
    simp only [visit] at h
    split at h
    · exact .inl h
    · rcases mem_append.mp h with h | h
      · rcases visitAll_done bases _ h with h | ⟨b, hb, h⟩
        · exact .inl h
        · exact .inr (.base hb h)
      · rw [mem_singleton.mp h]
        exact .inr (.self _)

theorem visitAll_done : ∀ (ms : List Module) (w : Walk) {a : Module}, a ∈ (visitAll ms w).done →
    a ∈ w.done ∨ ∃ m ∈ ms, Part a m
  | [], _, _, h => .inl h
  | m :: ms, w, a, h => by
    rcases visitAll_done ms _ h with h | ⟨n, hn, h⟩
    · rcases visit_done m w h with h | h
      · exact .inl h
      · exact .inr ⟨m, mem_cons_self, h⟩
    · exact .inr ⟨n, mem_cons_of_mem _ hn, h⟩

end

theorem part_of_mem_hierarchy {a m : Module} (h : a ∈ m.hierarchy) : Part a m :=
  (visit_done m {} h).resolve_left not_mem_nil

theorem self_mem_hierarchy (m : Module) : m ∈ m.hierarchy := by
  cases m
  simp [hierarchy, visit]

end ShaderCompose.Module
