import Mathlib.Data.List.Basic
import Mathlib.Order.Nat
import ShaderCompose.Module.Basic

/-!
The parts of a module: itself and all that it inherits from.
-/

namespace ShaderCompose.Module

/-- A module, or one that it inherits from. -/
inductive Part : Module → Module → Prop
  | self (m : Module) : Part m m
  | base {a b m : Module} : b ∈ m.bases → Part a b → Part a m

theorem Part.trans {a b c : Module} (h : Part a b) (h' : Part b c) : Part a c := by
  induction h' with
  | self => exact h
  | base hb _ ih => exact .base hb ih

theorem part_iff {a m : Module} : Part a m ↔ a = m ∨ ∃ b ∈ m.bases, Part a b := by
  constructor
  · intro h
    cases h with
    | self => exact .inl rfl
    | base hb h => exact .inr ⟨_, hb, h⟩
  · rintro (rfl | ⟨b, hb, h⟩)
    · exact .self a
    · exact .base hb h

def Among (ms : List Module) (a : Module) : Prop := ∃ m ∈ ms, a.Part m

section

variable {ms ns : List Module} {a b m : Module}

theorem among_of_mem (h : m ∈ ms) : m.Among ms := ⟨m, h, .self m⟩

theorem Among.part (h : a.Among ms) (hb : b.Part a) : b.Among ms := by
  obtain ⟨m, hm, ha⟩ := h
  exact ⟨m, hm, hb.trans ha⟩

theorem Among.base (h : a.Among ms) (hb : b ∈ a.bases) : b.Among ms := h.part (.base hb (.self b))

theorem Among.trans (h : a.Among ms) (hms : ∀ m ∈ ms, m.Among ns) : a.Among ns := by
  obtain ⟨m, hm, ha⟩ := h
  exact (hms m hm).part ha

theorem Among.mono (h : a.Among ms) (hsub : ms ⊆ ns) : a.Among ns := h.trans fun _ hm => among_of_mem (hsub hm)

theorem Among.of_cons (h : a.Among (m :: ms)) (hbases : ∀ b ∈ m.bases, b.Among ms) : a = m ∨ a.Among ms := by
  obtain ⟨n, hn, ha⟩ := h
  rcases List.mem_cons.mp hn with rfl | hn
  · exact (part_iff.mp ha).imp_right fun hb => hb.elim fun b hb => (hbases b hb.1).part hb.2
  · exact .inr ⟨n, hn, ha⟩

end

/-- Each number stands for one part. -/
structure Numbered (next : Nat) (ms : List Module) : Prop where
  below : ∀ m ∈ ms, ∀ a, Part a m → a.id < next
  unique : ∀ m ∈ ms, ∀ n ∈ ms, ∀ a b, Part a m → Part b n → a.id = b.id → a = b

namespace Numbered

variable {next : Nat} {ms : List Module}

theorem nil (next : Nat) : Numbered next [] :=
  ⟨fun _ h => absurd h List.not_mem_nil, fun _ h => absurd h List.not_mem_nil⟩

theorem mono (h : Numbered next ms) {more : Nat} (hle : next ≤ more) : Numbered more ms :=
  ⟨fun m hm a ha => Nat.lt_of_lt_of_le (h.below m hm a ha) hle, h.unique⟩

theorem lt (h : Numbered next ms) {a : Module} (ha : a.Among ms) : a.id < next := by
  obtain ⟨m, hm, ha⟩ := ha
  exact h.below m hm a ha

theorem eq (h : Numbered next ms) {a b : Module} (ha : a.Among ms) (hb : b.Among ms) (hid : a.id = b.id) : a = b := by
  obtain ⟨m, hm, ha⟩ := ha
  obtain ⟨n, hn, hb⟩ := hb
  exact h.unique m hm n hn a b ha hb hid

theorem of_among (h : Numbered next ms) {ns : List Module} (hns : ∀ m ∈ ns, m.Among ms) : Numbered next ns :=
  ⟨fun m hm _ ha => h.lt ((hns m hm).part ha),
    fun m hm n hn _ _ ha hb => h.eq ((hns m hm).part ha) ((hns n hn).part hb)⟩

theorem subset (h : Numbered next ms) {ns : List Module} (hsub : ns ⊆ ms) : Numbered next ns :=
  h.of_among fun _ hm => among_of_mem (hsub hm)

theorem extend (h : Numbered next ms) {m : Module} (hid : m.id = next) (hbases : ∀ b ∈ m.bases, b.Among ms) :
    Numbered (next + 1) (m :: ms) := by
  refine ⟨fun n hn a ha => ?_, fun n hn n' hn' a b ha hb hab => ?_⟩
  · rcases Among.of_cons ⟨n, hn, ha⟩ hbases with rfl | ha
    · omega
    · exact Nat.lt_succ_of_lt (h.lt ha)
  · rcases Among.of_cons ⟨n, hn, ha⟩ hbases with rfl | ha <;>
      rcases Among.of_cons ⟨n', hn', hb⟩ hbases with rfl | hb
    · rfl
    · exact absurd (h.lt hb) (by omega)
    · exact absurd (h.lt ha) (by omega)
    · exact h.eq ha hb hab

end Numbered

end ShaderCompose.Module
