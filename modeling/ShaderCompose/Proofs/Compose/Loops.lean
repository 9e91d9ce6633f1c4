import ShaderCompose.Proofs.Compose.Instances
import ShaderCompose.Proofs.Library.Closed
import ShaderCompose.Proofs.Mix.Collect

/-!
What a composition needs to be mixed.
-/

namespace ShaderCompose.Context

open Relation

/-! ## All instances are made -/

def Knows (c : Context) (node : Request) : Prop :=
  ∃ key, node.key? c.macros = some key ∧ (c.find? key).isSome = true

theorem instance?_isSome {c : Context} {r : Request} (h : c.Knows r) (scope : CopyScope)
    (s : Composing) : ∃ m, (c.instance? scope r s).1 = some m := by
  obtain ⟨key, hkey, hfind⟩ := h
  obtain ⟨k, hk⟩ := Option.isSome_iff_exists.mp hfind
  simp [instance?, hkey, hk]

mutual

theorem compose_isSome (c : Context) (o : Options) (scope : CopyScope) :
    ∀ (r : Request) (s : Composing), (∀ node ∈ r.nodes, c.Knows node) → (c.compose o scope r s).1.isSome = true
  | .single cls, s, h => by
    obtain ⟨m, hm⟩ := instance?_isSome (h (.single cls) (by simp [Request.nodes])) scope s
    simp [compose, hm]
  | .mixin bases slots macros, s, h => by
    obtain ⟨hself, hslots⟩ := List.forall_mem_cons.mp h
    obtain ⟨m, hm⟩ := instance?_isSome hself scope s
    unfold compose
    split
    · next hnone => simp [hnone] at hm
    · next made t _ =>
      have := composeSlots_isSome c o scope slots made t hslots
      split
      · rfl
      · next hfalse => simp [hfalse] at this
  | .array values, s, h => composeValues_isSome c o scope values s (by simpa [Request.nodes] using h)

theorem composeSlots_isSome (c : Context) (o : Options) (scope : CopyScope) :
    ∀ (slots : List (String × Request)) (m : Module) (s : Composing),
      (∀ node ∈ Request.slotNodes slots, c.Knows node) →
      (c.composeSlots o scope m slots s).1 = true
  | [], _, _, _ => rfl
  | (slot, value) :: rest, m, s, h => by
    obtain ⟨hvalue, hrest⟩ := List.forall_mem_append.mp h
    unfold composeSlots
    split
    · exact composeSlots_isSome c o scope rest m _ hrest
    · have := compose_isSome c o scope value s hvalue
      split
      · next hnone => simp [hnone] at this
      · exact composeSlots_isSome c o scope rest m _ hrest

theorem composeValues_isSome (c : Context) (o : Options) (scope : CopyScope) :
    ∀ (values : List Request) (s : Composing), (∀ node ∈ Request.listNodes values, c.Knows node) →
      (c.composeValues o scope values s).1.isSome = true
  | [], _, _ => rfl
  | value :: rest, s, h => by
    obtain ⟨hvalue, hrest⟩ := List.forall_mem_append.mp h
    have := compose_isSome c o scope value s hvalue
    unfold composeValues
    split
    · next hnone => simp [hnone] at this
    · rw [Option.isSome_map]
      exact composeValues_isSome c o scope rest _ hrest

end

/-! ## Instances that hold themselves -/

variable {c : Context}

variable {scope : CopyScope} {filled : Composition}

theorem holds_cases (h : ∀ e ∈ filled, c.Fills scope e) {a b : Nat} (hab : filled.Holds a b) :
    c.IsShared scope a ∨ c.IsShared scope b ∨ a < b := by
  obtain ⟨e, he, rfl, v, hv, x, hx, rfl⟩ := hab
  obtain ⟨lo, hid, hvalues⟩ := h e he
  obtain ⟨hi, hinstance⟩ := hvalues v hv
  rcases hid with hid | hid
  · exact .inl hid
  · rcases hinstance.id_of_mem hx with hx | ⟨hlo, -⟩
    · exact .inr (.inl hx)
    · exact .inr (.inr (hid.trans_le hlo))

theorem holds_path (h : ∀ e ∈ filled, c.Fills scope e) {a b : Nat} (hab : TransGen filled.Holds a b) :
    a < b ∨ ∃ i, c.IsShared scope i ∧ ReflTransGen filled.Holds a i ∧
      ReflTransGen filled.Holds i b := by
  induction hab with
  | single hab =>
    rcases holds_cases h hab with ha | hb | hlt
    · exact .inr ⟨a, ha, .refl, .single hab⟩
    · exact .inr ⟨_, hb, .single hab, .refl⟩
    · exact .inl hlt
  | @tail b d hab hbd ih =>
    rcases ih with hlt | ⟨i, hi, hai, hib⟩
    · rcases holds_cases h hbd with hb | hd | hlt'
      · exact .inr ⟨b, hb, hab.to_reflTransGen, .single hbd⟩
      · exact .inr ⟨d, hd, (hab.tail hbd).to_reflTransGen, .refl⟩
      · exact .inl (hlt.trans hlt')
    · exact .inr ⟨i, hi, hai, hib.tail hbd⟩

theorem acyclic_of_shared (h : ∀ e ∈ filled, c.Fills scope e)
    (hshared : ∀ i, c.IsShared scope i → ¬ TransGen filled.Holds i i) (a : Nat) :
    ¬ TransGen filled.Holds a a := by
  intro hloop
  rcases holds_path h hloop with hlt | ⟨i, hi, hai, hia⟩
  · exact absurd hlt (Nat.lt_irrefl a)
  · exact hshared i hi ((TransGen.trans_right hia hloop).trans_left hai)

end ShaderCompose.Context
