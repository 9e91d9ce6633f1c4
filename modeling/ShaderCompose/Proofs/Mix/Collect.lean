import Mathlib.Data.List.Perm.Subperm
import ShaderCompose.Mix.Instance
import ShaderCompose.Proofs.Pairs

/-!
Collecting the instances of a tree ends if no module holds itself.
-/

namespace ShaderCompose

open List Relation

def Composition.Holds (filled : Composition) (a b : Nat) : Prop :=
  ∃ e ∈ filled, e.1.instanceId = a ∧ ∃ v ∈ e.2, ∃ x ∈ v.hierarchy, x.id = b

namespace Mix

variable {filled : Composition}

theorem mem_filledSlots {m : Module} {slot : FilledSlot} (h : slot ∈ filledSlots filled m) :
    slot.values = [] ∨ ∃ x ∈ m.hierarchy, ∃ decl, (⟨x.id, decl⟩, slot.values) ∈ filled := by
  obtain ⟨x, hx, hslot⟩ := mem_flatMap.mp h
  obtain ⟨⟨id, d⟩, -, hd⟩ := mem_filterMap.mp hslot
  dsimp only at hd
  split at hd
  · obtain ⟨type, -, rfl⟩ := Option.map_eq_some_iff.mp hd
    cases hfilled : filled.lookup ⟨x.id, id⟩ with
    | none => exact .inl rfl
    | some values => exact .inr ⟨x, hx, id, mem_of_lookup hfilled⟩
  · cases hd

theorem entry_of_mem_values {m v : Module} {slot : FilledSlot} (h : slot ∈ filledSlots filled m)
    (hv : v ∈ slot.values) : ∃ x ∈ m.hierarchy, ∃ decl, (⟨x.id, decl⟩, slot.values) ∈ filled :=
  (mem_filledSlots h).resolve_left (ne_nil_of_mem hv)

section

variable {add : Module → (label keySuffix : String) → Collecting → Option Nat × Collecting}

theorem collectValues_isSome (slot : FilledSlot) (outer : String) :
    ∀ (ms : List Module) (position : Nat) (s : Collecting),
      (∀ m ∈ ms, ∀ label keySuffix s, (add m label keySuffix s).1.isSome = true) →
      (collectValues add slot outer position ms s).1.isSome = true := by
  intro ms
  induction ms with
  | nil => exact fun _ _ _ => rfl
  | cons m ms ih =>
    intro position s hadd
    have hrest := fun n hn => hadd n (mem_cons_of_mem m hn)
    rw [collectValues]
    split
    · have hm := hadd m mem_cons_self s!"{m.name}_id{s.instances.length}_" (slot.keySuffix outer position) s
      dsimp only
      generalize add m _ _ s = one at hm ⊢
      obtain ⟨number, t⟩ := one
      cases number with
      | none => cases hm
      | some number =>
        rw [Option.isSome_map]
        exact ih (position + 1) t hrest
    · exact ih (position + 1) _ hrest

theorem collectSlots_isSome (outer : String) : ∀ (slots : List FilledSlot) (s : Collecting),
      (∀ slot ∈ slots, ∀ m ∈ slot.values, ∀ label keySuffix s, (add m label keySuffix s).1.isSome = true) →
      (collectSlots add outer slots s).1.isSome = true := by
  intro slots
  induction slots with
  | nil => exact fun _ _ => rfl
  | cons slot slots ih =>
    intro s hadd
    have hvalues := collectValues_isSome slot outer slot.values 0 s (hadd slot mem_cons_self)
    rw [collectSlots]
    generalize collectValues add slot outer 0 slot.values s = one at hvalues ⊢
    obtain ⟨numbers, t⟩ := one
    cases numbers with
    | none => cases hvalues
    | some numbers =>
      rw [Option.isSome_map]
      exact ih _ fun other hother => hadd other (mem_cons_of_mem slot hother)

theorem collectValues_eq_none {outer : String} {slot : FilledSlot} {v : Module} (hv : v.inherits slot.expected = true)
    (hadd : ∀ label keySuffix s, (add v label keySuffix s).1 = none) : ∀ (ms : List Module) (position : Nat)
      (s : Collecting), v ∈ ms → (collectValues add slot outer position ms s).1 = none := by
  intro ms
  induction ms with
  | nil => exact fun _ _ h => absurd h not_mem_nil
  | cons m ms ih =>
    intro position s hmem
    rw [collectValues]
    split
    · dsimp only
      split
      · rfl
      · next number t hm =>
        rcases mem_cons.mp hmem with rfl | hmem
        · have hnone := hadd s!"{v.name}_id{s.instances.length}_" (slot.keySuffix outer position) s
          rw [hm] at hnone
          cases hnone
        · rw [ih (position + 1) t hmem]
          rfl
    · next hother =>
      rcases mem_cons.mp hmem with rfl | hmem
      · exact absurd hv hother
      · exact ih (position + 1) _ hmem

theorem collectSlots_eq_none {outer : String} {slot : FilledSlot}
    (hvalues : ∀ s, (collectValues add slot outer 0 slot.values s).1 = none) : ∀ (slots : List FilledSlot)
      (s : Collecting), slot ∈ slots → (collectSlots add outer slots s).1 = none := by
  intro slots
  induction slots with
  | nil => exact fun _ h => absurd h not_mem_nil
  | cons first slots ih =>
    intro s hmem
    rw [collectSlots]
    split
    · rfl
    · next numbers t hfirst =>
      rcases mem_cons.mp hmem with rfl | hmem
      · have hnone := hvalues s
        rw [hfirst] at hnone
        cases hnone
      · dsimp only
        rw [ih _ hmem]
        rfl

end

variable {context : Context}

theorem collect_isSome (acyclic : ∀ a, ¬ TransGen filled.Holds a a)
    (known : ∀ e ∈ filled, ∀ v ∈ e.2, (context.table? v.key).isSome = true) :
    ∀ (depth : Nat) (m : Module) (label keySuffix : String) (s : Collecting) (above : List SlotKey),
      (context.table? m.key).isSome = true → filled.length < depth + above.length →
      above.Nodup → above ⊆ filled.map (·.1) →
      (∀ k ∈ above, ∀ x ∈ m.hierarchy, TransGen filled.Holds k.instanceId x.id) →
      (collect context filled depth m label keySuffix s).1.isSome = true := by
  intro depth
  induction depth with
  | zero =>
    intro m label keySuffix s above _ hdepth hnodup hsub _
    have := (subperm_of_subset hnodup hsub).length_le
    rw [length_map] at this
    omega
  | succ depth ih =>
    intro m label keySuffix s above hknown hdepth hnodup hsub habove
    obtain ⟨table, htable⟩ := Option.isSome_iff_exists.mp hknown
    rw [collect, htable]
    dsimp only
    have hslots : ∀ slot ∈ filledSlots filled m, ∀ v ∈ slot.values, ∀ label keySuffix s,
        (collect context filled depth v label keySuffix s).1.isSome = true := by
      intro slot hslot v hv label keySuffix s
      obtain ⟨x, hx, decl, hentry⟩ := entry_of_mem_values hslot hv
      have holds : ∀ y ∈ v.hierarchy, filled.Holds x.id y.id := fun y hy => ⟨_, hentry, rfl, v, hv, y, hy, rfl⟩
      -- a slot that the module lies in is not one of its own
      have hfresh : (⟨x.id, decl⟩ : SlotKey) ∉ above := fun hmem => acyclic x.id (habove _ hmem x hx)
      refine ih v label keySuffix s (⟨x.id, decl⟩ :: above) (known _ hentry v hv) ?_
        (nodup_cons.mpr ⟨hfresh, hnodup⟩)
        (cons_subset.mpr ⟨mem_map_of_mem hentry, hsub⟩)
        (forall_mem_cons.mpr ⟨?_, ?_⟩)
      · rw [length_cons]
        omega
      · exact fun y hy => .single (holds y hy)
      · exact fun k hk y hy => (habove k hk x hx).tail (holds y hy)
    generalize ({ s with instances := _ } : Collecting) = start
    have hone := collectSlots_isSome keySuffix (filledSlots filled m) start hslots
    generalize collectSlots (collect context filled depth) keySuffix (filledSlots filled m) start = one at hone ⊢
    obtain ⟨slots, t⟩ := one
    cases slots with
    | none => cases hone
    | some slots => rfl

theorem instancesOf_isSome {root : Module}
    (acyclic : ∀ a, ¬ TransGen filled.Holds a a)
    (known : ∀ e ∈ filled, ∀ v ∈ e.2, (context.table? v.key).isSome = true)
    (hroot : (context.table? root.key).isSome = true) :
    (instancesOf context filled root).1.isSome = true := by
  rw [instancesOf, Option.isSome_map]
  exact collect_isSome acyclic known (filled.length + 1) root "" "" {} [] hroot
    (Nat.lt_succ_self _) nodup_nil (nil_subset _) (forall_mem_nil _)

/-! ## Instances without end -/

/-- Every module of a tree takes another one. -/
def Endless (filled : Composition) (root : Module) : Prop :=
  ∀ m ∈ root :: filled.flatMap Prod.snd, ∃ slot ∈ filledSlots filled m, ∃ v ∈ slot.values,
    v.inherits slot.expected = true

instance (filled : Composition) (root : Module) : Decidable (Endless filled root) := by
  unfold Endless
  infer_instance

theorem Endless.collect_eq_none {root : Module} (h : Endless filled root)
    (depth : Nat) (label keySuffix : String) (s : Collecting) :
    (collect context filled depth root label keySuffix s).1 = none := by
  have hall : ∀ depth, ∀ m ∈ root :: filled.flatMap Prod.snd, ∀ label keySuffix s,
      (collect context filled depth m label keySuffix s).1 = none := by
    intro depth
    induction depth with
    | zero => exact fun _ _ _ _ _ => rfl
    | succ depth ih =>
      intro m hm label keySuffix s
      obtain ⟨slot, hslot, v, hv, hinherits⟩ := h m hm
      have hwithin : v ∈ root :: filled.flatMap Prod.snd := by
        obtain ⟨x, -, decl, hentry⟩ := entry_of_mem_values hslot hv
        exact mem_cons_of_mem _ (mem_flatMap.mpr ⟨_, hentry, hv⟩)
      have hvalues : ∀ s, (collectValues (collect context filled depth) slot keySuffix 0 slot.values s).1 = none :=
        fun s => collectValues_eq_none hinherits (ih v hwithin) slot.values 0 s hv
      rw [collect]
      split
      · rfl
      · dsimp only
        split
        · rfl
        · next slots t hslots =>
          have hnone := congrArg Prod.fst hslots
          rw [collectSlots_eq_none hvalues _ _ hslot] at hnone
          cases hnone
  exact hall depth root mem_cons_self label keySuffix s

end Mix

end ShaderCompose
