import ShaderCompose.Proofs.Mix.Instances

/-!
What is wrong with the slots of a tree.
-/

namespace ShaderCompose.Mix

open List

def FilledSlot.mismatch (slot : FilledSlot) (v : Module) : Diagnostic :=
  .errorAt slot.loc (.compositionType slot.name slot.type.element.text v.name)

def FilledSlot.accepted (slot : FilledSlot) : List Module :=
  slot.values.filter fun v => v.inherits slot.expected

/-- What is to be complained about below a module. -/
inductive Complains (filled : Composition) : Module → Diagnostic → Prop
  | type {m v : Module} {slot : FilledSlot} : slot ∈ filledSlots filled m → v ∈ slot.values →
      v.inherits slot.expected = false → Complains filled m (slot.mismatch v)
  | count {m : Module} {slot : FilledSlot} : slot ∈ filledSlots filled m → slot.takes slot.accepted.length = false →
      Complains filled m (.errorAt slot.loc (.compositionArray slot.name))
  | inner {m v : Module} {slot : FilledSlot} {d : Diagnostic} : slot ∈ filledSlots filled m → v ∈ slot.values →
      v.inherits slot.expected = true → Complains filled v d → Complains filled m d

structure Reports (s t : Collecting) (done : Bool) (complaint : Diagnostic → Prop) : Prop where
  grows : s.log <+: t.log
  only : ∀ d ∈ t.log, d ∈ s.log ∨ complaint d
  all : done = true → ∀ d, complaint d → d ∈ t.log

namespace Reports

variable {s t u : Collecting} {done : Bool} {first second both : Diagnostic → Prop}

theorem refl (hlog : t.log = s.log) (hnone : ∀ d, ¬ first d) : Reports s t done first :=
  ⟨hlog ▸ prefix_refl _, fun _ hd => .inl (hlog ▸ hd), fun _ d hd => absurd hd (hnone d)⟩

theorem report (s : Collecting) (loc : Span) (message : Message) :
    Reports s (s.report loc message) done (· = .errorAt loc message) where
  grows := prefix_append _ _
  only _ hd := (mem_append.mp hd).imp_right mem_singleton.mp
  all _ _ hd := mem_append_right _ (mem_singleton.mpr hd)

theorem stopped (s : Collecting) : Reports s s false first :=
  ⟨prefix_refl _, fun _ hd => .inl hd, fun hdone => absurd hdone Bool.false_ne_true⟩

theorem broken (h : Reports s t false first) (hsub : ∀ d, first d → both d) : Reports s t false both :=
  ⟨h.grows, fun d hd => (h.only d hd).imp_right (hsub d), fun hdone => absurd hdone Bool.false_ne_true⟩

theorem trans (h : Reports s t true first) (h' : Reports t u done second)
    (hboth : ∀ d, both d ↔ first d ∨ second d) : Reports s u done both where
  grows := h.grows.trans h'.grows
  only d hd := by
    rcases h'.only d hd with hold | hnew
    · exact (h.only d hold).imp_right fun hfirst => (hboth d).mpr (.inl hfirst)
    · exact .inr ((hboth d).mpr (.inr hnew))
  all hdone d hd := by
    rcases (hboth d).mp hd with hfirst | hsecond
    · exact h'.grows.subset (h.all rfl d hfirst)
    · exact h'.all hdone d hsecond

end Reports

section

variable {filled : Composition} {add : Module → (label keySuffix : String) → Collecting → Option Nat × Collecting}
  {complains : Module → Diagnostic → Prop}

def ValueComplains (complains : Module → Diagnostic → Prop) (slot : FilledSlot) (v : Module) (d : Diagnostic) :
    Prop :=
  if v.inherits slot.expected then complains v d else d = slot.mismatch v

theorem collectValues_reports (hadd : ∀ m label keySuffix s, Reports s (add m label keySuffix s).2
      (add m label keySuffix s).1.isSome (complains m)) (slot : FilledSlot) (outer : String) :
    ∀ (ms : List Module) (position : Nat) (s : Collecting), Reports s (collectValues add slot outer position ms s).2
        (collectValues add slot outer position ms s).1.isSome
        (fun d => ∃ v ∈ ms, ValueComplains complains slot v d) ∧
      ∀ numbers, (collectValues add slot outer position ms s).1 = some numbers →
        numbers.length = (ms.filter fun v => v.inherits slot.expected).length := by
  intro ms
  induction ms with
  | nil =>
    intro position s
    refine ⟨.refl rfl ?_, ?_⟩
    · rintro d ⟨v, hv, -⟩
      cases hv
    · rintro numbers ⟨⟩
      rfl
  | cons m ms ih =>
    intro position s
    have hsplit : ∀ d, (∃ v ∈ m :: ms, ValueComplains complains slot v d) ↔
        ValueComplains complains slot m d ∨ ∃ v ∈ ms, ValueComplains complains slot v d := by
      intro d
      simp
    rw [collectValues, filter_cons]
    unfold ValueComplains at hsplit ⊢
    split
    · next hinherits =>
      simp only [hinherits] at hsplit
      have hone := hadd m s!"{m.name}_id{s.instances.length}_" (slot.keySuffix outer position) s
      dsimp only
      generalize add m _ _ s = one at hone ⊢
      obtain ⟨number, t⟩ := one
      cases number with
      | none =>
        refine ⟨hone.broken fun d hd => (hsplit d).mpr (.inl hd), ?_⟩
        rintro _ ⟨⟩
      | some number =>
        obtain ⟨hrest, hlength⟩ := ih (position + 1) t
        dsimp only
        generalize collectValues add slot outer (position + 1) ms t = rest at hrest hlength ⊢
        obtain ⟨numbers, u⟩ := rest
        refine ⟨?_, ?_⟩
        · rw [Option.isSome_map]
          exact hone.trans hrest hsplit
        · rintro _ hnumbers
          obtain ⟨more, hmore, rfl⟩ := Option.map_eq_some_iff.mp hnumbers
          rw [length_cons, length_cons, hlength more hmore]
    · next hinherits =>
      simp only [hinherits] at hsplit
      obtain ⟨hrest, hlength⟩ := ih (position + 1)
        (s.report slot.loc (.compositionType slot.name slot.type.element.text m.name))
      exact ⟨(Reports.report _ _ _).trans hrest hsplit, hlength⟩

def SlotComplains (complains : Module → Diagnostic → Prop) (slot : FilledSlot) (d : Diagnostic) : Prop :=
  (∃ v ∈ slot.values, ValueComplains complains slot v d) ∨
    slot.takes slot.accepted.length = false ∧ d = .errorAt slot.loc (.compositionArray slot.name)

theorem collectSlots_reports (hadd : ∀ m label keySuffix s, Reports s (add m label keySuffix s).2
      (add m label keySuffix s).1.isSome (complains m)) (outer : String) :
    ∀ (slots : List FilledSlot) (s : Collecting),
      Reports s (collectSlots add outer slots s).2 (collectSlots add outer slots s).1.isSome
        (fun d => ∃ slot ∈ slots, SlotComplains complains slot d) := by
  intro slots
  induction slots with
  | nil =>
    intro s
    refine .refl rfl ?_
    rintro d ⟨slot, hslot, -⟩
    cases hslot
  | cons slot slots ih =>
    intro s
    have hsplit : ∀ d, (∃ x ∈ slot :: slots, SlotComplains complains x d) ↔
        SlotComplains complains slot d ∨ ∃ x ∈ slots, SlotComplains complains x d := by
      intro d
      simp
    obtain ⟨hvalues, hlength⟩ := collectValues_reports hadd slot outer slot.values 0 s
    rw [collectSlots]
    generalize collectValues add slot outer 0 slot.values s = one at hvalues hlength ⊢
    obtain ⟨numbers, t⟩ := one
    cases numbers with
    | none => exact hvalues.broken fun d hd => (hsplit d).mpr (.inl (.inl hd))
    | some numbers =>
      have hcount : Reports t
          (if slot.takes numbers.length then t else t.report slot.loc (.compositionArray slot.name)) true
          (fun d => slot.takes slot.accepted.length = false ∧
            d = .errorAt slot.loc (.compositionArray slot.name)) := by
        rw [hlength numbers rfl]
        change Reports t (if slot.takes slot.accepted.length then _ else _) _ _
        cases slot.takes slot.accepted.length with
        | true => exact .refl rfl fun d hd => absurd hd.1 (by decide)
        | false => simpa using Reports.report t slot.loc (.compositionArray slot.name)
      have hslot := hvalues.trans hcount fun d => Iff.rfl (a := SlotComplains complains slot d)
      dsimp only
      generalize (if slot.takes numbers.length then t
        else t.report slot.loc (.compositionArray slot.name)) = u at hslot ⊢
      have hrest := ih u
      generalize collectSlots add outer slots u = rest at hrest ⊢
      obtain ⟨made, w⟩ := rest
      rw [Option.isSome_map]
      exact hslot.trans hrest hsplit

theorem complains_iff {m : Module} {d : Diagnostic} :
    Complains filled m d ↔ ∃ slot ∈ filledSlots filled m, SlotComplains (Complains filled) slot d := by
  constructor
  · intro h
    cases h with
    | type hslot hv hinherits => exact ⟨_, hslot, .inl ⟨_, hv, by simp [ValueComplains, hinherits]⟩⟩
    | count hslot htakes => exact ⟨_, hslot, .inr ⟨htakes, rfl⟩⟩
    | inner hslot hv hinherits hd => exact ⟨_, hslot, .inl ⟨_, hv, by simpa [ValueComplains, hinherits] using hd⟩⟩
  · rintro ⟨slot, hslot, ⟨v, hv, hd⟩ | ⟨htakes, rfl⟩⟩
    · unfold ValueComplains at hd
      split at hd
      · next hinherits => exact .inner hslot hv hinherits hd
      · next hinherits =>
        subst hd
        exact .type hslot hv (eq_false_of_ne_true hinherits)
    · exact .count hslot htakes

theorem collect_reports (c : Context) (filled : Composition) (depth : Nat) (m : Module) (label keySuffix : String)
    (s : Collecting) :
    Reports s (collect c filled depth m label keySuffix s).2 (collect c filled depth m label keySuffix s).1.isSome
      (Complains filled m) := by
  induction depth generalizing m label keySuffix s with
  | zero => exact .stopped s
  | succ depth ih =>
    rw [collect]
    cases c.table? m.key with
    | none => exact .stopped s
    | some table =>
      dsimp only
      generalize hstart : ({ s with instances := _ } : Collecting) = start
      have hslots := collectSlots_reports ih keySuffix (filledSlots filled m) start
      simp only [← complains_iff] at hslots
      have hlog : start.log = s.log := by rw [← hstart]
      generalize collectSlots (collect c filled depth) keySuffix (filledSlots filled m) start = one at hslots ⊢
      obtain ⟨slots, t⟩ := one
      cases slots with
      | none | some slots => exact ⟨hlog ▸ hslots.grows, hlog ▸ hslots.only, hslots.all⟩

theorem mem_log_instancesOf (c : Context) (filled : Composition) (root : Module) :
    (∀ d ∈ (instancesOf c filled root).2, Complains filled root d) ∧ ((instancesOf c filled root).1.isSome = true →
        ∀ d, Complains filled root d → d ∈ (instancesOf c filled root).2) := by
  have hreports := collect_reports c filled (filled.length + 1) root "" "" {}
  unfold instancesOf
  refine ⟨fun d hd => (hreports.only d hd).resolve_left not_mem_nil, fun hsome => hreports.all ?_⟩
  rwa [Option.isSome_map] at hsome

end

/-! ## Values of other classes -/

def isMismatch (d : Diagnostic) : Bool := match d.message with | .compositionType .. => true | _ => false

def Accepts (filled : Composition) (m v : Module) : Prop :=
  ∃ slot ∈ filledSlots filled m, v ∈ slot.values ∧ v.inherits slot.expected = true

structure Collects (filled : Composition) (root : Module) (slot : FilledSlot) (v : Module) : Prop where
  place : ∃ m, Relation.ReflTransGen (Accepts filled) root m ∧ slot ∈ filledSlots filled m
  value : v ∈ slot.values

theorem complains_mismatch_iff {filled : Composition} {root : Module} {d : Diagnostic} :
    (Complains filled root d ∧ isMismatch d = true) ↔
      ∃ slot v, Collects filled root slot v ∧ v.inherits slot.expected = false ∧ d = slot.mismatch v := by
  constructor
  · rintro ⟨h, hmismatch⟩
    induction h with
    | type hslot hv hinherits => exact ⟨_, _, ⟨⟨_, .refl, hslot⟩, hv⟩, hinherits, rfl⟩
    | count => cases hmismatch
    | inner hslot hv hinherits _ ih =>
      obtain ⟨slot, w, ⟨⟨m, hm, hmem⟩, hw⟩, hrest⟩ := ih hmismatch
      exact ⟨slot, w, ⟨⟨m, hm.head ⟨_, hslot, hv, hinherits⟩, hmem⟩, hw⟩, hrest⟩
  · rintro ⟨slot, v, ⟨⟨m, hm, hmem⟩, hv⟩, hinherits, rfl⟩
    refine ⟨?_, rfl⟩
    induction hm using Relation.ReflTransGen.head_induction_on with
    | refl => exact .type hmem hv hinherits
    | head haccepts _ ih =>
      obtain ⟨outer, houter, hvalue, hexpected⟩ := haccepts
      exact .inner houter hvalue hexpected ih

end ShaderCompose.Mix
