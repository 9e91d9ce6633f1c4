import ShaderCompose.Proofs.Mix.Collect

/-!
The instances that are collected.
-/

namespace ShaderCompose.Mix

open List

def labelOf (name : String) (number : Nat) : String :=
  if number = 0 then "" else s!"{name}_id{number}_"

def At (c : Context) (instances : List MixInstance) (number : Nat) (m : Module) : Prop :=
  ∃ i, instances[number]? = some i ∧ i.name = m.name ∧ c.table? m.key = some i.table

structure SlotMade (c : Context) (instances : List MixInstance) (slot : FilledSlot)
    (made : String × Filling) : Prop where
  name : made.1 = slot.name
  isArray : made.2.isArray = slot.type.isArray
  instances : ∀ j ∈ made.2.instances, ∃ v ∈ slot.values, v.inherits slot.expected = true ∧ At c instances j v

structure MadeOf (c : Context) (filled : Composition) (instances : List MixInstance) (number : Nat)
    (i : MixInstance) (m : Module) : Prop where
  name : i.name = m.name
  table : c.table? m.key = some i.table
  names : i.names = .ofTable i.label i.table
  label : i.label = labelOf m.name number
  slots : List.Forall₂ (SlotMade c instances) (filledSlots filled m) i.slots.reverse

def InTree (filled : Composition) (root m : Module) : Prop :=
  m = root ∨ ∃ e ∈ filled, m ∈ e.2

structure Collected (c : Context) (filled : Composition) (root : Module) (s t : Collecting) : Prop where
  old : s.instances <+: t.instances
  new : ∀ n i, s.instances.length ≤ n → t.instances[n]? = some i →
    ∃ m, InTree filled root m ∧ MadeOf c filled t.instances n i m

section

variable {c : Context} {filled : Composition} {root : Module} {s t u : Collecting}

variable {instances more : List MixInstance} {n : Nat} {m : Module} {slot : FilledSlot}

theorem At.mono (h : At c instances n m) (hgrows : instances <+: more) : At c more n m := by
  obtain ⟨i, hi, hname, htable⟩ := h
  exact ⟨i, getElem?_of_prefix hgrows hi, hname, htable⟩

theorem At.modify {number : Nat} {slots : List (String × Filling)} (h : At c instances n m) :
    At c (instances.modify number fun i => { i with slots }) n m := by
  obtain ⟨i, hi, hname, htable⟩ := h
  by_cases hn : number = n
  · subst hn
    exact ⟨{ i with slots }, by simp [hi], hname, htable⟩
  · exact ⟨i, by simp [hn, hi], hname, htable⟩

theorem SlotMade.imp {made : String × Filling} (h : SlotMade c instances slot made)
    (hat : ∀ n m, At c instances n m → At c more n m) : SlotMade c more slot made := by
  refine ⟨h.name, h.isArray, fun j hj => ?_⟩
  obtain ⟨v, hv, hinherits, hj⟩ := h.instances j hj
  exact ⟨v, hv, hinherits, hat j v hj⟩

theorem MadeOf.imp {i : MixInstance} (h : MadeOf c filled instances n i m)
    (hat : ∀ n m, At c instances n m → At c more n m) :
    MadeOf c filled more n i m :=
  { h with slots := h.slots.imp fun _ _ hslot => hslot.imp hat }

theorem Collected.refl (s : Collecting) : Collected c filled root s s := by
  refine ⟨prefix_refl _, fun n i hn hi => ?_⟩
  have := (List.getElem?_eq_some_iff.mp hi).1
  omega

theorem Collected.trans (h : Collected c filled root s t) (h' : Collected c filled root t u) :
    Collected c filled root s u := by
  refine ⟨h.old.trans h'.old, fun n i hn hi => ?_⟩
  by_cases hlt : n < t.instances.length
  · obtain ⟨rest, hrest⟩ := h'.old
    rw [← hrest, getElem?_append_left hlt] at hi
    obtain ⟨m, hm, hmade⟩ := h.new n i hn hi
    exact ⟨m, hm, hmade.imp fun _ _ hat => hat.mono h'.old⟩
  · exact h'.new n i (Nat.le_of_not_lt hlt) hi

variable {add : Module → (label keySuffix : String) → Collecting → Option Nat × Collecting}

theorem collectValues_cons {outer : String} {position : Nat} {ms : List Module} {numbers : List Nat}
    (h : collectValues add slot outer position (m :: ms) s = (some numbers, t)) :
    (m.inherits slot.expected = true ∧ ∃ number u more,
      add m s!"{m.name}_id{s.instances.length}_" (slot.keySuffix outer position) s = (some number, u) ∧
        collectValues add slot outer (position + 1) ms u = (some more, t) ∧ numbers = number :: more) ∨
      ∃ message, collectValues add slot outer (position + 1) ms (s.report slot.loc message) =
        (some numbers, t) := by
  rw [collectValues] at h
  split at h
  · next hinherits =>
    dsimp only at h
    cases hone : add m s!"{m.name}_id{s.instances.length}_" (slot.keySuffix outer position) s with
    | mk number u =>
      rw [hone] at h
      cases number with
      | none => cases h
      | some number =>
        dsimp only at h
        cases hrest : collectValues add slot outer (position + 1) ms u with
        | mk more v =>
          rw [hrest] at h
          cases more with
          | none => cases h
          | some more =>
            cases h
            exact .inl ⟨hinherits, number, u, more, rfl, hrest, rfl⟩
  · exact .inr ⟨_, h⟩

theorem hasErrors_report (s : Collecting) (loc : Span) (message : Message) :
    (s.report loc message).log.hasErrors = true := by
  simp [Collecting.report, Log.hasErrors, Diagnostic.errorAt]

theorem collectSlots_cons {outer : String} {slots : List FilledSlot} {made : List (String × Filling)}
    (h : collectSlots add outer (slot :: slots) s = (some made, t)) :
    ∃ numbers u w more, collectValues add slot outer 0 slot.values s = (some numbers, u) ∧
      (w.instances = u.instances ∧ u.log <+: w.log ∧ (w.log.hasErrors = false → slot.takes numbers.length = true)) ∧
      collectSlots add outer slots w = (some more, t) ∧
      made = (slot.name, ⟨slot.type.isArray, numbers⟩) :: more := by
  rw [collectSlots] at h
  cases hone : collectValues add slot outer 0 slot.values s with
  | mk numbers u =>
    rw [hone] at h
    cases numbers with
    | none => cases h
    | some numbers =>
      dsimp only at h
      generalize hw : (if slot.takes numbers.length then u
        else u.report slot.loc (.compositionArray slot.name)) = w at h
      cases hrest : collectSlots add outer slots w with
      | mk more v =>
        rw [hrest] at h
        cases more with
        | none => cases h
        | some more =>
          cases h
          refine ⟨numbers, u, w, more, rfl, ?_, hrest, rfl⟩
          rw [← hw]
          split
          · next htakes => exact ⟨rfl, prefix_refl _, fun _ => htakes⟩
          · refine ⟨rfl, prefix_append _ _, fun hquiet => ?_⟩
            cases (hasErrors_report u _ _).symm.trans hquiet

theorem collect_succ {depth : Nat} {label keySuffix : String} {number : Nat}
    (h : collect c filled (depth + 1) m label keySuffix s = (some number, t)) :
    ∃ made start slots u, c.table? m.key = some made.table ∧
      made = ⟨m.name, made.table, label, .ofTable label made.table, keySuffix, []⟩ ∧
      start = { s with instances := s.instances ++ [made] } ∧
      collectSlots (collect c filled depth) keySuffix (filledSlots filled m) start = (some slots, u) ∧
      number = s.instances.length ∧
      t = { u with
        instances := u.instances.modify s.instances.length fun i => { i with slots := slots.reverse } } := by
  rw [collect] at h
  cases htable : c.table? m.key with
  | none =>
    rw [htable] at h
    cases h
  | some table =>
    rw [htable] at h
    dsimp only at h
    generalize hstart : ({ s with instances := s.instances ++
      [⟨m.name, table, label, .ofTable label table, keySuffix, []⟩] } : Collecting) = start at h
    cases hone : collectSlots (collect c filled depth) keySuffix (filledSlots filled m) start with
    | mk slots u =>
      rw [hone] at h
      cases slots with
      | none => cases h
      | some slots =>
        cases h
        exact ⟨_, start, slots, u, rfl, rfl, hstart.symm, hone, rfl, rfl⟩

theorem modify_of_prefix {α : Type} {as bs : List α} {a : α} (h : as ++ [a] <+: bs) (f : α → α) :
    bs[as.length]? = some a ∧ as <+: bs.modify as.length f := by
  obtain ⟨rest, rfl⟩ := h
  refine ⟨by simp, ?_⟩
  rw [modify_eq_take_drop, append_assoc, take_left]
  exact prefix_append _ _

theorem instancesOf_eq_some (h : (instancesOf c filled root).1 = some instances) :
    ∃ number s, collect c filled (filled.length + 1) root "" "" {} = (some number, s) ∧
      instances = s.instances ∧ (instancesOf c filled root).2 = s.log := by
  unfold instancesOf at h ⊢
  cases hone : collect c filled (filled.length + 1) root "" "" {} with
  | mk number s =>
    rw [hone] at h
    cases number with
    | none => cases h
    | some number =>
      cases h
      exact ⟨number, s, rfl, rfl, rfl⟩

def Adds (c : Context) (filled : Composition) (root : Module)
    (add : Module → (label keySuffix : String) → Collecting → Option Nat × Collecting) : Prop :=
  ∀ m label keySuffix s number t, InTree filled root m → label = labelOf m.name s.instances.length →
    add m label keySuffix s = (some number, t) → Collected c filled root s t ∧ At c t.instances number m

theorem collectValues_made (hadd : Adds c filled root add) (slot : FilledSlot) (outer : String) :
    ∀ (ms : List Module) (position : Nat) (s t : Collecting) (numbers : List Nat),
      s.instances ≠ [] → (∀ m ∈ ms, InTree filled root m) →
      collectValues add slot outer position ms s = (some numbers, t) →
      Collected c filled root s t ∧
        ∀ j ∈ numbers, ∃ v ∈ ms, v.inherits slot.expected = true ∧ At c t.instances j v := by
  intro ms
  induction ms with
  | nil =>
    intro position s t numbers _ _ h
    cases h
    exact ⟨.refl s, nofun⟩
  | cons m ms ih =>
    intro position s t numbers hs hms h
    rw [forall_mem_cons] at hms
    rcases collectValues_cons h with ⟨hinherits, number, u, more, hone, hrest, rfl⟩ | ⟨message, hrest⟩
    · have hlabel : s!"{m.name}_id{s.instances.length}_" = labelOf m.name s.instances.length := by
        have hlength : s.instances.length ≠ 0 := by simpa using hs
        simp [labelOf, hlength]
      obtain ⟨hcollected, hat⟩ := hadd m _ _ s number u hms.1 hlabel hone
      have hu : u.instances ≠ [] := by
        intro hnil
        exact hs (prefix_nil.mp (hnil ▸ hcollected.old))
      obtain ⟨hmore, hinstances⟩ := ih _ _ _ _ hu hms.2 hrest
      refine ⟨hcollected.trans hmore, forall_mem_cons.mpr ⟨?_, ?_⟩⟩
      · exact ⟨m, mem_cons_self, hinherits, hat.mono hmore.old⟩
      · intro j hj
        obtain ⟨w, hw, hj⟩ := hinstances j hj
        exact ⟨w, mem_cons_of_mem _ hw, hj⟩
    · obtain ⟨hmore, hinstances⟩ := ih _ (s.report _ _) _ _ hs hms.2 hrest
      refine ⟨⟨hmore.old, hmore.new⟩, fun j hj => ?_⟩
      obtain ⟨w, hw, hj⟩ := hinstances j hj
      exact ⟨w, mem_cons_of_mem _ hw, hj⟩

theorem collectSlots_made (hadd : Adds c filled root add) (outer : String) :
    ∀ (slots : List FilledSlot) (s t : Collecting) (made : List (String × Filling)),
      s.instances ≠ [] → (∀ slot ∈ slots, ∀ m ∈ slot.values, InTree filled root m) →
      collectSlots add outer slots s = (some made, t) →
      Collected c filled root s t ∧ List.Forall₂ (SlotMade c t.instances) slots made := by
  intro slots
  induction slots with
  | nil =>
    intro s t made _ _ h
    cases h
    exact ⟨.refl s, .nil⟩
  | cons slot slots ih =>
    intro s t made hs hslots h
    rw [forall_mem_cons] at hslots
    obtain ⟨numbers, u, w, more, hone, ⟨hsame, -⟩, hrest, rfl⟩ := collectSlots_cons h
    obtain ⟨hcollected, hinstances⟩ := collectValues_made hadd slot outer slot.values 0 s u numbers hs hslots.1 hone
    have hu : u.instances ≠ [] := by
      intro hnil
      exact hs (prefix_nil.mp (hnil ▸ hcollected.old))
    obtain ⟨hmore, hforall⟩ := ih w _ _ (hsame ▸ hu) hslots.2 hrest
    have hmore : Collected c filled root u t := by
      refine ⟨hsame ▸ hmore.old, ?_⟩
      rw [← hsame]
      exact hmore.new
    refine ⟨hcollected.trans hmore, .cons ⟨rfl, rfl, fun j hj => ?_⟩ hforall⟩
    obtain ⟨x, hx, hinherits, hat⟩ := hinstances j hj
    exact ⟨x, hx, hinherits, hat.mono hmore.old⟩

theorem inTree_of_mem_filledSlots (h : slot ∈ filledSlots filled m) : ∀ v ∈ slot.values, InTree filled root v := by
  intro v hv
  obtain ⟨x, -, decl, hentry⟩ := entry_of_mem_values h hv
  exact .inr ⟨_, hentry, hv⟩

theorem collect_adds (depth : Nat) : Adds c filled root (collect c filled depth) := by
  induction depth with
  | zero =>
    intro m label keySuffix s number t _ _ h
    cases h
  | succ depth ih =>
    intro m label keySuffix s number t hm hlabel h
    obtain ⟨made, start, slots, u, htable, hmade, hstart, hone, rfl, rfl⟩ := collect_succ h
    have hinstances : start.instances = s.instances ++ [made] := by rw [hstart]
    obtain ⟨hcollected, hslots⟩ := collectSlots_made ih keySuffix _ start u slots
      (by simp [hinstances]) (fun slot hslot => inTree_of_mem_filledSlots hslot) hone
    obtain ⟨hself, hold⟩ := modify_of_prefix (hinstances ▸ hcollected.old) fun i => { i with slots := slots.reverse }
    have hat : ∀ n x, At c u.instances n x → At c (u.instances.modify
        s.instances.length fun i => { i with slots := slots.reverse }) n x :=
      fun _ _ h => h.modify
    have hwhole : At c u.instances s.instances.length m := by
      exact ⟨made, hself, by rw [hmade], htable⟩
    refine ⟨⟨hold, fun n i hn hi => ?_⟩, hat _ _ hwhole⟩
    by_cases hsame : n = s.instances.length
    · subst hsame
      simp only [getElem?_modify, hself] at hi
      obtain rfl : { made with slots := slots.reverse } = i := by simpa using hi
      refine ⟨m, hm, by rw [hmade], htable, by rw [hmade], by rw [hmade, hlabel], ?_⟩
      simpa using hslots.imp fun _ _ hslot => hslot.imp hat
    · have hi' : u.instances[n]? = some i := by
        simpa [getElem?_modify, Ne.symm hsame] using hi
      obtain ⟨x, hx, hmade⟩ := hcollected.new n i (by simp [hinstances]; omega) hi'
      exact ⟨x, hx, hmade.imp hat⟩

theorem instancesOf_made (h : (instancesOf c filled root).1 = some instances) : ∀ n i, instances[n]? = some i →
      ∃ m, InTree filled root m ∧ MadeOf c filled instances n i m := by
  obtain ⟨number, s, hone, rfl, -⟩ := instancesOf_eq_some h
  obtain ⟨hcollected, -⟩ := collect_adds (filled.length + 1) root "" "" {} number s (.inl rfl) rfl hone
  intro n i hi
  exact hcollected.new n i (Nat.zero_le _) hi

end

end ShaderCompose.Mix
