import ShaderCompose.Proofs.Compose.Elements
import ShaderCompose.Proofs.Mix.Keys

/-!
The instances of a shader, in the order of the request.
-/

namespace ShaderCompose.Mix

open List

def MixInstance.DeclaresOnce (i : MixInstance) (name : String) : Prop :=
  ∀ cls ∈ i.table.classes, ∀ v ∈ cls.vars, ∀ w ∈ cls.vars, v.2.name = name → w.2.name = name → v.1 = w.1

instance (i : MixInstance) (name : String) : Decidable (i.DeclaresOnce name) :=
  inferInstanceAs (Decidable (∀ cls ∈ i.table.classes, ∀ v ∈ cls.vars, ∀ w ∈ cls.vars, v.2.name = name →
    w.2.name = name → v.1 = w.1))

/-- An instance realizes a class or mixin of a request. -/
inductive Realizes (c : Context) (instances : List MixInstance) : Request → Nat → Prop
  | intro {element : Request} {n : Nat} {i : MixInstance} {key : ModuleKey} :
      element.key? c.macros = some key → instances[n]? = some i → c.table? key = some i.table →
      (∀ slot value filling, (slot, value) ∈ element.slots → i.DeclaresOnce slot →
        i.slots.lookup slot = some filling →
        List.Forall₂ (Realizes c instances) value.elements filling.instances) →
      Realizes c instances element n

/-! ## Growing -/

structure SlotGrown (grown : Module → Nat → Prop) (n : Nat) (slot : FilledSlot) (made : String × Filling) :
    Prop where
  name : made.1 = slot.name
  ordered : made.2.instances.Pairwise (· < ·)
  values : List.Forall₂ (fun v j => n < j ∧ grown v j) slot.values made.2.instances

def Grown (c : Context) (filled : Composition) (instances : List MixInstance) : (depth : Nat) → Module → Nat → Prop
  | 0, _, _ => False
  | depth + 1, m, n => ∃ i, instances[n]? = some i ∧ c.table? m.key = some i.table ∧
    List.Forall₂ (SlotGrown (Grown c filled instances depth) n) (filledSlots filled m) i.slots.reverse

structure Grafts (c : Context) (filled : Composition) (s t : Collecting) : Prop where
  old : s.instances <+: t.instances
  new : ∀ k, s.instances.length ≤ k → k < t.instances.length → ∃ depth m, Grown c filled t.instances depth m k

section

variable {c : Context} {filled : Composition} {instances more : List MixInstance} {depth n : Nat} {m : Module}
  {s t u : Collecting}

theorem SlotGrown.imp {grown grown' : Module → Nat → Prop} {slot : FilledSlot} {made : String × Filling}
    (h : SlotGrown grown n slot made) (himp : ∀ v j, n < j → grown v j → grown' v j) : SlotGrown grown' n slot made :=
  { h with values := h.values.imp fun v j hj => ⟨hj.1, himp v j hj.1 hj.2⟩ }

theorem Grown.mono (h : Grown c filled instances depth m n)
    (hsame : ∀ k i, n ≤ k → instances[k]? = some i → more[k]? = some i) : Grown c filled more depth m n := by
  induction depth generalizing m n with
  | zero => exact h
  | succ depth ih =>
    obtain ⟨i, hi, htable, hslots⟩ := h
    refine ⟨i, hsame n i (Nat.le_refl n) hi, htable, hslots.imp fun slot made hslot => hslot.imp ?_⟩
    intro v j hj hgrown
    exact ih hgrown fun k x hk => hsame k x (hj.le.trans hk)

theorem Grown.extend (h : Grown c filled instances depth m n) (hold : instances <+: more) :
    Grown c filled more depth m n :=
  h.mono fun _ _ _ => getElem?_of_prefix hold

theorem Grafts.refl (h : t.instances = s.instances) : Grafts c filled s t :=
  ⟨h ▸ prefix_refl _, fun k hle hlt => absurd hlt (by rw [h]; omega)⟩

theorem Grafts.trans (h : Grafts c filled s t) (h' : Grafts c filled t u) : Grafts c filled s u := by
  refine ⟨h.old.trans h'.old, fun k hle hlt => ?_⟩
  by_cases hk : k < t.instances.length
  · obtain ⟨depth, m, hgrown⟩ := h.new k hle hk
    exact ⟨depth, m, hgrown.extend h'.old⟩
  · exact h'.new k (Nat.le_of_not_lt hk) hlt

def Grafting (c : Context) (filled : Composition) (depth : Nat)
    (add : Module → (label keySuffix : String) → Collecting → Option Nat × Collecting) : Prop :=
  ∀ m label keySuffix s number t, add m label keySuffix s = (some number, t) →
    s.log <+: t.log ∧ (t.log.hasErrors = false → Grafts c filled s t ∧ number = s.instances.length ∧
      number < t.instances.length ∧ Grown c filled t.instances depth m number)

variable {add : Module → (label keySuffix : String) → Collecting → Option Nat × Collecting}

theorem collectValues_grafts (hadd : Grafting c filled depth add) (slot : FilledSlot) (outer : String) :
    ∀ (ms : List Module) (position : Nat) (s t : Collecting) (numbers : List Nat),
      collectValues add slot outer position ms s = (some numbers, t) →
      s.log <+: t.log ∧ (t.log.hasErrors = false → Grafts c filled s t ∧ numbers.Pairwise (· < ·) ∧
        List.Forall₂ (fun v j => s.instances.length ≤ j ∧ Grown c filled t.instances depth v j) ms numbers) := by
  intro ms
  induction ms with
  | nil =>
    intro position s t numbers h
    cases h
    exact ⟨prefix_refl _, fun _ => ⟨.refl rfl, .nil, .nil⟩⟩
  | cons m ms ih =>
    intro position s t numbers h
    rcases collectValues_cons h with ⟨-, number, u, more, hone, hrest, rfl⟩ | ⟨message, hrest⟩
    · obtain ⟨hlog, hgrown⟩ := hadd m _ _ s number u hone
      obtain ⟨hlog', hmore⟩ := ih _ _ _ _ hrest
      refine ⟨hlog.trans hlog', fun hquiet => ?_⟩
      obtain ⟨hfirst, rfl, hlt, hgrown⟩ := hgrown (Log.quiet_of_prefix hlog' hquiet)
      obtain ⟨hothers, hpairwise, hforall⟩ := hmore hquiet
      refine ⟨hfirst.trans hothers, .cons (fun j hj => ?_) hpairwise,
        .cons ⟨Nat.le_refl _, hgrown.extend hothers.old⟩ (hforall.imp fun v j hj => ⟨?_, hj.2⟩)⟩
      · obtain ⟨v, -, hle, -⟩ := mem_right_of_forall₂ hforall hj
        exact hlt.trans_le hle
      · exact (hfirst.old.length_le).trans hj.1
    · obtain ⟨hlog, -⟩ := ih _ _ _ _ hrest
      refine ⟨(prefix_append _ _).trans hlog, fun hquiet => ?_⟩
      cases (hasErrors_report s _ _).symm.trans (Log.quiet_of_prefix hlog hquiet)

theorem collectSlots_grafts (hadd : Grafting c filled depth add) (outer : String) :
    ∀ (slots : List FilledSlot) (s t : Collecting) (made : List (String × Filling)),
      collectSlots add outer slots s = (some made, t) →
      s.log <+: t.log ∧ (t.log.hasErrors = false → Grafts c filled s t ∧ (n < s.instances.length →
        List.Forall₂ (SlotGrown (Grown c filled t.instances depth) n) slots made)) := by
  intro slots
  induction slots with
  | nil =>
    intro s t made h
    cases h
    exact ⟨prefix_refl _, fun _ => ⟨.refl rfl, fun _ => .nil⟩⟩
  | cons slot slots ih =>
    intro s t made h
    obtain ⟨numbers, u, w, more, hone, ⟨hsame, hgrows, -⟩, hrest, rfl⟩ := collectSlots_cons h
    obtain ⟨hlog, hvalues⟩ := collectValues_grafts hadd slot outer slot.values 0 s u numbers hone
    obtain ⟨hlog', hmore⟩ := ih _ _ _ hrest
    have hlogu := hgrows.trans hlog'
    refine ⟨hlog.trans hlogu, fun hquiet => ?_⟩
    obtain ⟨hfirst, hordered, hforall⟩ := hvalues (Log.quiet_of_prefix hlogu hquiet)
    obtain ⟨hothers, hslots⟩ := hmore hquiet
    have hrestu : Grafts c filled u t := (Grafts.refl hsame).trans hothers
    refine ⟨hfirst.trans hrestu, fun hn => .cons ⟨rfl, hordered, hforall.imp fun v j hj => ?_⟩ (hslots ?_)⟩
    · exact ⟨hn.trans_le hj.1, hj.2.extend hrestu.old⟩
    · rw [hsame]
      exact hn.trans_le hfirst.old.length_le

theorem collect_grafts (depth : Nat) : Grafting c filled depth (collect c filled depth) := by
  induction depth with
  | zero =>
    intro m label keySuffix s number t h
    cases h
  | succ depth ih =>
    intro m label keySuffix s number t h
    obtain ⟨made, start, slots, u, htable, -, hstart, hone, rfl, rfl⟩ := collect_succ h
    have hinstances : start.instances = s.instances ++ [made] := by rw [hstart]
    obtain ⟨hlog, hgrown⟩ := collectSlots_grafts (n := s.instances.length) ih keySuffix _ start u slots hone
    refine ⟨?_, fun hquiet => ?_⟩
    · rw [hstart] at hlog
      exact hlog
    obtain ⟨hgrafts, hslots⟩ := hgrown hquiet
    have hlength : start.instances.length = s.instances.length + 1 := by simp [hinstances]
    obtain ⟨hself, hold⟩ := modify_of_prefix (hinstances ▸ hgrafts.old) fun i => { i with slots := slots.reverse }
    have hlt := (List.getElem?_eq_some_iff.mp hself).1
    -- the instance itself is written last, and nothing else changes
    have hlater : ∀ {depth' v j}, s.instances.length < j → Grown c filled u.instances depth' v j →
        Grown c filled (u.instances.modify s.instances.length fun i => { i with slots := slots.reverse })
          depth' v j := by
      intro depth' v j hj hv
      refine hv.mono fun k i hk hi => ?_
      have hne : s.instances.length ≠ k := by omega
      simp [hne, hi]
    have hwhole : Grown c filled (u.instances.modify s.instances.length fun i => { i with slots := slots.reverse })
        (depth + 1) m s.instances.length := by
      refine ⟨{ made with slots := slots.reverse }, by simp [hself], htable, ?_⟩
      rw [reverse_reverse]
      exact (hslots (by omega)).imp fun slot one hone => hone.imp fun v j => hlater
    refine ⟨⟨hold, fun k hle hk => ?_⟩, rfl, by simpa using hlt, hwhole⟩
    rw [length_modify] at hk
    rcases Nat.eq_or_lt_of_le hle with rfl | hlater'
    · exact ⟨depth + 1, m, hwhole⟩
    · obtain ⟨depth', v, hv⟩ := hgrafts.new k (by omega) hk
      exact ⟨depth', v, hlater hlater' hv⟩

/-! ## Realizing -/

theorem findSome?_related {α β γ : Type} {R : β → γ → Prop} {f : α → Option β} {g : α → Option γ} {as : List α}
    (h : ∀ a ∈ as, Option.Rel R (f a) (g a)) : Option.Rel R (as.findSome? f) (as.findSome? g) := by
  induction as with
  | nil => exact .none
  | cons a as ih =>
    have hfirst := h a mem_cons_self
    rw [findSome?_cons, findSome?_cons]
    cases hf : f a <;> cases hg : g a <;> rw [hf, hg] at hfirst
    · exact ih fun b hb => h b (mem_cons_of_mem _ hb)
    · cases hfirst
    · cases hfirst
    · exact hfirst

theorem find?_of_lookup {R : FilledSlot → String × Filling → Prop} {slots : List FilledSlot}
    {made : List (String × Filling)} (hname : ∀ slot one, R slot one → one.1 = slot.name)
    (h : List.Forall₂ R slots made) {name : String} {filling : Filling} (hlookup : made.lookup name = some filling) :
    ∃ slot, slots.find? (fun slot => slot.name == name) = some slot ∧ R slot (name, filling) := by
  induction h with
  | nil => cases hlookup
  | @cons slot one slots made hone _ ih =>
    obtain ⟨key, value⟩ := one
    have hkey : key = slot.name := hname slot (key, value) hone
    by_cases hsame : name = key
    · subst hsame
      rw [lookup_cons_self] at hlookup
      cases hlookup
      exact ⟨slot, find?_cons_of_pos (by simp [hkey]), hone⟩
    · rw [lookup_cons, beq_eq_false_iff_ne.mpr hsame] at hlookup
      obtain ⟨found, hfound, hR⟩ := ih hlookup
      refine ⟨found, ?_, hR⟩
      rw [find?_cons_of_neg (by simpa [← hkey] using Ne.symm hsame)]
      exact hfound

theorem mem_ownSlots {a : Module} {slot : FilledSlot} (h : slot ∈ a.cls.vars.filterMap fun (id, d) =>
      if d.isComposition then
        d.varType?.map fun type => (⟨d.name, d.loc, type, ((filled.lookup ⟨a.id, id⟩).getD [])⟩ : FilledSlot)
      else none) :
    ∃ id d, (id, d) ∈ a.cls.vars ∧ d.isComposition = true ∧ slot.name = d.name ∧
      slot.values = (filled.lookup ⟨a.id, id⟩).getD [] := by
  obtain ⟨⟨id, d⟩, hd, hslot⟩ := mem_filterMap.mp h
  dsimp only at hslot
  split at hslot
  · next hcomp =>
    obtain ⟨type, -, rfl⟩ := Option.map_eq_some_iff.mp hslot
    exact ⟨id, d, hd, hcomp, rfl, rfl⟩
  · cases hslot

theorem varType?_of_isComposition {d : Decl} (h : d.isComposition = true) : ∃ type, d.varType? = some type := by
  unfold Decl.isComposition Decl.isVar at h
  unfold Decl.varType?
  cases hkind : d.kind <;> simp_all

theorem slot?_of_filledSlots (filled : Composition) (m : Module) (name : String)
    (honce : ∀ a ∈ m.hierarchy, ∀ v ∈ a.cls.vars, ∀ w ∈ a.cls.vars, v.2.name = name → w.2.name = name → v.1 = w.1) :
    Option.Rel (fun slot place => slot.values = (filled.lookup place).getD [])
      ((filledSlots filled m).reverse.find? fun slot => slot.name == name) (m.slot? name) := by
  rw [filledSlots, reverse_flatMap, find?_flatMap]
  refine findSome?_related fun a ha => ?_
  have honce := honce a (mem_reverse.mp ha)
  cases hfind : a.cls.findVariable? name with
  | none =>
    rw [find?_eq_none.mpr]
    · exact .none
    · intro slot hslot hname
      obtain ⟨id, d, hd, -, hslotName, -⟩ := mem_ownSlots (mem_reverse.mp hslot)
      refine find?_eq_none.mp (Option.map_eq_none_iff.mp hfind) _ hd ?_
      rwa [← hslotName]
  | some id =>
    obtain ⟨⟨id', d⟩, hd, rfl⟩ := Option.map_eq_some_iff.mp hfind
    have hmem := mem_of_find?_eq_some hd
    have hdname : d.name = name := by simpa using find?_some hd
    have htable := (ShaderClass.mem_vars.mp hmem).1
    rw [Option.bind_some]
    rw [htable, Option.any_some]
    split
    · next hcomp =>
      obtain ⟨type, htype⟩ := varType?_of_isComposition hcomp
      cases hslot : List.find? _ _ with
      | none =>
        refine absurd (find?_eq_none.mp hslot
          ⟨d.name, d.loc, type, (filled.lookup ⟨a.id, id'⟩).getD []⟩ ?_) (by simp [hdname])
        refine mem_reverse.mpr (mem_filterMap.mpr ⟨(id', d), hmem, ?_⟩)
        simp only [hcomp, htype, Option.map_some, if_true]
      | some slot =>
        obtain ⟨other, d', hd', -, hslotName, hvalues⟩ := mem_ownSlots (mem_reverse.mp (mem_of_find?_eq_some hslot))
        have hname : slot.name = name := by simpa using find?_some hslot
        obtain rfl : other = id' := honce _ hd' _ hmem (hslotName.symm.trans hname) hdname
        exact .some hvalues
    · next hcomp =>
      rw [find?_eq_none.mpr]
      · exact .none
      · intro slot hslot hname
        obtain ⟨other, d', hd', hcomp', hslotName, -⟩ := mem_ownSlots (mem_reverse.mp hslot)
        have hname : slot.name = name := by simpa using hname
        obtain rfl : other = id' := honce _ hd' _ hmem (hslotName.symm.trans hname) hdname
        cases htable.symm.trans (ShaderClass.mem_vars.mp hd').1
        exact hcomp hcomp'

theorem Grown.realizes (htables : ∀ k ∈ c.classes, k.table = .ofModule k.loaded.module) {element : Request}
    (hstands : c.Stands filled element m) (h : Grown c filled instances depth m n) :
    Realizes c instances element n := by
  induction depth generalizing element m n with
  | zero => exact h.elim
  | succ depth ih =>
    obtain ⟨i, hi, htable, hslots⟩ := h
    obtain @⟨_, _, key, k, f, hkey, hfind, rfl, hsome, hgiven⟩ := hstands
    obtain ⟨hk, hkkey⟩ := Context.mem_of_find? hfind
    have hsame : (k.loaded.module.renumber f).key = key := (Module.key_renumber ..).trans hkkey
    rw [hsame] at htable
    have htable' : c.table? key = some k.table := by rw [Context.table?, hfind, Option.map_some]
    have hclasses : i.table.classes = (k.loaded.module.renumber f).hierarchy.map Module.cls := by
      rw [Option.some.inj (htable.symm.trans htable'), htables k hk, ← MemberTable.ofModule_renumber f,
        MemberTable.classes_ofModule]
    refine .intro hkey hi htable fun slot value filling hvalue honce hlookup => ?_
    have hreversed := forall₂_reverse_iff.mpr hslots
    rw [reverse_reverse] at hreversed
    obtain ⟨fs, hfs, hgrown⟩ := find?_of_lookup (fun _ _ h => h.name) hreversed hlookup
    have hrel := slot?_of_filledSlots filled (k.loaded.module.renumber f) slot
      fun a ha => honce a.cls (hclasses ▸ mem_map_of_mem ha)
    rw [hfs] at hrel
    cases hplace : (k.loaded.module.renumber f).slot? slot with
    | none =>
      rw [hplace] at hrel
      cases hrel
    | some place =>
      rw [hplace] at hrel
      obtain ⟨values, hvalues⟩ := Option.isSome_iff_exists.mp (hsome slot value place hvalue hplace)
      cases hrel with
      | some hfilled =>
        rw [hvalues] at hfilled
        have hboth := forall₂_comp (hgiven slot value place values hvalue hplace hvalues) (hfilled ▸ hgrown.values)
        refine hboth.imp ?_
        rintro r j ⟨v, hstands, hj⟩
        exact ih hstands hj.2

theorem instancesOf_realizes (htables : ∀ k ∈ c.classes, k.table = .ofModule k.loaded.module) {root : Module}
    {element : Request} {sources : List (String × Request)} (hroot : c.Stands filled element root)
    (hfilled : ∀ entry ∈ filled, ∃ source ∈ sources, List.Forall₂ (c.Stands filled) source.2.elements entry.2)
    (h : (instancesOf c filled root).1 = some instances) (hquiet : (instancesOf c filled root).2.hasErrors = false) :
    Realizes c instances element 0 ∧
      ∀ i ∈ instances, ∀ made ∈ i.slots, made.2.instances.Pairwise (· < ·) ∧ (made.2.instances = [] ∨
        ∃ source ∈ sources, List.Forall₂ (Realizes c instances) source.2.elements made.2.instances) := by
  obtain ⟨number, s, hone, rfl, hlog⟩ := instancesOf_eq_some h
  rw [hlog] at hquiet
  obtain ⟨-, hgrown⟩ := collect_grafts (filled.length + 1) root "" "" {} number s hone
  obtain ⟨hgrafts, rfl, -, hgrown⟩ := hgrown hquiet
  refine ⟨hgrown.realizes htables hroot, fun i hi made hmade => ?_⟩
  obtain ⟨n, hn⟩ := mem_iff_getElem?.mp hi
  obtain ⟨depth, m, hm⟩ := hgrafts.new n (Nat.zero_le _) (List.getElem?_eq_some_iff.mp hn).1
  cases depth with
  | zero => exact hm.elim
  | succ depth =>
    obtain ⟨i', hi', -, hslots⟩ := hm
    cases hn.symm.trans hi'
    obtain ⟨slot, hslot, hslotGrown⟩ := mem_right_of_forall₂ hslots (mem_reverse.mpr hmade)
    refine ⟨hslotGrown.ordered, ?_⟩
    have hvalues := hslotGrown.values
    rcases mem_filledSlots hslot with hempty | ⟨x, -, decl, hentry⟩
    · rw [hempty] at hvalues
      exact .inl (forall₂_nil_left_iff.mp hvalues)
    · obtain ⟨source, hsource, hstands⟩ := hfilled _ hentry
      refine .inr ⟨source, hsource, (forall₂_comp hstands hvalues).imp ?_⟩
      rintro r j ⟨v, hstands, hj⟩
      exact hj.2.realizes htables hstands

end

end ShaderCompose.Mix
