import ShaderCompose.Proofs.Mix.Spelling
import ShaderCompose.Proofs.Mix.Variables

/-!
The names of a mixed shader are different, if no word has an underscore.
-/

namespace ShaderCompose.Mix

open List

def MixInstance.variableNames (i : MixInstance) (shared : Bool) : List String :=
  i.table.classes.flatMap fun cls =>
    ((cls.vars.map (·.2)).filter fun d =>
      !d.isComposition && !d.isStream && isShared cls d == shared).map Decl.name

def MixInstance.methodNames (i : MixInstance) (shared : Bool) : List String :=
  (i.table.methods.filter fun slot =>
    (slot.final?.bind fun ref => (i.table.classes[ref.cls]?).bind fun cls =>
      (cls.table[ref.decl]?).map fun d => isShared cls d) == some shared).map MethodSlot.name

/-- Members whose names are not marked have different names. -/
structure Apart (instances : List MixInstance) : Prop where
  kinds : ∀ i ∈ instances, ∀ name ∈ i.variableNames false, name ∉ i.methodNames false
  root : ∀ root ∈ instances.head?, ∀ i ∈ instances, ∀ name ∈ root.variableNames false ++ root.methodNames false,
      name ∉ i.variableNames true ++ i.methodNames true
  streams : ∀ i ∈ instances, ∀ cls ∈ i.table.classes, cls.name ≠ "streams"

instance (instances : List MixInstance) : Decidable (Apart instances) :=
  decidable_of_iff (_ ∧ _ ∧ _) ⟨fun ⟨kinds, root, streams⟩ => ⟨kinds, root, streams⟩,
    fun ⟨kinds, root, streams⟩ => ⟨kinds, root, streams⟩⟩

structure Spellable (instances : List MixInstance) (classWords : Nat → List String) : Prop where
  label : ∀ n i, instances[n]? = some i → ∃ name, NameWords name (classWords n) ∧ i.label = labelOf name n
  words : ∀ i ∈ instances, ∀ cls ∈ i.table.classes, ∀ e, e ∈ cls.vars ∨ e ∈ cls.methods →
    OneWord cls.name ∧ OneWord e.2.name
  vars : ∀ i ∈ instances, ∀ v ∈ along ShaderClass.vars i.table.classes, ∀ w ∈ along ShaderClass.vars i.table.classes,
    v.2.name = w.2.name → v.1 = w.1
  methods : ∀ i ∈ instances, ∀ cls ∈ i.table.classes, (cls.methods.map fun e => e.2.name).Nodup
  classes : ∀ i ∈ instances, (i.table.classes.map ShaderClass.name).Nodup
  byName : ClassesByName instances

def variableSpelling (number : Nat) (cls : ShaderClass) (d : Decl) : Spelling :=
  ⟨if d.isStream then .stream else if isShared cls d then .shared else .own number, none, d.name⟩

def methodSpelling (number : Nat) (cls : ShaderClass) (d : Decl) (isFinal : Bool) : Spelling :=
  ⟨if isShared cls d then .shared else .own number, if isFinal then none else some cls.name, d.name⟩

/-- Entries with how their names are made up. -/
inductive Spelled (builtins : List Module) (instances : List MixInstance) : DeclId → Spelling → Prop
  | variable {i : DeclId} {number inst cls ref d home}
      (hd : HasVariable instances number inst cls ref d) (hcomp : d.isComposition = false)
      (he : (entriesOf builtins instances)[i]? =
        some (.variable (memberOf builtins instances number inst cls ref d) home)) :
      Spelled builtins instances i (variableSpelling number cls d)
  | method {i : DeclId} {number inst cls ref d slot} (hd : HasImplementation instances number inst cls ref d slot)
      (he : (entriesOf builtins instances)[i]? = some (.method (memberOf builtins instances number inst cls ref d))) :
      Spelled builtins instances i (methodSpelling number cls d (slot.final? == some ref))

section

variable {builtins : List Module} {instances : List MixInstance} {classWords : Nat → List String}
  {number : Nat} {inst : MixInstance} {cls : ShaderClass} {ref : MemberRef} {d : Decl}
  {slot : MethodSlot}

theorem HasVariable.mem_variableNames (hd : HasVariable instances number inst cls ref d)
    (hcomp : d.isComposition = false) (hstream : d.isStream = false) :
    d.name ∈ inst.variableNames (isShared cls d) := by
  refine mem_flatMap.mpr ⟨cls, hd.cls_mem, mem_map.mpr ⟨d, ?_, rfl⟩⟩
  refine mem_filter.mpr ⟨mem_map.mpr ⟨_, hd.mem, rfl⟩, ?_⟩
  simp [hcomp, hstream]

theorem HasImplementation.mem_methodNames (hd : HasImplementation instances number inst cls ref d slot)
    (hfinal : slot.final? = some ref) : d.name ∈ inst.methodNames (isShared cls d) := by
  refine mem_map.mpr ⟨slot, mem_filter.mpr ⟨hd.slot_mem, ?_⟩, hd.slot_name⟩
  have hdecl := (ShaderClass.mem_methods.mp hd.mem).2.1
  simp [hfinal, hd.cls_eq, hdecl]

theorem implementationName_eq (label : String) (isFinal : Bool) :
    implementationName label d.name cls d isFinal = (if isShared cls d then "" else label) ++
      joined ((if isFinal then none else some cls.name : Option String).toList ++ [d.name]) := by
  unfold implementationName
  cases isFinal <;> simp [joined]

theorem variableSpelling_own {n : Nat} (h : (variableSpelling number cls d).mark = .own n) :
    d.isStream = false ∧ isShared cls d = false ∧ number = n := by
  unfold variableSpelling at h
  cases hstream : d.isStream <;> cases hshared : isShared cls d <;> simp_all

theorem methodSpelling_own {n : Nat} {isFinal : Bool}
    (h : (methodSpelling number cls d isFinal).mark = .own n) : isShared cls d = false ∧ number = n := by
  unfold methodSpelling at h
  cases hshared : isShared cls d <;> simp_all

theorem final_of_owner (h : (methodSpelling number cls d (slot.final? == some ref)).owner = none) :
    slot.final? = some ref := by
  unfold methodSpelling at h
  cases hfinal : slot.final? == some ref
  · simp [hfinal] at h
  · simpa using hfinal

theorem Apart.not_both (ha : Apart instances) {inst' : MixInstance} {cls' : ShaderClass}
    {ref' : MemberRef} {d' : Decl} (hd : HasVariable instances number inst cls ref d)
    (hcomp : d.isComposition = false) (hstream : d.isStream = false) (hshared : isShared cls d = false)
    (hd' : HasImplementation instances number inst' cls' ref' d' slot)
    (hshared' : isShared cls' d' = false) (hfinal : slot.final? = some ref') :
    d.name ≠ d'.name := by
  intro hname
  cases hd.inst_eq.symm.trans hd'.inst_eq
  have hvar := hd.mem_variableNames hcomp hstream
  have hmethod := hd'.mem_methodNames hfinal
  rw [hshared] at hvar
  rw [hshared', ← hname] at hmethod
  exact ha.kinds inst hd.inst_mem _ hvar hmethod

theorem Spellable.place_of_name (hs : Spellable instances classWords) (hinst : inst ∈ instances)
    {place place' : Nat} {cls' : ShaderClass} (hcls : inst.table.classes[place]? = some cls)
    (hcls' : inst.table.classes[place']? = some cls') (hname : cls.name = cls'.name) :
    place = place' ∧ cls = cls' := by
  have hnodup := hs.classes inst hinst
  obtain rfl : place = place' := by
    refine index_unique (f := fun c => some c.name) ?_ hcls hcls' rfl (congrArg some hname.symm)
    rwa [filterMap_eq_map']
  exact ⟨rfl, Option.some.inj (hcls.symm.trans hcls')⟩

theorem Spellable.decl_of_name (hs : Spellable instances classWords) (hinst : inst ∈ instances)
    (hcls : cls ∈ inst.table.classes) {id id' : DeclId} {d' : Decl} (hd : (id, d) ∈ cls.methods)
    (hd' : (id', d') ∈ cls.methods) (hname : d.name = d'.name) : id = id' ∧ d = d' := by
  have hsame := inj_on_of_nodup_map (hs.methods inst hinst cls hcls) hd hd' hname
  exact ⟨congrArg Prod.fst hsame, congrArg Prod.snd hsame⟩

namespace Spelled

variable (hs : Spellable instances classWords) (ha : Apart instances) {i j : DeclId} {s t : Spelling}

include hs ha in
theorem proper (h : Spelled builtins instances i s) : s.Proper classWords := by
  have label : ∀ {n : Nat} {x : MixInstance}, instances[n]? = some x → ∃ name, NameWords name (classWords n) := by
    intro n x hx
    obtain ⟨name, hname, -⟩ := hs.label n x hx
    exact ⟨name, hname⟩
  cases h with
  | @«variable» number inst cls ref d home hd hcomp he =>
    have hwords := hs.words inst hd.inst_mem cls hd.cls_mem _ (.inl hd.mem)
    refine ⟨fun n hn => ?_, ?_, nofun, fun _ => rfl⟩
    · unfold variableSpelling at hn
      split at hn
      · cases hn
      · split at hn <;> cases hn
        exact label hd.inst_eq
    · simpa [variableSpelling] using hwords.2
  | @method number inst cls ref d slot hd he =>
    have hcls := hd.cls_mem
    have hinst := hd.inst_mem
    have hwords := hs.words inst hinst cls hcls _ (.inr hd.mem)
    refine ⟨fun n hn => ?_, ?_, ?_, fun hn => ?_⟩
    · unfold methodSpelling at hn
      split at hn <;> cases hn
      exact label hd.inst_eq
    · unfold methodSpelling
      cases slot.final? == some ref
      · simpa using hwords
      · simpa using hwords.2
    · unfold methodSpelling
      cases slot.final? == some ref
      · simpa using ha.streams inst hinst cls hcls
      · nofun
    · unfold methodSpelling at hn
      split at hn <;> cases hn

include hs in
theorem name (hlog : (emit builtins instances).2.hasErrors = false)
    (horderly : ∀ i ∈ instances, i.Orderly) (h : Spelled builtins instances i s) :
    ∃ v, (emit builtins instances).1.table[i]? = some v ∧ v.name = joined (s.words classWords) := by
  cases h with
  | @«variable» number inst cls ref d home hd hcomp he =>
    obtain ⟨v, hv, -, -, hname⟩ := variable_of_entry hlog horderly hcomp he
    obtain ⟨name, hwords, hlabel⟩ := hs.label number inst hd.inst_eq
    refine ⟨v, hv, hname.trans ?_⟩
    unfold variableName variableSpelling Spelling.words
    split
    · simp [Mark.words, joined]
    · split
      · simp [Mark.words, joined]
      · have hspelled := hwords.label_append number (cons_ne_nil d.name [])
        rwa [← hlabel, joined, String.intercalate_singleton] at hspelled
  | @method number inst cls ref d slot hd he =>
    have horderly' := horderly inst hd.inst_mem
    have hname := hd.name? builtins horderly'
    obtain ⟨name, hwords, hlabel⟩ := hs.label number inst hd.inst_eq
    refine ⟨_, getElem?_emit hlog he, ?_⟩
    rw [Offer.placed_name, Offer.made_name hname, implementationName_eq]
    unfold methodSpelling Spelling.words
    split
    · rfl
    · rw [hlabel]
      exact hwords.label_append number (by simp)

theorem keyed (horderly : ∀ i ∈ instances, i.Orderly) (h : Spelled builtins instances i s) :
    ∃ e, (entriesOf builtins instances)[i]? = some e ∧
      (s.mark = .shared → e.key? = some (.shared (joined (s.owner.toList ++ [s.base])))) ∧
      (s.mark = .stream → e.key? = some (.stream ("streams_" ++ s.base))) := by
  cases h with
  | @«variable» number inst cls ref d home hd hcomp he =>
    refine ⟨_, he, ?_⟩
    rw [key?_variable hcomp, variableSpelling]
    cases hstream : d.isStream <;> cases hshared : isShared cls d <;> simp [joined]
  | @method number inst cls ref d slot hd he =>
    have hname := hd.name? builtins (horderly inst hd.inst_mem)
    refine ⟨_, he, ?_⟩
    rw [methodSpelling, Offer.key?, hname, implementationName_eq]
    cases hshared : isShared cls d <;> simp [Offer.keyOf, memberOf, hshared]

theorem plain (h : Spelled builtins instances i s) (hmark : s.mark ≠ .stream) (howner : s.owner = none) :
    ∃ (number : Nat) (inst : MixInstance) (shared : Bool), instances[number]? = some inst ∧
      s.mark = (if shared then .shared else .own number) ∧
      s.base ∈ inst.variableNames shared ++ inst.methodNames shared := by
  cases h with
  | @«variable» number inst cls ref d home hd hcomp he =>
    have hstream : d.isStream = false := by
      rw [← Bool.not_eq_true]
      intro hstream
      simp [variableSpelling, hstream] at hmark
    refine ⟨number, inst, isShared cls d, hd.inst_eq, by simp [variableSpelling, hstream], ?_⟩
    exact mem_append_left _ (hd.mem_variableNames hcomp hstream)
  | @method number inst cls ref d slot hd he =>
    refine ⟨number, inst, isShared cls d, hd.inst_eq, rfl, ?_⟩
    exact mem_append_right _ (hd.mem_methodNames (final_of_owner howner))

theorem overridden {name : String} (h : Spelled builtins instances i s) (howner : s.owner = some name) :
    ∃ number inst cls ref d, HasMethod instances number inst cls ref d ∧ cls.name = name ∧
      d.name = s.base ∧ s.mark = (if isShared cls d then .shared else .own number) ∧
      (entriesOf builtins instances)[i]? =
        some (.method (memberOf builtins instances number inst cls ref d)) := by
  cases h with
  | «variable» => cases howner
  | @method number inst cls ref d slot hd he =>
    refine ⟨number, inst, cls, ref, d, hd.toHasMethod, ?_, rfl, rfl, he⟩
    dsimp only [methodSpelling] at howner
    split at howner <;> cases howner
    rfl

include hs ha in
theorem own_unique (horderly : ∀ i ∈ instances, i.Orderly) {n : Nat}
    (h : Spelled builtins instances i s) (h' : Spelled builtins instances j t)
    (howner : s.owner = t.owner) (hbase : s.base = t.base) (hmark : s.mark = .own n)
    (hmark' : t.mark = .own n) : i = j := by
  cases hs' : s.owner with
  | some name =>
    obtain ⟨number, inst, cls, ref, d, hd, hcls, hname, hown, he⟩ := h.overridden hs'
    obtain ⟨number', inst', cls', ref', d', hd', hcls', hname', hown', he'⟩ := h'.overridden (howner.symm.trans hs')
    rw [hmark] at hown
    rw [hmark'] at hown'
    split at hown <;> cases hown
    split at hown' <;> cases hown'
    cases hd.inst_eq.symm.trans hd'.inst_eq
    obtain ⟨hplace, rfl⟩ := hs.place_of_name hd.inst_mem hd.cls_eq hd'.cls_eq (hcls.trans hcls'.symm)
    obtain ⟨hdecl, -⟩ := hs.decl_of_name hd.inst_mem hd.cls_mem hd.mem hd'.mem (hname.trans (hbase.trans hname'.symm))
    obtain ⟨place, id⟩ := ref
    obtain ⟨place', id'⟩ := ref'
    cases hplace
    cases hdecl
    exact place?_unique horderly he he' rfl rfl
  | none =>
    have hs'' := howner.symm.trans hs'
    cases h with
    | @«variable» number inst cls ref d home hd hcomp he =>
      obtain ⟨hstream, hshared, rfl⟩ := variableSpelling_own hmark
      cases h' with
      | @«variable» number' inst' cls' ref' d' home' hd' hcomp' he' =>
        obtain ⟨hstream', hshared', rfl⟩ := variableSpelling_own hmark'
        cases hd.inst_eq.symm.trans hd'.inst_eq
        obtain rfl := hs.vars inst hd.inst_mem (ref, d)
          (MemberTable.mem_along.mpr ⟨cls, hd.cls_eq, hd.mem⟩) (ref', d')
          (MemberTable.mem_along.mpr ⟨cls', hd'.cls_eq, hd'.mem⟩) hbase
        exact place?_unique horderly he he' rfl rfl
      | @method number' inst' cls' ref' d' slot' hd' he' =>
        obtain ⟨hshared', rfl⟩ := methodSpelling_own hmark'
        exact (ha.not_both hd hcomp hstream hshared hd' hshared' (final_of_owner hs'') hbase).elim
    | @method number inst cls ref d slot hd he =>
      obtain ⟨hshared, rfl⟩ := methodSpelling_own hmark
      cases h' with
      | @«variable» number' inst' cls' ref' d' home' hd' hcomp' he' =>
        obtain ⟨hstream', hshared', rfl⟩ := variableSpelling_own hmark'
        exact (ha.not_both hd' hcomp' hstream' hshared' hd hshared (final_of_owner hs') hbase.symm).elim
      | @method number' inst' cls' ref' d' slot' hd' he' =>
        obtain ⟨hshared', rfl⟩ := methodSpelling_own hmark'
        cases hd.inst_eq.symm.trans hd'.inst_eq
        have hlists := (horderly inst hd.inst_mem).lists
        obtain rfl := inj_on_of_nodup_map hlists.nodup hd.slot_mem hd'.slot_mem
          (hd.slot_name.trans (hbase.trans hd'.slot_name.symm))
        obtain rfl := Option.some.inj ((final_of_owner hs').symm.trans (final_of_owner hs''))
        exact place?_unique horderly he he' rfl rfl

include hs ha in
theorem not_shared_and_root (h : Spelled builtins instances i s) (h' : Spelled builtins instances j t)
    (howner : s.owner = t.owner) (hbase : s.base = t.base) (hmark : s.mark = .shared)
    (hmark' : t.mark = .own 0) : False := by
  cases hs' : s.owner with
  | none =>
    obtain ⟨_, inst, shared, hinst, hshared, hmem⟩ := h.plain (by simp [hmark]) hs'
    obtain ⟨_, root, shared', hroot, hown, hmem'⟩ := h'.plain (by simp [hmark']) (howner.symm.trans hs')
    rw [hmark] at hshared
    rw [hmark'] at hown
    cases shared <;> cases hshared
    cases shared' <;> cases hown
    rw [← head?_eq_getElem?] at hroot
    exact ha.root root hroot inst (mem_of_getElem? hinst) _ hmem' (hbase ▸ hmem)
  | some name =>
    obtain ⟨number, inst, cls, ref, d, hd, hcls, hname, hshared, he⟩ := h.overridden hs'
    obtain ⟨number', inst', cls', ref', d', hd', hcls', hname', hown, he'⟩ := h'.overridden (howner.symm.trans hs')
    have hmem := hd.cls_mem
    have hinst := hd.inst_mem
    obtain rfl := hs.byName inst hinst cls hmem inst' hd'.inst_mem cls' hd'.cls_mem (hcls.trans hcls'.symm)
    obtain ⟨-, rfl⟩ := hs.decl_of_name hinst hmem hd.mem hd'.mem (hname.trans (hbase.trans hname'.symm))
    rw [hmark] at hshared
    rw [hmark'] at hown
    split at hshared
    · next hyes =>
      rw [if_pos hyes] at hown
      cases hown
    · cases hshared

include hs ha in
theorem unique (horderly : ∀ i ∈ instances, i.Orderly) (h : Spelled builtins instances i s)
    (h' : Spelled builtins instances j t)
    (hname : joined (s.words classWords) = joined (t.words classWords)) : i = j := by
  obtain ⟨howner, hbase, hmark | ⟨hshared, hroot⟩ | ⟨hroot, hshared⟩⟩ :=
    (h.proper hs ha).eq_of_name (h'.proper hs ha) hname
  · obtain ⟨e, he, hshared, hstream⟩ := h.keyed horderly
    obtain ⟨e', he', hshared', hstream'⟩ := h'.keyed horderly
    rw [← hmark, ← hbase] at hshared' hstream'
    rw [← howner] at hshared'
    cases hs' : s.mark with
    | stream => exact eq_of_key he he' (hstream hs') (hstream' hs')
    | shared => exact eq_of_key he he' (hshared hs') (hshared' hs')
    | own n => exact h.own_unique hs ha horderly h' howner hbase hs' (hmark.symm.trans hs')
  · exact (h.not_shared_and_root hs ha h' howner hbase hshared hroot).elim
  · exact (h'.not_shared_and_root hs ha h howner.symm hbase.symm hshared hroot).elim

theorem exists_of_entry (hlog : (emit builtins instances).2.hasErrors = false)
    (horderly : ∀ i ∈ instances, i.Orderly) (hown : i < ownCount builtins instances) {v : Decl}
    (hv : (emit builtins instances).1.table[i]? = some v) (hkind : (v.isVar || v.isMethod) = true) :
    ∃ s, Spelled builtins instances i s := by
  rcases Bool.or_eq_true_iff.mp hkind with hvar | hmethod
  · obtain ⟨number, inst, cls, ref, d, home, hd, hcomp, -, he⟩ := entry_of_isVar hlog horderly hown hv hvar
    exact ⟨_, .variable hd hcomp he⟩
  · obtain ⟨e, he⟩ := (lt_ownCount_iff hlog).mp hown
    cases (getElem?_emit hlog he).symm.trans hv
    obtain ⟨m, rfl⟩ := (Offer.placed_isMethod (fits_of_entry horderly he)).mp hmethod
    have hentry := mem_of_getElem? he
    obtain ⟨number, inst, cls, ref, d, hd, rfl⟩ :=
      (method_mem_offersOf builtins).mp ((entries_sublist _).subset hentry)
    exact ⟨_, .method (hd.implementation (horderly inst hd.inst_mem)) he⟩

end Spelled

theorem lt_ownCount_of_no_builtins {i : DeclId} {v : Decl}
    (h : (emit [] instances).1.table[i]? = some v) : i < ownCount [] instances :=
  (Array.getElem?_eq_some_iff.mp h).1

theorem nodup_names_emit (hlog : (emit [] instances).2.hasErrors = false)
    (horderly : ∀ i ∈ instances, i.Orderly) (hs : Spellable instances classWords)
    (ha : Apart instances) :
    (((emit [] instances).1.declared.filter fun d => d.isVar || d.isMethod).map Decl.name).Nodup := by
  have hlisted : (emit [] instances).1.listed.Nodup := by
    refine nodup_listed_emit hlog horderly fun i d hown hd => ?_
    exact absurd (lt_ownCount_of_no_builtins hd) (Nat.not_lt_of_le hown)
  rw [nodup_iff_pairwise_ne, pairwise_map, pairwise_filter, Shader.declared, Shader.select, pairwise_filterMap]
  refine hlisted.imp fun {i j} hne v hv w hw hkind hkind' hname => hne ?_
  obtain ⟨s, h⟩ := Spelled.exists_of_entry hlog horderly (lt_ownCount_of_no_builtins hv) hv hkind
  obtain ⟨t, h'⟩ := Spelled.exists_of_entry hlog horderly (lt_ownCount_of_no_builtins hw) hw hkind'
  obtain ⟨v', hv', hspelled⟩ := h.name hs hlog horderly
  obtain ⟨w', hw', hspelled'⟩ := h'.name hs hlog horderly
  cases hv.symm.trans hv'
  cases hw.symm.trans hw'
  exact h.unique hs ha horderly h' (hspelled.symm.trans (hname.trans hspelled'))

end

end ShaderCompose.Mix
