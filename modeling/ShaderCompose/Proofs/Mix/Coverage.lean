import ShaderCompose.Proofs.Mix.Mixed
import ShaderCompose.Proofs.Mix.Names
import ShaderCompose.Proofs.Reader.Layout

/-!
Every named member is declared, by its instance or one that shares it.
-/

namespace ShaderCompose.Mix

open List

/-- The names and the table are those of one hierarchy. -/
structure MixInstance.Orderly (i : MixInstance) : Prop where
  names : i.names = .ofTable i.label i.table
  lists : i.table.Lists (along ShaderClass.methods i.table.classes) (along ShaderClass.vars i.table.classes)
  layout : ∀ cls ∈ i.table.classes, cls.Layout

def memberOf (builtins : List Module) (instances : List MixInstance) (number : Nat)
    (inst : MixInstance) (cls : ShaderClass) (ref : MemberRef) (d : Decl) : Member :=
  ⟨⟨builtins, instances, some ⟨number, ref.cls⟩⟩, inst, cls, ref, d⟩

section

variable {builtins : List Module} {instances : List MixInstance} {number : Nat}
  {inst : MixInstance} {cls : ShaderClass} {ref : MemberRef} {d : Decl}

theorem mem_membersOf {m : Member} :
    m ∈ membersOf builtins instances ↔ ∃ number inst cls ref d, instances[number]? = some inst ∧
      inst.table.classes[ref.cls]? = some cls ∧ (ref.decl, d) ∈ cls.memberDecls ∧
      m = memberOf builtins instances number inst cls ref d := by
  simp only [membersOf, mem_flatMap, mem_map, Prod.exists, mk_mem_zipIdx_iff_getElem?]
  constructor
  · rintro ⟨inst, number, hinst, cls, place, hcls, id, d, hd, rfl⟩
    exact ⟨number, inst, cls, ⟨place, id⟩, d, hinst, hcls, hd, rfl⟩
  · rintro ⟨number, inst, cls, ⟨place, id⟩, d, hinst, hcls, hd, rfl⟩
    exact ⟨inst, number, hinst, cls, place, hcls, id, d, hd, rfl⟩

theorem mem_offersOf {o : Offer} :
    o ∈ offersOf builtins instances ↔ ∃ m ∈ membersOf builtins instances, o ∈ m.offers :=
  mem_flatMap

structure HasVariable (instances : List MixInstance) (number : Nat) (inst : MixInstance)
    (cls : ShaderClass) (ref : MemberRef) (d : Decl) : Prop where
  inst_eq : instances[number]? = some inst
  cls_eq : inst.table.classes[ref.cls]? = some cls
  mem : (ref.decl, d) ∈ cls.vars

namespace HasVariable

variable (hd : HasVariable instances number inst cls ref d)

include hd

theorem inst_mem : inst ∈ instances := mem_of_getElem? hd.inst_eq

theorem cls_mem : cls ∈ inst.table.classes := mem_of_getElem? hd.cls_eq

theorem exists_home (horderly : ∀ i ∈ instances, i.Orderly) : ∃ home, cls.HasHome ref.decl home :=
  ((horderly inst hd.inst_mem).layout cls hd.cls_mem).exists_home (ShaderClass.mem_vars.mp hd.mem).1

end HasVariable

theorem variable_mem_offersOf (builtins : List Module) (horderly : ∀ i ∈ instances, i.Orderly)
    {m : Member} {home : Option String} :
    Offer.variable m home ∈ offersOf builtins instances ↔ ∃ number inst cls ref d,
      HasVariable instances number inst cls ref d ∧ cls.HasHome ref.decl home ∧
      m = memberOf builtins instances number inst cls ref d := by
  rw [mem_offersOf]
  constructor
  · rintro ⟨_, hm, ho⟩
    obtain ⟨number, inst, cls, ref, d, hinst, hcls, hd, rfl⟩ := mem_membersOf.mp hm
    obtain ⟨hmember, hd'⟩ := ShaderClass.mem_memberDecls.mp hd
    unfold Member.offers at ho
    cases hkind : d.kind with
    | var t semantic init =>
      simp only [memberOf, hkind, mem_singleton] at ho
      cases ho
      refine ⟨number, inst, cls, ref, d, ⟨hinst, hcls, ?_⟩, .inl ⟨rfl, hmember⟩, rfl⟩
      exact ShaderClass.mem_vars.mpr ⟨hd', by simp [Decl.isVar, hkind]⟩
    | buffer kind ids =>
      simp only [memberOf, hkind, mem_cons, reduceCtorEq, false_or, Member.inner,
        mem_filterMap, Option.map_eq_some_iff] at ho
      obtain ⟨id, hid, v, hv, heq⟩ := ho
      cases heq
      have hinner : id ∈ d.inner := by simpa [Decl.inner, hkind] using hid
      obtain ⟨v', hv', hvar⟩ := (horderly inst (mem_of_getElem? hinst)).layout cls
        (mem_of_getElem? hcls) |>.inner ref.decl d hmember hd' id hinner
      cases hv.symm.trans hv'
      refine ⟨number, inst, cls, ⟨ref.cls, id⟩, v, ⟨hinst, hcls, ?_⟩, ?_, rfl⟩
      · exact ShaderClass.mem_vars.mpr ⟨hv, hvar⟩
      · exact .inr ⟨ref.decl, d, hd, hinner, rfl⟩
    | _ =>
      simp only [memberOf, hkind, mem_singleton] at ho
      cases ho
  · rintro ⟨number, inst, cls, ref, d, ⟨hinst, hcls, hd⟩, hhome, rfl⟩
    obtain ⟨hd, hvar⟩ := ShaderClass.mem_vars.mp hd
    rcases hhome with ⟨rfl, hmember⟩ | ⟨b, buffer, hb, hinner, rfl⟩
    · refine ⟨memberOf builtins instances number inst cls ref d, ?_, ?_⟩
      · exact mem_membersOf.mpr ⟨number, inst, cls, ref, d, hinst, hcls,
          ShaderClass.mem_memberDecls.mpr ⟨hmember, hd⟩, rfl⟩
      · unfold Decl.isVar at hvar
        unfold Member.offers memberOf
        cases hkind : d.kind <;> simp_all
    · refine ⟨memberOf builtins instances number inst cls ⟨ref.cls, b⟩ buffer, ?_, ?_⟩
      · exact mem_membersOf.mpr ⟨number, inst, cls, ⟨ref.cls, b⟩, buffer, hinst, hcls, hb, rfl⟩
      · unfold Decl.inner at hinner
        unfold Member.offers memberOf
        cases hkind : buffer.kind with
        | buffer kind members =>
          simp only [hkind] at hinner
          refine mem_cons_of_mem _ (mem_filterMap.mpr ⟨ref.decl, hinner, ?_⟩)
          simp [hd, Member.withDecl]
        | _ => simp [hkind] at hinner

structure HasMethod (instances : List MixInstance) (number : Nat) (inst : MixInstance)
    (cls : ShaderClass) (ref : MemberRef) (d : Decl) : Prop where
  inst_eq : instances[number]? = some inst
  cls_eq : inst.table.classes[ref.cls]? = some cls
  mem : (ref.decl, d) ∈ cls.methods

namespace HasMethod

variable (hd : HasMethod instances number inst cls ref d)

include hd

theorem inst_mem : inst ∈ instances := mem_of_getElem? hd.inst_eq

theorem cls_mem : cls ∈ inst.table.classes := mem_of_getElem? hd.cls_eq

end HasMethod

theorem method_mem_offersOf (builtins : List Module) {m : Member} :
    Offer.method m ∈ offersOf builtins instances ↔ ∃ number inst cls ref d,
      HasMethod instances number inst cls ref d ∧
      m = memberOf builtins instances number inst cls ref d := by
  rw [mem_offersOf]
  constructor
  · rintro ⟨_, hm, ho⟩
    obtain ⟨number, inst, cls, ref, d, hinst, hcls, hd, rfl⟩ := mem_membersOf.mp hm
    obtain ⟨hmember, hd⟩ := ShaderClass.mem_memberDecls.mp hd
    unfold Member.offers at ho
    cases hkind : d.kind with
    | method returns params semantic body =>
      simp only [memberOf, hkind, mem_singleton] at ho
      cases ho
      refine ⟨number, inst, cls, ref, d, ⟨hinst, hcls, ?_⟩, rfl⟩
      exact ShaderClass.mem_methods.mpr ⟨hmember, hd, by simp [Decl.isMethod, hkind]⟩
    | buffer kind ids =>
      simp [memberOf, hkind, Member.inner] at ho
    | _ =>
      simp only [memberOf, hkind, mem_singleton] at ho
      cases ho
  · rintro ⟨number, inst, cls, ref, d, ⟨hinst, hcls, hd⟩, rfl⟩
    obtain ⟨hmember, hd, hmethod⟩ := ShaderClass.mem_methods.mp hd
    refine ⟨memberOf builtins instances number inst cls ref d, ?_, ?_⟩
    · exact mem_membersOf.mpr ⟨number, inst, cls, ref, d, hinst, hcls,
        ShaderClass.mem_memberDecls.mpr ⟨hmember, hd⟩, rfl⟩
    · unfold Decl.isMethod at hmethod
      unfold Member.offers memberOf
      cases hkind : d.kind <;> simp_all

theorem Offer.placed_name (es : List Offer) (o : Offer) : (o.placed es).name = o.made.name := by
  cases o <;> rfl

theorem declared_of_offered (hlog : (emit builtins instances).2.hasErrors = false) {o : Offer}
    (ho : o ∈ offersOf builtins instances) {name : String} (hname : o.name? = some name) :
    (emit builtins instances).1.Declares name := by
  have hentry : ∃ e ∈ entriesOf builtins instances, e.name? = some name := by
    rcases mem_entries_of_offered ho (by simp [hname]) with he | ⟨k, hk, hmem⟩
    · exact ⟨o, he, hname⟩
    · obtain ⟨e, he, hek⟩ := mem_keys.mp hmem
      refine ⟨e, he, ?_⟩
      rw [(Offer.key?_cases hek).1, ← (Offer.key?_cases hk).1, hname]
  obtain ⟨e, he, hename⟩ := hentry
  refine ⟨_, placed_mem_declared hlog he, ?_⟩
  rw [Offer.placed_name, Offer.made_name hename]

theorem declared_of_variable (hlog : (emit builtins instances).2.hasErrors = false)
    (horderly : ∀ i ∈ instances, i.Orderly) (hd : HasVariable instances number inst cls ref d)
    (hcomp : d.isComposition = false) :
    (emit builtins instances).1.Declares (variableName inst.label cls d) := by
  obtain ⟨home, hhome⟩ := hd.exists_home horderly
  have hoffer := (variable_mem_offersOf builtins horderly).mpr ⟨number, inst, cls, ref, d, hd, hhome, rfl⟩
  refine declared_of_offered hlog hoffer ?_
  simp [Offer.name?, memberOf, hcomp]

theorem methodName?_memberOf (builtins : List Module) (instances : List MixInstance) (number : Nat)
    (horderly : inst.Orderly) {slot : MethodSlot} (hslot : slot ∈ inst.table.methods)
    (href : ref ∈ slot.implementations) (hcls : inst.table.classes[ref.cls]? = some cls)
    (hd : cls.table[ref.decl]? = some d) :
    (memberOf builtins instances number inst cls ref d).methodName? =
      some (implementationName inst.label slot.name cls d (slot.final? == some ref)) := by
  have himplements : Implements inst.label inst.table ref _ := ⟨slot, cls, d, hslot, href, hcls, hd, rfl⟩
  have hlookup := (Names.lookup_implementations horderly.lists).mpr himplements
  obtain ⟨cls', d', hcls', hd', hname⟩ := Names.slot_of_mem horderly.lists hslot href
  cases hcls.symm.trans hcls'
  cases hd.symm.trans (ShaderClass.mem_methods.mp hd').2.1
  have hmethod : inst.table.method? d.name = some slot := by
    rw [horderly.lists.method?_eq_some]
    exact ⟨hname.symm, hname ▸ (horderly.lists.slots slot).mp hslot⟩
  simp only [Member.methodName?, memberOf, horderly.names, hlookup, hmethod]

structure HasImplementation (instances : List MixInstance) (number : Nat) (inst : MixInstance)
    (cls : ShaderClass) (ref : MemberRef) (d : Decl) (slot : MethodSlot) : Prop
    extends HasMethod instances number inst cls ref d where
  slot_mem : slot ∈ inst.table.methods
  ref_mem : ref ∈ slot.implementations
  slot_name : slot.name = d.name

theorem HasMethod.implementation (horderly : inst.Orderly) (hd : HasMethod instances number inst cls ref d) :
    HasImplementation instances number inst cls ref d
      ⟨d.name, (along ShaderClass.methods inst.table.classes).named d.name⟩ := by
  have href : ref ∈ (along ShaderClass.methods inst.table.classes).named d.name :=
    Listing.mem_named.mpr ⟨d, MemberTable.mem_along.mpr ⟨cls, hd.cls_eq, hd.mem⟩, rfl⟩
  exact ⟨hd, (horderly.lists.slots _).mpr ⟨rfl, ne_nil_of_mem href⟩, href, rfl⟩

theorem HasImplementation.name? (builtins : List Module) (horderly : inst.Orderly) {slot : MethodSlot}
    (hd : HasImplementation instances number inst cls ref d slot) :
    (Offer.method (memberOf builtins instances number inst cls ref d)).name? =
      some (implementationName inst.label d.name cls d (slot.final? == some ref)) := by
  rw [← hd.slot_name]
  exact methodName?_memberOf builtins instances number horderly hd.slot_mem hd.ref_mem hd.cls_eq
    (ShaderClass.mem_methods.mp hd.mem).2.1

theorem declared_of_method (hlog : (emit builtins instances).2.hasErrors = false)
    (hinst : instances[number]? = some inst) (horderly : inst.Orderly) {name : String}
    (himplements : Implements inst.label inst.table ref name) :
    (emit builtins instances).1.Declares name := by
  obtain ⟨slot, cls, d, hslot, href, hcls, hd, rfl⟩ := himplements
  obtain ⟨cls', d', hcls', hd', -⟩ := Names.slot_of_mem horderly.lists hslot href
  cases hcls.symm.trans hcls'
  cases hd.symm.trans (ShaderClass.mem_methods.mp hd').2.1
  refine declared_of_offered hlog ((method_mem_offersOf builtins).mpr
    ⟨number, inst, cls, ref, d, ⟨hinst, hcls', hd'⟩, rfl⟩) ?_
  exact methodName?_memberOf builtins instances number horderly hslot href hcls hd

end

end ShaderCompose.Mix
