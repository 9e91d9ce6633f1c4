import ShaderCompose.Mix.Instance
import ShaderCompose.Proofs.Module.Table

/-!
The names of the members of an instance.
-/

namespace ShaderCompose.Mix

open List

def Implements (label : String) (table : MemberTable) (ref : MemberRef) (name : String) : Prop :=
  ∃ slot cls d, slot ∈ table.methods ∧ ref ∈ slot.implementations ∧
    table.classes[ref.cls]? = some cls ∧ cls.table[ref.decl]? = some d ∧
    name = implementationName label slot.name cls d (slot.final? == some ref)

namespace Names

variable {name renamed : String} {slot : MethodSlot} {ref : MemberRef}

theorem member?_cases {n : Names} (h : n.member? name = some renamed) : n.methods.lookup name = some renamed ∨
      n.methods.lookup name = none ∧ n.vars.lookup name = some renamed := by
  unfold member? at h
  cases hmethod : n.methods.lookup name with
  | none => exact .inr ⟨rfl, by simpa [hmethod] using h⟩
  | some final => exact .inl (by simpa [hmethod] using h)

variable {label : String} {table : MemberTable}

theorem mem_ofSlot : (ref, name) ∈ ofSlot label table slot ↔ ref ∈ slot.implementations ∧
      ∃ cls d, table.classes[ref.cls]? = some cls ∧ cls.table[ref.decl]? = some d ∧
        name = implementationName label slot.name cls d (slot.final? == some ref) := by
  simp only [ofSlot, mem_filterMap, Option.bind_eq_some_iff, Option.map_eq_some_iff, Prod.mk.injEq]
  constructor
  · rintro ⟨m, hm, cls, hcls, d, hd, rfl, rfl⟩
    exact ⟨hm, cls, d, hcls, hd, rfl⟩
  · rintro ⟨hm, cls, d, hcls, hd, rfl⟩
    exact ⟨ref, hm, cls, hcls, d, hd, rfl, rfl⟩

theorem mem_implementations :
    (ref, name) ∈ (ofTable label table).implementations ↔ Implements label table ref name := by
  simp only [ofTable, mem_flatMap, mem_ofSlot]
  constructor
  · rintro ⟨slot, hslot, href, cls, d, h⟩
    exact ⟨slot, cls, d, hslot, href, h⟩
  · rintro ⟨slot, cls, d, hslot, href, h⟩
    exact ⟨slot, hslot, href, cls, d, h⟩

variable (h : table.Lists (along ShaderClass.methods table.classes) (along ShaderClass.vars table.classes))

include h

theorem slot_of_mem (hslot : slot ∈ table.methods) (href : ref ∈ slot.implementations) :
    ∃ cls d, table.classes[ref.cls]? = some cls ∧ (ref.decl, d) ∈ cls.methods ∧
      d.name = slot.name := by
  rw [((h.slots slot).mp hslot).1, Listing.mem_named] at href
  obtain ⟨d, hd, hname⟩ := href
  obtain ⟨cls, hcls, hd⟩ := MemberTable.mem_along.mp hd
  exact ⟨cls, d, hcls, hd, hname⟩

theorem slot_unique {other : MethodSlot} (hslot : slot ∈ table.methods) (hother : other ∈ table.methods)
    (href : ref ∈ slot.implementations) (href' : ref ∈ other.implementations) : slot = other := by
  obtain ⟨cls, d, hcls, hd, hname⟩ := slot_of_mem h hslot href
  obtain ⟨cls', d', hcls', hd', hname'⟩ := slot_of_mem h hother href'
  cases hcls.symm.trans hcls'
  cases (ShaderClass.mem_methods.mp hd).2.1.symm.trans (ShaderClass.mem_methods.mp hd').2.1
  exact inj_on_of_nodup_map h.nodup hslot hother (hname.symm.trans hname')

theorem implements_unique {other : String} (hname : Implements label table ref name)
    (hother : Implements label table ref other) :
    name = other := by
  obtain ⟨slot, cls, d, hslot, href, hcls, hd, rfl⟩ := hname
  obtain ⟨slot', cls', d', hslot', href', hcls', hd', rfl⟩ := hother
  cases slot_unique h hslot hslot' href href'
  cases hcls.symm.trans hcls'
  cases hd.symm.trans hd'
  rfl

theorem lookup_implementations : (ofTable label table).implementations.lookup ref = some name ↔
      Implements label table ref name := by
  constructor
  · exact fun hlookup => mem_implementations.mp (mem_of_lookup hlookup)
  · intro himplements
    have hmem := mem_implementations.mpr himplements
    obtain ⟨other, hother⟩ := Option.isSome_iff_exists.mp (lookup_isSome_of_mem_keys (mem_map_of_mem hmem))
    rw [hother, implements_unique h (mem_implementations.mp (mem_of_lookup hother)) himplements]

omit h in
theorem lookup_methods (hlookup : (ofTable label table).methods.lookup name = some renamed) :
    ∃ slot ref, slot ∈ table.methods ∧ slot.name = name ∧ slot.final? = some ref ∧
      Implements label table ref renamed := by
  have hmem := mem_of_lookup hlookup
  simp only [ofTable, mem_filterMap, Option.map_eq_some_iff, Option.bind_eq_some_iff, Prod.mk.injEq] at hmem
  obtain ⟨slot, hslot, _, ⟨ref, hfinal, hfound⟩, hname, rfl⟩ := hmem
  obtain ⟨href, cls, d, hcls, hd, himplements⟩ := mem_ofSlot.mp (mem_of_lookup hfound)
  exact ⟨slot, ref, hslot, hname, hfinal, slot, cls, d, hslot, href, hcls, hd, himplements⟩

omit h in
theorem lookup_vars (hlookup : (ofTable label table).vars.lookup name = some renamed) :
    ∃ (ref : MemberRef) (cls : ShaderClass) (d : Decl),
      table.classes[ref.cls]? = some cls ∧ (ref.decl, d) ∈ cls.vars ∧ d.isComposition = false ∧
      d.name = name ∧ renamed = variableName label cls d := by
  have hmem := mem_of_lookup hlookup
  simp only [ofTable, mem_flatMap, mem_map, mem_filter, Prod.exists,
    exists_eq_right, Prod.mk.injEq, Bool.not_eq_true'] at hmem
  obtain ⟨cls, hcls, d, ⟨⟨id, hd⟩, hcomp⟩, hname, rfl⟩ := hmem
  obtain ⟨place, hplace⟩ := mem_iff_getElem?.mp hcls
  exact ⟨⟨place, id⟩, cls, d, hplace, hd, hcomp, hname, rfl⟩

end Names

end ShaderCompose.Mix
