import ShaderCompose.Proofs.Module.Hierarchy
import ShaderCompose.Proofs.Module.Table

/-!
What holds if nothing is wrong with the declarations of classes.
-/

namespace ShaderCompose

open List

namespace MemberTable

/-! ## Variables and structures along a hierarchy -/

def Vetted (reported : Nat → Nat → Bool) (log : Log) (ms : Listing) : Prop :=
  log.hasErrors = false → ∀ v ∈ ms, ∃ first, ms.first? v.2.name = some first ∧
    (first = v.1 ∨ reported first.cls v.1.cls = true)

namespace Vetted

variable {reported : Nat → Nat → Bool} {log : Log} {ms : Listing} (h : Vetted reported log ms)

include h

theorem append (more : Log) : Vetted reported (log ++ more) ms :=
  fun hquiet => h (Log.quiet_of_prefix (prefix_append _ _) hquiet)

theorem register {dict : List (String × MemberRef)} (hdict : ∀ name, dict.lookup name = ms.first? name)
    (owner : String) (place : Nat) (id : DeclId) (d : Decl) :
    Vetted reported (log ++ clash owner reported place dict d) (ms ++ [(⟨place, id⟩, d)]) := by
  intro hquiet
  rw [Log.hasErrors_append, Bool.or_eq_false_iff] at hquiet
  rw [forall_mem_append, forall_mem_singleton]
  refine ⟨fun v hv => ?_, ?_⟩
  · obtain ⟨first, hfirst, hv⟩ := h hquiet.1 v hv
    exact ⟨first, by rw [Listing.first?_snoc, hfirst, Option.some_or], hv⟩
  · rw [Listing.first?_snoc, ← hdict]
    cases hfound : dict.lookup d.name with
    | none => exact ⟨_, by simp, .inl rfl⟩
    | some first =>
      refine ⟨first, rfl, .inr ?_⟩
      by_contra hreported
      simp [clash, hfound, conflict, hreported, Log.hasErrors, Diagnostic.errorAt] at hquiet

end Vetted

theorem vetted_ofModule (m : Module) :
    Vetted (reportedIn m) (ofModule m).log (along ShaderClass.vars (m.hierarchy.map Module.cls)) ∧
    Vetted (reportedIn m) (ofModule m).log (along ShaderClass.structs (m.hierarchy.map Module.cls)) := by
  refine (ofModule_induction (P := fun t methods vars structs => t.Records methods vars structs ∧
    Vetted (reportedIn m) t.log vars ∧ Vetted (reportedIn m) t.log structs) ?_ ?_ ?_ ?_).2
  · exact ⟨records_nil _, fun _ => forall_mem_nil _, fun _ => forall_mem_nil _⟩
  · rintro cls place _ _ t _ id d ⟨h, hvars, hstructs⟩
    refine ⟨h.addMethod .., ?_⟩
    obtain ⟨methods, more, hsame⟩ := addMethod_eq cls place (place == m.hierarchy.length - 1) t id
    rw [hsame]
    exact ⟨hvars.append more, hstructs.append more⟩
  · rintro place _ _ t _ id d ⟨h, hvars, hstructs⟩
    refine ⟨h.addVariable .., ?_⟩
    rw [addVariable_eq]
    exact ⟨hvars.register h.vars _ _ _ _, hstructs.append _⟩
  · rintro place _ _ t _ id d ⟨h, hvars, hstructs⟩
    refine ⟨h.addStruct .., ?_⟩
    rw [addStruct_eq]
    exact ⟨hvars.append _, hstructs.register h.structs _ _ _ _⟩

theorem first_or_shared {m : Module} {pick : ShaderClass → List (DeclId × Decl)}
    (hvetted : Vetted (reportedIn m) (ofModule m).log (along pick (m.hierarchy.map Module.cls)))
    (hquiet : (ofModule m).log.hasErrors = false) {before : List Module}
    (hbefore : m.hierarchy = before ++ [m]) {ref : MemberRef} {d : Decl} {a : Module}
    (ha : m.hierarchy[ref.cls]? = some a) (hd : (ref.decl, d) ∈ pick a.cls) :
    ∃ first x d', (along pick (m.hierarchy.map Module.cls)).first? d.name = some first ∧
      m.hierarchy[first.cls]? = some x ∧ (first.decl, d') ∈ pick x.cls ∧ d'.name = d.name ∧
      (first = ref ∨ ∃ b ∈ before, b.inherits x.name = true ∧ b.inherits a.name = true) := by
  obtain ⟨first, hfirst, hshared⟩ := hvetted hquiet (ref, d) (mem_along.mpr ⟨a.cls, by simp [ha], hd⟩)
  obtain ⟨d', hlisted, hname⟩ := Listing.first?_eq_some hfirst
  obtain ⟨cls, hcls, hd'⟩ := mem_along.mp hlisted
  rw [getElem?_map, Option.map_eq_some_iff] at hcls
  obtain ⟨x, hx, rfl⟩ := hcls
  refine ⟨first, x, d', hfirst, hx, hd', hname, hshared.imp_right fun hshared => ?_⟩
  have htake : m.hierarchy.take (m.hierarchy.length - 1) = before := by simp [hbefore]
  simpa [reportedIn, htake, hx, ha, sharedBy] using hshared

/-! ## The methods of a class -/

theorem nodup_methods {m : Module} (hquiet : (ofModule m).log.hasErrors = false) :
    (m.cls.methods.map fun e => e.2.name).Nodup := by
  set own := m.hierarchy.length - 1 with hown
  have hall := (ofModule_induction (m := m) (P := fun t methods vars structs => t.Records methods vars structs ∧
    (t.log.hasErrors = false → ((methods.filter fun e => e.1.cls == own).map fun e => e.2.name).Nodup))
    ?_ ?_ ?_ ?_).2 hquiet
  · obtain ⟨before, hbefore, -⟩ := m.exists_hierarchy
    have hsplit : along ShaderClass.methods (m.hierarchy.map Module.cls) =
        along ShaderClass.methods (before.map Module.cls) ++ m.cls.methods.map fun e => (⟨own, e.1⟩, e.2) := by
      simp [hown, hbefore, along, zipIdx_append]
    rw [hsplit, filter_append, map_append] at hall
    simpa [filter_map, Function.comp_def] using (nodup_append.mp hall).2.1
  · exact ⟨records_nil _, fun _ => nodup_nil⟩
  · rintro cls place _ _ t ms id d ⟨h, hnodup⟩
    refine ⟨h.addMethod .., fun hquiet => ?_⟩
    have hold := hnodup (Log.quiet_of_prefix ?_ hquiet)
    · rw [filter_append, map_append]
      by_cases hplace : place = own
      · subst hplace
        refine hold.append (List.Sublist.nodup (filter_sublist.map _) (nodup_singleton d.name)) ?_
        -- an earlier method of the class with this name would be complained about
        intro name hname hnew
        obtain ⟨⟨ref, d'⟩, hmem, rfl⟩ := mem_map.mp hname
        obtain ⟨hmem, href⟩ := mem_filter.mp hmem
        have hname : d'.name = d.name := by simpa using hnew
        have hnamed := Listing.mem_named.mpr ⟨d', hmem, hname⟩
        have hslot := h.method?_eq_some.mpr (⟨rfl, rfl, ne_nil_of_mem hnamed⟩ :
          (⟨d.name, ms.named d.name⟩ : MethodSlot).name = d.name ∧ _)
        have hany : ((ms.named d.name).any fun m => m.cls == own) = true := any_eq_true.mpr ⟨ref, hnamed, href⟩
        simp [addMethod, hslot, methodError?, hany, Log.hasErrors, Diagnostic.errorAt, ← hown] at hquiet
      · simpa [hplace] using hold
    · obtain ⟨methods, more, hsame⟩ := addMethod_eq cls place (place == own) t id
      rw [hsame]
      exact prefix_append _ _
  · rintro place _ _ t _ id d ⟨h, hnodup⟩
    refine ⟨h.addVariable .., fun hquiet => hnodup (Log.quiet_of_prefix ?_ hquiet)⟩
    rw [addVariable_eq]
    exact prefix_append _ _
  · rintro place _ _ t _ id d ⟨h, hnodup⟩
    refine ⟨h.addStruct .., fun hquiet => hnodup (Log.quiet_of_prefix ?_ hquiet)⟩
    rw [addStruct_eq]
    exact prefix_append _ _

end MemberTable

/-- Modules with their bases, without complaints. -/
structure Tidy (known : Module → Prop) : Prop where
  bases : ∀ m, known m → ∀ b ∈ m.bases, known b
  names : ∀ a b, known a → known b → a.name = b.name → a = b
  quiet : ∀ m, known m → (MemberTable.ofModule m).log.hasErrors = false

namespace Tidy

variable {known : Module → Prop}

theorem part (h : Tidy known) {a m : Module} (hpart : m.Part a) : known a → known m := by
  induction hpart with
  | self => exact fun hknown => hknown
  | base hb _ ih => exact fun hknown => ih (h.bases _ hknown _ hb)

theorem mem_hierarchy (h : Tidy known) {a m : Module} (hm : known m) (ha : a ∈ m.hierarchy) : known a :=
  h.part (Module.part_of_mem_hierarchy ha) hm

theorem mem_of_inherits (h : Tidy known) {a m : Module} (hm : known m) (ha : known a)
    (hinherits : m.inherits a.name = true) : a ∈ m.hierarchy := by
  obtain ⟨b, hb, hname⟩ := any_eq_true.mp hinherits
  rwa [← h.names b a (h.mem_hierarchy hm hb) ha (by simpa using hname)]

variable {m : Module}

open MemberTable in
theorem member_unique (h : Tidy known) {pick : ShaderClass → List (DeclId × Decl)}
    (hvetted : ∀ m, Vetted (reportedIn m) (ofModule m).log (along pick (m.hierarchy.map Module.cls)))
    (hm : known m) :
    ∀ a ∈ m.hierarchy, ∀ a' ∈ m.hierarchy, ∀ v ∈ pick a.cls, ∀ v' ∈ pick a'.cls,
      v.2.name = v'.2.name → a = a' ∧ v.1 = v'.1 := by
  -- strong induction: the statement passes from all proper parts of a module to the module
  have strong : ∀ m : Module, ∀ x, x.Part m → known x →
      ∀ a ∈ x.hierarchy, ∀ a' ∈ x.hierarchy, ∀ v ∈ pick a.cls, ∀ v' ∈ pick a'.cls,
        v.2.name = v'.2.name → a = a' ∧ v.1 = v'.1 := by
    intro m
    induction m using Module.bases_induction with
    | step m ih =>
      intro x hx hknown
      rcases Module.part_iff.mp hx with rfl | ⟨b, hb, hx⟩
      · obtain ⟨before, hbefore, hproper⟩ := x.exists_hierarchy
        have first : ∀ a ∈ x.hierarchy, ∀ v ∈ pick a.cls, ∃ ref,
            (along pick (x.hierarchy.map Module.cls)).first? v.2.name = some ref ∧
            x.hierarchy[ref.cls]? = some a ∧ ref.decl = v.1 := by
          intro a ha v hv
          obtain ⟨place, hplace⟩ := mem_iff_getElem?.mp ha
          obtain ⟨ref, y, d, hfound, hy, hd, hname, hshared⟩ := first_or_shared (hvetted x) (h.quiet x hknown)
            hbefore (show x.hierarchy[(⟨place, v.1⟩ : MemberRef).cls]? = some a from hplace) hv
          refine ⟨ref, hfound, ?_⟩
          rcases hshared with rfl | ⟨b, hb, hby, hba⟩
          · exact ⟨hplace, rfl⟩
          · obtain ⟨c, hc, hpart⟩ := hproper b hb
            have hkb : known b := h.mem_hierarchy hknown (hbefore ▸ mem_append_left _ hb)
            have hky := h.mem_hierarchy hknown (mem_of_getElem? hy)
            have hka := h.mem_hierarchy hknown ha
            obtain ⟨rfl, hid⟩ := ih c hc b hpart hkb y (h.mem_of_inherits hkb hky hby) a
              (h.mem_of_inherits hkb hka hba) _ hd v hv hname
            exact ⟨hy, hid⟩
        intro a ha a' ha' v hv v' hv' hname
        obtain ⟨ref, hfound, hplace, hid⟩ := first a ha v hv
        obtain ⟨ref', hfound', hplace', hid'⟩ := first a' ha' v' hv'
        rw [← hname, hfound] at hfound'
        cases hfound'
        exact ⟨Option.some.inj (hplace.symm.trans hplace'), hid.symm.trans hid'⟩
      · exact ih b hb x hx hknown
  exact strong m m (.self m) hm

theorem variable_unique (h : Tidy known) (hm : known m) :
    ∀ a ∈ m.hierarchy, ∀ a' ∈ m.hierarchy, ∀ v ∈ a.cls.vars, ∀ v' ∈ a'.cls.vars,
      v.2.name = v'.2.name → a = a' ∧ v.1 = v'.1 :=
  h.member_unique (fun m => (MemberTable.vetted_ofModule m).1) hm

theorem nodup_members (h : Tidy known) {p : Decl → Bool}
    (hvetted : ∀ m, MemberTable.Vetted (MemberTable.reportedIn m) (MemberTable.ofModule m).log
      (along (fun c => c.entries.filter fun e => p e.2) (m.hierarchy.map Module.cls)))
    (hm : known m) :
    (m.hierarchy.flatMap fun a => (a.cls.entries.filter fun e => p e.2).map fun v => v.2.name).Nodup := by
  refine nodup_flatMap.mpr ⟨fun a ha => ?_, ?_⟩
  · have hids : (a.cls.entries.map Prod.fst).Nodup := by
      rw [ShaderClass.entries, map_map]
      exact zipIdx_map_snd 0 a.cls.table.toList ▸ nodup_range'
    refine List.Nodup.map_on (fun v hv w hw hname => ?_) (hids.of_map.filter _)
    exact inj_on_of_nodup_map hids (mem_filter.mp hv).1 (mem_filter.mp hw).1
      (h.member_unique hvetted hm a ha a ha v hv w hw hname).2
  · refine m.nodup_hierarchy.of_map.imp_of_mem fun {a b} ha hb hne name hna hnb => hne ?_
    obtain ⟨v, hv, rfl⟩ := mem_map.mp hna
    obtain ⟨w, hw, hname⟩ := mem_map.mp hnb
    exact (h.member_unique hvetted hm a ha b hb v hv w hw hname.symm).1

theorem vars_unique (h : Tidy known) (hm : known m) :
    ∀ v ∈ along ShaderClass.vars (MemberTable.ofModule m).classes,
    ∀ w ∈ along ShaderClass.vars (MemberTable.ofModule m).classes,
      v.2.name = w.2.name → v.1 = w.1 := by
  rintro ⟨⟨place, id⟩, d⟩ hv ⟨⟨place', id'⟩, d'⟩ hw hname
  rw [MemberTable.mem_along, MemberTable.classes_ofModule] at hv hw
  simp only [getElem?_map, Option.map_eq_some_iff] at hv hw
  obtain ⟨_, ⟨a, ha, rfl⟩, hd⟩ := hv
  obtain ⟨_, ⟨a', ha', rfl⟩, hd'⟩ := hw
  obtain ⟨rfl, rfl⟩ := h.variable_unique hm a (mem_of_getElem? ha) a' (mem_of_getElem? ha')
    (id, d) hd (id', d') hd' hname
  have hplace : place = place' := by
    have hnodup := m.nodup_hierarchy.of_map
    have hlt := (List.getElem?_eq_some_iff.mp ha).1
    exact (getElem?_inj hlt hnodup).mp (ha.trans ha'.symm)
  rw [hplace]

end Tidy

namespace Module

/-- Where names tell modules apart and nothing is wrong, members have different names. -/
theorem members_distinct {m : Module}
    (hnames : ∀ a b, Part a m → Part b m → a.name = b.name → a = b)
    (hquiet : ∀ a ∈ m.hierarchy, (MemberTable.ofModule a).log = []) :
    (m.hierarchy.flatMap fun a => a.cls.vars.map fun v => v.2.name).Nodup ∧
    (m.hierarchy.flatMap fun a => a.cls.structs.map fun v => v.2.name).Nodup ∧
    ∀ a ∈ m.hierarchy, (a.cls.methods.map fun v => v.2.name).Nodup := by
  have htidy : Tidy fun a => Part a m := by
    refine ⟨fun a ha b hb => Part.trans (.base hb (.self b)) ha, hnames, fun a ha => ?_⟩
    rw [hquiet a (ha.mem_hierarchy hnames), Log.hasErrors_nil]
  refine ⟨?_, ?_, fun a ha => ?_⟩
  · exact htidy.nodup_members (fun a => (MemberTable.vetted_ofModule a).1) (.self m)
  · exact htidy.nodup_members (fun a => (MemberTable.vetted_ofModule a).2) (.self m)
  · exact MemberTable.nodup_methods (htidy.quiet a (part_of_mem_hierarchy ha))

theorem house_members_distinct : (∀ a ∈ house.hierarchy, (MemberTable.ofModule a).log = []) ∧
    (house.hierarchy.flatMap fun a => a.cls.vars.map fun v => v.2.name) = ["Color", "Ivy", "Moss"] ∧
    (house.hierarchy.flatMap fun a => a.cls.vars.map fun v => v.2.name).Nodup ∧
    (house.hierarchy.flatMap fun a => a.cls.structs.map fun v => v.2.name) = ["Brick", "Roof"] ∧
    (house.hierarchy.flatMap fun a => a.cls.structs.map fun v => v.2.name).Nodup := by
  have hquiet : ∀ a ∈ house.hierarchy, (MemberTable.ofModule a).log = [] := by decide +kernel
  obtain ⟨hvars, hstructs, -⟩ := members_distinct house_names hquiet
  exact ⟨hquiet, by decide +kernel, hvars, by decide +kernel, hstructs⟩

end Module

end ShaderCompose
