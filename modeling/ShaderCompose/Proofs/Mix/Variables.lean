import Mathlib.Data.Set.Function
import ShaderCompose.Proofs.Mix.Listing

/-!
The variables of a mixed shader and those of the instances.
-/

namespace ShaderCompose

open List

namespace Mix

section

variable {builtins : List Module} {instances : List MixInstance} {number : Nat}
  {inst : MixInstance} {cls : ShaderClass} {ref : MemberRef} {d : Decl}

def Offer.place? : Offer → Option (Nat × MemberRef)
  | .variable m _ | .method m => m.env.place.map fun p => (p.number, m.ref)
  | _ => none

theorem mem_places {m : Member} {x : Nat × MemberRef} (h : x ∈ m.offers.filterMap Offer.place?) :
    m.env.place.map Place.number = some x.1 ∧ x.2.cls = m.ref.cls ∧
      x.2.decl ∈ m.decl.inner ++ [m.ref.decl] := by
  obtain ⟨o, ho, hplace⟩ := mem_filterMap.mp h
  unfold Member.offers at ho
  unfold Decl.inner
  cases hkind : m.decl.kind with
  | var | method =>
    simp only [hkind, mem_singleton] at ho
    subst ho
    obtain ⟨p, hp, rfl⟩ := Option.map_eq_some_iff.mp hplace
    exact ⟨by simp [hp], rfl, by simp⟩
  | buffer kind ids =>
    simp only [hkind, mem_cons, Member.inner, mem_filterMap, Option.map_eq_some_iff] at ho
    rcases ho with rfl | ⟨id, hid, v, -, rfl⟩
    · cases hplace
    · obtain ⟨p, hp, rfl⟩ := Option.map_eq_some_iff.mp hplace
      have hp : m.env.place = some p := hp
      exact ⟨by simp [hp], rfl, mem_append_left _ hid⟩
  | _ =>
    simp only [hkind, mem_singleton] at ho
    subst ho
    cases hplace

theorem nodup_places_member {m : Member} (hinner : m.decl.inner.Nodup) : (m.offers.filterMap Offer.place?).Nodup := by
  unfold Decl.inner at hinner
  unfold Member.offers
  cases hkind : m.decl.kind with
  | buffer kind ids =>
    simp only [hkind] at hinner ⊢
    rw [filterMap_cons_none rfl, Member.inner, filterMap_filterMap]
    refine hinner.filterMap fun a b x ha hb => ?_
    simp only [Option.mem_def, Option.bind_eq_some_iff, Option.map_eq_some_iff] at ha hb
    obtain ⟨_, ⟨_, -, rfl⟩, ha⟩ := ha
    obtain ⟨_, ⟨_, -, rfl⟩, hb⟩ := hb
    obtain ⟨p, -, rfl⟩ := Option.map_eq_some_iff.mp ha
    obtain ⟨q, -, hq⟩ := Option.map_eq_some_iff.mp hb
    exact (MemberRef.mk.inj (Prod.mk.inj hq).2).2.symm
  | var | method =>
    simp only [filterMap_cons]
    split
    · exact nodup_nil
    · exact nodup_singleton _
  | struct => exact nodup_nil

theorem pairwise_zipIdx {α β : Type} (l : List α) {f : α × Nat → List β} (place : β → Nat)
    (h : ∀ x, ∀ y ∈ f x, place y = x.2) : l.zipIdx.Pairwise (Function.onFun List.Disjoint f) := by
  have hnodup : (l.zipIdx.map Prod.snd).Nodup := by
    rw [zipIdx_map_snd]
    exact nodup_range'
  refine (pairwise_map.mp hnodup).imp fun {a b} hne y hya hyb => hne ?_
  rw [← h a y hya, ← h b y hyb]

theorem nodup_places (h : ∀ i ∈ instances, i.Orderly) :
    ((offersOf builtins instances).filterMap Offer.place?).Nodup := by
  unfold offersOf membersOf
  simp only [filterMap_flatMap, flatMap_assoc, flatMap_map]
  refine nodup_flatMap.mpr ⟨fun ⟨inst, number⟩ hinst => ?_, ?_⟩
  · refine nodup_flatMap.mpr ⟨fun ⟨cls, place⟩ hcls => ?_, ?_⟩
    · have horderly := h inst (fst_mem_of_mem_zipIdx hinst)
      have hlayout := horderly.layout cls (fst_mem_of_mem_zipIdx hcls)
      obtain ⟨hmember, hapart⟩ := nodup_flatMap.mp hlayout.nodup
      refine nodup_flatMap.mpr ⟨fun ⟨id, d⟩ hd => ?_, hapart.imp fun {a b} hab x hxa hxb => ?_⟩
      · exact nodup_places_member (nodup_append.mp (hmember _ hd)).1
      · exact hab (a := x.2.decl) (mem_places hxa).2.2 (mem_places hxb).2.2
    · refine pairwise_zipIdx _ (fun y => y.2.cls) fun x y hy => ?_
      obtain ⟨e, -, hy⟩ := mem_flatMap.mp hy
      exact (mem_places hy).2.1
  · refine pairwise_zipIdx _ (fun y => y.1) fun x y hy => ?_
    obtain ⟨c, -, hy⟩ := mem_flatMap.mp hy
    obtain ⟨e, -, hy⟩ := mem_flatMap.mp hy
    exact (Option.some.inj (mem_places hy).1).symm

theorem place?_unique (h : ∀ i ∈ instances, i.Orderly) {i j : DeclId} {a b : Offer}
    {place : Nat × MemberRef} (hi : (entriesOf builtins instances)[i]? = some a)
    (hj : (entriesOf builtins instances)[j]? = some b) (ha : a.place? = some place)
    (hb : b.place? = some place) : i = j :=
  index_unique (((entries_sublist _).filterMap _).nodup (nodup_places h)) hi hj ha hb

/-! ## Sites -/

inductive Site where
  | own (number : Nat) (ref : MemberRef)
  | shared (cls : ShaderClass) (decl : DeclId)
  deriving Inhabited

def siteOf (number : Nat) (cls : ShaderClass) (ref : MemberRef) (d : Decl) : Site :=
  if isShared cls d then .shared cls ref.decl else .own number ref

def sites (instances : List MixInstance) : Set Site :=
  {x | ∃ number inst cls ref d, HasVariable instances number inst cls ref d ∧
    d.isComposition = false ∧ d.isStream = false ∧ x = siteOf number cls ref d}

def siteAt (builtins : List Module) (instances : List MixInstance) (i : DeclId) : Site :=
  match (entriesOf builtins instances)[i]? with
  | some (.variable m _) => siteOf ((m.env.place.map Place.number).getD 0) m.cls m.ref m.decl
  | _ => default

def ownVariables (s : Shader) (count : Nat) : Set DeclId :=
  {i | i ∈ s.listed ∧ i < count ∧ ∃ v, s.table[i]? = some v ∧ v.isVar = true ∧ v.isStream = false}

def ClassesByName (instances : List MixInstance) : Prop :=
  ∀ i ∈ instances, ∀ c ∈ i.table.classes, ∀ j ∈ instances, ∀ c' ∈ j.table.classes, c.name = c'.name → c = c'

theorem ClassesByName.of_nodup (h : ((instances.flatMap fun i => i.table.classes).map ShaderClass.name).Nodup) :
    ClassesByName instances := by
  intro i hi c hc j hj c' hc' hname
  exact inj_on_of_nodup_map h (mem_flatMap.mpr ⟨i, hi, hc⟩) (mem_flatMap.mpr ⟨j, hj, hc'⟩) hname

theorem key?_variable (hcomp : d.isComposition = false) (home : Option String) :
    (Offer.variable (memberOf builtins instances number inst cls ref d) home).key? =
      if d.isStream then some (.stream ("streams_" ++ d.name))
      else if isShared cls d then some (.shared d.name) else none := by
  simp only [Offer.key?, Offer.name?, Offer.keyOf, memberOf, hcomp, variableName]
  by_cases hstream : d.isStream = true
  · simp [hstream]
  · by_cases hshared : isShared cls d = true <;> simp [hstream, hshared]

theorem name?_variable (home : Option String) :
    (Offer.variable (memberOf builtins instances number inst cls ref d) home).name? =
      if d.isComposition then none else some (variableName inst.label cls d) :=
  rfl

variable {number' : Nat} {inst' : MixInstance} {ref' : MemberRef}

theorem HasVariable.decl_unique {d' : Decl}
    (hd : HasVariable instances number inst cls ref d)
    (hd' : HasVariable instances number' inst' cls ref' d') (hdecl : ref.decl = ref'.decl) : d = d' := by
  have hfound := (ShaderClass.mem_vars.mp hd.mem).1
  rw [hdecl] at hfound
  exact Option.some.inj (hfound.symm.trans (ShaderClass.mem_vars.mp hd'.mem).1)

theorem HasMethod.not_hasVariable {d' : Decl}
    (hd : HasMethod instances number inst cls ref d) (hdecl : ref.decl = ref'.decl) :
    ¬ HasVariable instances number' inst' cls ref' d' := by
  intro hd'
  obtain ⟨-, hfound, hmethod⟩ := ShaderClass.mem_methods.mp hd.mem
  obtain ⟨hfound', hvar⟩ := ShaderClass.mem_vars.mp hd'.mem
  rw [hdecl] at hfound
  cases hfound.symm.trans hfound'
  obtain ⟨_, _, _, _, hkind⟩ := Decl.isMethod_iff.mp hmethod
  simp [Decl.isVar, hkind] at hvar

theorem HasVariable.of_siteOf_eq {cls' : ShaderClass}
    {d' : Decl} (hd : HasVariable instances number inst cls ref d)
    (hd' : HasVariable instances number' inst' cls' ref' d')
    (hsite : siteOf number cls ref d = siteOf number' cls' ref' d') :
    cls = cls' ∧ d = d' ∧ ref.decl = ref'.decl ∧
      (isShared cls d = true ∨ number = number' ∧ inst = inst' ∧ ref = ref') := by
  unfold siteOf at hsite
  by_cases hshared : isShared cls d = true
  · by_cases hshared' : isShared cls' d' = true
    · rw [if_pos hshared, if_pos hshared'] at hsite
      obtain ⟨rfl, hdecl⟩ := Site.shared.inj hsite
      exact ⟨rfl, hd.decl_unique hd' hdecl, hdecl, .inl hshared⟩
    · rw [if_pos hshared, if_neg hshared'] at hsite
      cases hsite
  · by_cases hshared' : isShared cls' d' = true
    · rw [if_neg hshared, if_pos hshared'] at hsite
      cases hsite
    · rw [if_neg hshared, if_neg hshared'] at hsite
      obtain ⟨rfl, rfl⟩ := Site.own.inj hsite
      obtain rfl := Option.some.inj (hd.inst_eq.symm.trans hd'.inst_eq)
      obtain rfl := Option.some.inj (hd.cls_eq.symm.trans hd'.cls_eq)
      exact ⟨rfl, hd.decl_unique hd' rfl, rfl, .inr ⟨rfl, rfl, rfl⟩⟩

section

variable (hlog : (emit builtins instances).2.hasErrors = false) (horderly : ∀ i ∈ instances, i.Orderly)

include hlog horderly

variable {i : DeclId} {home : Option String}

theorem entry_of_isVar {v : Decl} (hown : i < ownCount builtins instances)
    (hv : (emit builtins instances).1.table[i]? = some v) (hvar : v.isVar = true) :
    ∃ number inst cls ref d home, HasVariable instances number inst cls ref d ∧
      d.isComposition = false ∧ cls.HasHome ref.decl home ∧
      (entriesOf builtins instances)[i]? =
        some (.variable (memberOf builtins instances number inst cls ref d) home) := by
  obtain ⟨e, he⟩ := (lt_ownCount_iff hlog).mp hown
  cases (getElem?_emit hlog he).symm.trans hv
  obtain ⟨m, home, rfl⟩ := (Offer.placed_isVar (fits_of_entry horderly he)).mp hvar
  have hentry := mem_of_getElem? he
  obtain ⟨number, inst, cls, ref, d, hd, hhome, rfl⟩ :=
    (variable_mem_offersOf builtins horderly).mp ((entries_sublist _).subset hentry)
  refine ⟨number, inst, cls, ref, d, home, hd, ?_, hhome, he⟩
  have hname := name?_of_mem_entries hentry
  rw [name?_variable] at hname
  cases hcomp : d.isComposition with
  | false => rfl
  | true => simp [hcomp] at hname

theorem variable_of_entry (hcomp : d.isComposition = false) (he : (entriesOf builtins instances)[i]? =
      some (.variable (memberOf builtins instances number inst cls ref d) home)) :
    ∃ v, (emit builtins instances).1.table[i]? = some v ∧ v.isVar = true ∧
      v.isStream = d.isStream ∧ v.name = variableName inst.label cls d := by
  have hfits := fits_of_entry horderly he
  have hname : (Offer.variable (memberOf builtins instances number inst cls ref d) home).name? =
      some (variableName inst.label cls d) := by
    rw [name?_variable, hcomp]
    rfl
  refine ⟨_, getElem?_emit hlog he, Offer.isVar_variable _ home hfits, Offer.isStream_variable _ home hfits, ?_⟩
  rw [Offer.placed_name, Offer.made_name hname]

theorem mem_ownVariables : i ∈ ownVariables (emit builtins instances).1 (ownCount builtins instances) ↔
      ∃ number inst cls ref d home, HasVariable instances number inst cls ref d ∧
        d.isComposition = false ∧ d.isStream = false ∧ cls.HasHome ref.decl home ∧
        (entriesOf builtins instances)[i]? =
          some (.variable (memberOf builtins instances number inst cls ref d) home) := by
  constructor
  · rintro ⟨-, hown, v, hv, hvar, hstream⟩
    obtain ⟨number, inst, cls, ref, d, home, hd, hcomp, hhome, he⟩ := entry_of_isVar hlog horderly hown hv hvar
    obtain ⟨v', hv', -, hsame, -⟩ := variable_of_entry hlog horderly hcomp he
    cases hv.symm.trans hv'
    exact ⟨number, inst, cls, ref, d, home, hd, hcomp, hsame.symm.trans hstream, hhome, he⟩
  · rintro ⟨number, inst, cls, ref, d, home, hd, hcomp, hstream, hhome, he⟩
    obtain ⟨v, hv, hvar, hsame, -⟩ := variable_of_entry hlog horderly hcomp he
    exact ⟨mem_listed_emit hlog he, (lt_ownCount_iff hlog).mpr ⟨_, he⟩, v, hv, hvar, hsame.trans hstream⟩

omit hlog horderly in
theorem siteAt_eq (he : (entriesOf builtins instances)[i]? =
    some (.variable (memberOf builtins instances number inst cls ref d) home)) :
    siteAt builtins instances i = siteOf number cls ref d := by
  rw [siteAt, he]
  rfl

theorem siteAt_mapsTo : Set.MapsTo (siteAt builtins instances)
    (ownVariables (emit builtins instances).1 (ownCount builtins instances)) (sites instances) := by
  intro i hi
  obtain ⟨number, inst, cls, ref, d, home, hd, hcomp, hstream, -, he⟩ := (mem_ownVariables hlog horderly).mp hi
  exact ⟨number, inst, cls, ref, d, hd, hcomp, hstream, siteAt_eq he⟩

theorem siteAt_injOn : Set.InjOn (siteAt builtins instances)
    (ownVariables (emit builtins instances).1 (ownCount builtins instances)) := by
  intro i hi j hj hsame
  obtain ⟨number, inst, cls, ref, d, home, hd, hcomp, hstream, -, he⟩ := (mem_ownVariables hlog horderly).mp hi
  obtain ⟨number', inst', cls', ref', d', home', hd', hcomp', hstream', -, he'⟩ :=
    (mem_ownVariables hlog horderly).mp hj
  rw [siteAt_eq he, siteAt_eq he'] at hsame
  obtain ⟨rfl, rfl, -, hshared | ⟨rfl, rfl, rfl⟩⟩ := hd.of_siteOf_eq hd' hsame
  · refine eq_of_key (k := .shared d.name) he he' ?_ ?_ <;>
      simp [key?_variable hcomp, hstream, hshared]
  · exact place?_unique horderly he he' rfl rfl

theorem exists_entry (hnames : ClassesByName instances) (hd : HasVariable instances number inst cls ref d)
    (hcomp : d.isComposition = false) (hstream : d.isStream = false) (hhome : cls.HasHome ref.decl home) :
    ∃ (i : DeclId) (number' : Nat) (inst' : MixInstance) (ref' : MemberRef),
      HasVariable instances number' inst' cls ref' d ∧
      ref'.decl = ref.decl ∧ siteOf number' cls ref' d = siteOf number cls ref d ∧
      (entriesOf builtins instances)[i]? =
        some (.variable (memberOf builtins instances number' inst' cls ref' d) home) := by
  have hoffer := (variable_mem_offersOf builtins horderly).mpr ⟨number, inst, cls, ref, d, hd, hhome, rfl⟩
  have hkey : (Offer.variable (memberOf builtins instances number inst cls ref d) home).key? = _ :=
    key?_variable hcomp home
  by_cases hshared : isShared cls d = true
  · simp only [hstream, hshared] at hkey
    obtain ⟨e, he, hekey, howner⟩ := (emit_spec hlog).1.agree _ hoffer _ hkey
    obtain ⟨hclass, hdecl⟩ := Prod.mk.inj howner
    have heoffer := (entries_sublist _).subset he
    obtain ⟨i, hi⟩ := mem_iff_getElem?.mp he
    cases e with
    | «variable» m home' =>
      obtain ⟨number', inst', cls', ref', d', hd', hhome', rfl⟩ :=
        (variable_mem_offersOf builtins horderly).mp heoffer
      obtain rfl := hnames _ hd'.inst_mem _ hd'.cls_mem _ hd.inst_mem _ hd.cls_mem hclass
      obtain rfl := hd'.decl_unique hd hdecl
      obtain rfl : home' = home := by
        refine ((horderly inst hd.inst_mem).layout cls' hd.cls_mem).home_unique hhome' ?_
        rw [show ref'.decl = ref.decl from hdecl]
        exact hhome
      refine ⟨i, number', inst', ref', hd', hdecl, ?_, hi⟩
      simp only [siteOf, hshared, if_true]
      rw [show ref'.decl = ref.decl from hdecl]
    | method m =>
      obtain ⟨number', inst', cls', ref', d', hd', rfl⟩ := (method_mem_offersOf builtins).mp heoffer
      obtain rfl := hnames _ hd'.inst_mem _ hd'.cls_mem _ hd.inst_mem _ hd.cls_mem hclass
      exact absurd hd (hd'.not_hasVariable hdecl)
    | struct | buffer => cases hekey
  · have hentry := mem_entries_of_keyless hoffer (by simp [name?_variable, hcomp])
      (by simp [hkey, hstream, hshared])
    obtain ⟨i, hi⟩ := mem_iff_getElem?.mp hentry
    exact ⟨i, number, inst, ref, hd, rfl, rfl, hi⟩

theorem siteAt_surjOn (hnames : ClassesByName instances) : Set.SurjOn (siteAt builtins instances)
    (ownVariables (emit builtins instances).1 (ownCount builtins instances)) (sites instances) := by
  rintro _ ⟨number, inst, cls, ref, d, hd, hcomp, hstream, rfl⟩
  obtain ⟨home, hhome⟩ := hd.exists_home horderly
  obtain ⟨i, number', inst', ref', hd', hdecl, hsite, hi⟩ := exists_entry hlog horderly hnames hd hcomp hstream hhome
  refine ⟨i, (mem_ownVariables hlog horderly).mpr
    ⟨number', inst', cls, ref', d, home, hd', hcomp, hstream, ?_, hi⟩, ?_⟩
  · rw [hdecl]
    exact hhome
  · rw [siteAt_eq hi, hsite]

theorem name_of_siteAt {v : Decl} (hi : i ∈ ownVariables (emit builtins instances).1 (ownCount builtins instances))
    (hv : (emit builtins instances).1.table[i]? = some v) (hd : HasVariable instances number inst cls ref d)
    (hsite : siteAt builtins instances i = siteOf number cls ref d) :
    v.name = variableName inst.label cls d := by
  obtain ⟨number', inst', cls', ref', d', home, hd', hcomp, hstream, -, he⟩ := (mem_ownVariables hlog horderly).mp hi
  obtain ⟨v', hv', -, -, hname⟩ := variable_of_entry hlog horderly hcomp he
  cases hv.symm.trans hv'
  rw [siteAt_eq he] at hsite
  rw [hname]
  obtain ⟨rfl, rfl, -, hshared | ⟨rfl, rfl, rfl⟩⟩ := hd'.of_siteOf_eq hd hsite
  · simp [variableName, hshared]
  · rfl

end

end

end Mix

end ShaderCompose
