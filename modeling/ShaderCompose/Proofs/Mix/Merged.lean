import ShaderCompose.Proofs.Mix.Variables

/-!
What becomes of the variables of the instances, all in all.
-/

namespace ShaderCompose.Mix

def IsBuffer (s : Shader) (count : Nat) (id : DeclId) (name : String) (members : List DeclId) : Prop :=
  id ∈ s.declarations ∧ id < count ∧ ∃ d kind, s.table[id]? = some d ∧ d.name = name ∧ d.kind = .buffer kind members

def IsStream (s : Shader) (count : Nat) (i : DeclId) (name : String) : Prop :=
  i ∈ s.listed ∧ i < count ∧ ∃ v, s.table[i]? = some v ∧ v.isStream = true ∧ v.name = "streams_" ++ name

/-- The variables of instances are among the first `count` declarations. -/
structure Arrive (instances : List MixInstance) (count : Nat) (s : Shader) (site : DeclId → Site) :
    Prop where
  once : s.listed.Nodup
  bijOn : Set.BijOn site (ownVariables s count) (sites instances)
  name : ∀ i ∈ ownVariables s count, ∀ v, s.table[i]? = some v →
    ∀ number inst cls ref d, HasVariable instances number inst cls ref d →
      site i = siteOf number cls ref d → v.name = variableName inst.label cls d
  buffers : ∀ number inst cls ref b kind ids, instances[number]? = some inst →
    inst.table.classes[MemberRef.cls ref]? = some cls → (ref.decl, b) ∈ cls.memberDecls →
    b.kind = .buffer kind ids → ∃ id members, IsBuffer s count id b.name members ∧
      (∀ id' members', IsBuffer s count id' b.name members' → id' = id) ∧
      ∀ decl ∈ ids, ∀ d, cls.table[decl]? = some d → d.isComposition = false → d.isStream = false →
        ∃ i ∈ members, i ∈ ownVariables s count ∧ site i = siteOf number cls ⟨ref.cls, decl⟩ d
  streams : ∀ name, (∃ i, IsStream s count i name) ↔ ∃ number inst cls ref d,
    HasVariable instances number inst cls ref d ∧ d.isComposition = false ∧ d.isStream = true ∧ d.name = name
  stream_unique : ∀ name i j, IsStream s count i name → IsStream s count j name → i = j

section

variable {builtins : List Module} {instances : List MixInstance} {number : Nat}
  {inst : MixInstance} {cls : ShaderClass} {ref : MemberRef} {d : Decl}

theorem buffer_offered (builtins : List Module) {kind : BufferKind} {ids : List DeclId}
    (hinst : instances[number]? = some inst) (hcls : inst.table.classes[ref.cls]? = some cls)
    (hd : (ref.decl, d) ∈ cls.memberDecls) (hkind : d.kind = .buffer kind ids) :
    Offer.buffer (memberOf builtins instances number inst cls ref d) kind ∈
      offersOf builtins instances := by
  refine mem_offersOf.mpr ⟨memberOf builtins instances number inst cls ref d,
    mem_membersOf.mpr ⟨number, inst, cls, ref, d, hinst, hcls, hd, rfl⟩, ?_⟩
  simp [Member.offers, memberOf, hkind]

variable (hlog : (emit builtins instances).2.hasErrors = false) (horderly : ∀ i ∈ instances, i.Orderly)

include hlog horderly

variable {name : String}

theorem isBuffer_emit {id : DeclId} {members : List DeclId} :
    IsBuffer (emit builtins instances).1 (ownCount builtins instances) id name members ↔
      ∃ m kind, (entriesOf builtins instances)[id]? = some (.buffer m kind) ∧ m.decl.name = name ∧
        members = idsAt (entriesOf builtins instances) (some name) := by
  constructor
  · rintro ⟨-, hown, v, kind, hv, rfl, hkind⟩
    obtain ⟨e, he⟩ := (lt_ownCount_iff hlog).mp hown
    cases (getElem?_emit hlog he).symm.trans hv
    obtain ⟨m, rfl, rfl⟩ := Offer.eq_buffer_of_placed (fits_of_entry horderly he) hkind
    have hname : m.decl.name = ((Offer.buffer m kind).placed (entriesOf builtins instances)).name := by
      exact (Offer.made_name rfl).symm
    refine ⟨m, kind, he, hname, ?_⟩
    rw [hname]
  · rintro ⟨m, kind, he, rfl, rfl⟩
    refine ⟨mem_declarations_emit hlog he rfl, (lt_ownCount_iff hlog).mpr ⟨_, he⟩, _, kind,
      getElem?_emit hlog he, ?_, Offer.kind_buffer m kind⟩
    exact Offer.made_name rfl

theorem buffers_emit (hnames : ClassesByName instances) {kind : BufferKind} {ids : List DeclId}
    (hinst : instances[number]? = some inst) (hcls : inst.table.classes[ref.cls]? = some cls)
    (hd : (ref.decl, d) ∈ cls.memberDecls) (hkind : d.kind = .buffer kind ids) :
    ∃ id members, IsBuffer (emit builtins instances).1 (ownCount builtins instances) id d.name members ∧
      (∀ id' members', IsBuffer (emit builtins instances).1 (ownCount builtins instances) id' d.name
        members' → id' = id) ∧
      ∀ decl ∈ ids, ∀ v, cls.table[decl]? = some v → v.isComposition = false → v.isStream = false →
        ∃ i ∈ members, i ∈ ownVariables (emit builtins instances).1 (ownCount builtins instances) ∧
          siteAt builtins instances i = siteOf number cls ⟨ref.cls, decl⟩ v := by
  have hkey : Key.buffer d.name ∈ keys (entriesOf builtins instances) := by
    have hoffer := buffer_offered builtins hinst hcls hd hkind
    rcases mem_entries_of_offered hoffer rfl with hentry | ⟨k, hk, hmem⟩
    · exact mem_keys.mpr ⟨_, hentry, rfl⟩
    · cases hk
      exact hmem
  obtain ⟨e, he, hekey⟩ := mem_keys.mp hkey
  obtain ⟨m, kind', rfl, hname⟩ := (Offer.key?_cases hekey).2
  obtain ⟨id, hid⟩ := List.mem_iff_getElem?.mp he
  refine ⟨id, _, (isBuffer_emit hlog horderly).mpr ⟨m, kind', hid, hname, rfl⟩, ?_, ?_⟩
  · intro id' members' hid'
    obtain ⟨m', kind'', he', hname', -⟩ := (isBuffer_emit hlog horderly).mp hid'
    refine eq_of_key he' hid (Reflects.key?_buffer m' kind'') ?_
    rw [Reflects.key?_buffer, hname, hname']
  · intro decl hdecl v hv hcomp hstream
    have hinner : decl ∈ d.inner := by simpa [Decl.inner, hkind] using hdecl
    have hmember := ShaderClass.mem_memberDecls.mp hd
    obtain ⟨v', hv', hvar⟩ := ((horderly inst (List.mem_of_getElem? hinst)).layout cls
      (List.mem_of_getElem? hcls)).inner ref.decl d hmember.1 hmember.2 decl hinner
    cases hv.symm.trans hv'
    have hvariable : HasVariable instances number inst cls ⟨ref.cls, decl⟩ v :=
      ⟨hinst, hcls, ShaderClass.mem_vars.mpr ⟨hv, hvar⟩⟩
    have hhome : cls.HasHome decl (some d.name) := .inr ⟨ref.decl, d, hd, hinner, rfl⟩
    obtain ⟨i, number', inst', ref', hd', hsame, hsite, hi⟩ :=
      exists_entry hlog horderly hnames hvariable hcomp hstream hhome
    refine ⟨i, mem_idsAt.mpr ⟨_, hi, rfl⟩, (mem_ownVariables hlog horderly).mpr
      ⟨number', inst', cls, ref', v, some d.name, hd', hcomp, hstream, ?_, hi⟩, ?_⟩
    · rw [hsame]
      exact hhome
    · rw [siteAt_eq hi, hsite]

theorem isStream_emit {i : DeclId} :
    IsStream (emit builtins instances).1 (ownCount builtins instances) i name ↔
      ∃ number inst cls ref d home, HasVariable instances number inst cls ref d ∧
        d.isComposition = false ∧ d.isStream = true ∧ d.name = name ∧
        (entriesOf builtins instances)[i]? =
          some (.variable (memberOf builtins instances number inst cls ref d) home) := by
  have hlabelled : ∀ {label : String} {cls : ShaderClass} {d : Decl}, d.isStream = true →
      variableName label cls d = "streams_" ++ d.name := by
    intro label cls d hstream
    simp [variableName, hstream]
  constructor
  · rintro ⟨-, hown, v, hv, hstream, hname⟩
    have hvar : v.isVar = true := by
      unfold Decl.isStream at hstream
      simp_all
    obtain ⟨number, inst, cls, ref, d, home, hd, hcomp, -, he⟩ := entry_of_isVar hlog horderly hown hv hvar
    obtain ⟨v', hv', -, hsame, hname'⟩ := variable_of_entry hlog horderly hcomp he
    cases hv.symm.trans hv'
    have hdstream := hsame.symm.trans hstream
    rw [hlabelled hdstream, hname] at hname'
    exact ⟨number, inst, cls, ref, d, home, hd, hcomp, hdstream, by simpa using hname'.symm, he⟩
  · rintro ⟨number, inst, cls, ref, d, home, hd, hcomp, hstream, rfl, he⟩
    obtain ⟨v, hv, -, hsame, hname⟩ := variable_of_entry hlog horderly hcomp he
    rw [hlabelled hstream] at hname
    exact ⟨mem_listed_emit hlog he, (lt_ownCount_iff hlog).mpr ⟨_, he⟩, v, hv, hsame.trans hstream, hname⟩

theorem stream_unique_emit {i j : DeclId}
    (hi : IsStream (emit builtins instances).1 (ownCount builtins instances) i name)
    (hj : IsStream (emit builtins instances).1 (ownCount builtins instances) j name) : i = j := by
  obtain ⟨_, _, _, _, d, _, -, hcomp, hstream, hname, he⟩ := (isStream_emit hlog horderly).mp hi
  obtain ⟨_, _, _, _, d', _, -, hcomp', hstream', hname', he'⟩ := (isStream_emit hlog horderly).mp hj
  refine eq_of_key (k := .stream ("streams_" ++ name)) he he' ?_ ?_
  · simp [key?_variable hcomp, hstream, hname]
  · simp [key?_variable hcomp', hstream', hname']

theorem stream_declared (hd : HasVariable instances number inst cls ref d)
    (hcomp : d.isComposition = false) (hstream : d.isStream = true) :
    ∃ i, IsStream (emit builtins instances).1 (ownCount builtins instances) i d.name := by
  obtain ⟨home, hhome⟩ := hd.exists_home horderly
  have hoffer := (variable_mem_offersOf builtins horderly).mpr ⟨number, inst, cls, ref, d, hd, hhome, rfl⟩
  have hkey : (Offer.variable (memberOf builtins instances number inst cls ref d) home).key? =
      some (.stream ("streams_" ++ d.name)) := by simp [key?_variable hcomp, hstream]
  have htaken : Key.stream ("streams_" ++ d.name) ∈ keys (entriesOf builtins instances) := by
    rcases mem_entries_of_offered hoffer (by simp [name?_variable, hcomp]) with hentry | ⟨k, hk, hmem⟩
    · exact mem_keys.mpr ⟨_, hentry, hkey⟩
    · cases hk.symm.trans hkey
      exact hmem
  obtain ⟨e, he, hekey⟩ := mem_keys.mp htaken
  obtain ⟨i, hi⟩ := List.mem_iff_getElem?.mp he
  obtain ⟨m, home', rfl⟩ := (Offer.key?_cases hekey).2
  obtain ⟨number', inst', cls', ref', d', home'', hd', hcomp', -, he'⟩ :=
    entry_of_isVar hlog horderly ((lt_ownCount_iff hlog).mpr ⟨_, hi⟩) (getElem?_emit hlog hi)
      (Offer.isVar_variable _ home' (fits_of_entry horderly hi))
  cases hi.symm.trans he'
  rw [key?_variable hcomp'] at hekey
  refine ⟨i, (isStream_emit hlog horderly).mpr ⟨number', inst', cls', ref', d', home', hd', hcomp', ?_, ?_, he'⟩⟩
  all_goals
    by_cases hstream' : d'.isStream = true
    · simp_all
    · by_cases hshared : isShared cls' d' = true <;> simp [hstream'] at hekey

theorem arrive_emit (hnames : ClassesByName instances) (hbuiltins : ∀ i d, ownCount builtins instances ≤ i →
      (emit builtins instances).1.table[i]? = some d → d.inner = []) :
    Arrive instances (ownCount builtins instances) (emit builtins instances).1
      (siteAt builtins instances) where
  once := nodup_listed_emit hlog horderly hbuiltins
  bijOn := ⟨siteAt_mapsTo hlog horderly, siteAt_injOn hlog horderly, siteAt_surjOn hlog horderly hnames⟩
  name _ hi _ hv _ _ _ _ _ hd hsite := name_of_siteAt hlog horderly hi hv hd hsite
  buffers _ _ _ _ _ _ _ hinst hcls hd hkind := buffers_emit hlog horderly hnames hinst hcls hd hkind
  streams name := by
    constructor
    · rintro ⟨i, hi⟩
      obtain ⟨number, inst, cls, ref, d, -, hd, hcomp, hstream, hname, -⟩ := (isStream_emit hlog horderly).mp hi
      exact ⟨number, inst, cls, ref, d, hd, hcomp, hstream, hname⟩
    · rintro ⟨number, inst, cls, ref, d, hd, hcomp, hstream, rfl⟩
      exact stream_declared hlog horderly hd hcomp hstream
  stream_unique _ _ _ hi hj := stream_unique_emit hlog horderly hi hj

end

end ShaderCompose.Mix
