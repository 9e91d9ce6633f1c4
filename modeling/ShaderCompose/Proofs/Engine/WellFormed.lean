import ShaderCompose.Proofs.Engine.Mixing
import ShaderCompose.Proofs.Mix.Listing

/-!
The numbers in a mixed shader, where constant buffers refer to their members.
-/

namespace ShaderCompose

open List

namespace Shader

def owned (s : Shader) : List DeclId := s.declarations ++ s.table.toList.flatMap Decl.inner

/-- The numbers in a shader are in order. -/
structure WellFormed (s : Shader) : Prop where
  valid : ∀ id ∈ s.declarations, id < s.table.size
  members : ∀ (id : DeclId) (b : Decl), s.table[id]? = some b → ∀ i ∈ b.inner,
    ∃ v : Decl, s.table[i]? = some v ∧ v.isVar = true
  once : s.owned.Nodup

theorem nodup_owned {s : Shader} (htop : s.declarations.Nodup)
    (hinner : ∀ (id : DeclId) (b : Decl), s.table[id]? = some b → b.inner.Nodup)
    (hapart : ∀ (id : DeclId) (b : Decl), s.table[id]? = some b → ∀ i ∈ b.inner, i ∉ s.declarations)
    (hdisjoint : ∀ (id id' : DeclId) (b b' : Decl), s.table[id]? = some b → s.table[id']? = some b' →
      ∀ i ∈ b.inner, i ∈ b'.inner → id = id') : s.owned.Nodup := by
  refine nodup_append.mpr ⟨htop, nodup_flatMap.mpr ⟨fun b hb => ?_, ?_⟩, ?_⟩
  · obtain ⟨id, hid⟩ := mem_iff_getElem?.mp hb
    exact hinner id b (by simpa using hid)
  · refine pairwise_iff_getElem.mpr fun id id' hid hid' hlt i hi hi' => ?_
    refine absurd (hdisjoint id id' _ _ ?_ ?_ i hi hi') (Nat.ne_of_lt hlt)
    · rw [← Array.getElem?_toList, getElem?_eq_getElem hid]
    · rw [← Array.getElem?_toList, getElem?_eq_getElem hid']
  · rintro i hi _ hj rfl
    obtain ⟨b, hb, hib⟩ := mem_flatMap.mp hj
    obtain ⟨id, hid⟩ := mem_iff_getElem?.mp hb
    exact hapart id b (by simpa using hid) i hib hi

namespace WellFormed

variable {s : Shader} {id id' i : DeclId} {b b' : Decl}

theorem not_mem_declarations (h : s.WellFormed) (hb : s.table[id]? = some b) (hi : i ∈ b.inner) :
    i ∉ s.declarations := by
  intro htop
  have hmem : b ∈ s.table.toList := mem_of_getElem? (by simpa using hb)
  exact (nodup_append.mp h.once).2.2 i htop i (mem_flatMap.mpr ⟨b, hmem, hi⟩) rfl

theorem eq_of_mem_inner (h : s.WellFormed) (hb : s.table[id]? = some b) (hb' : s.table[id']? = some b')
    (hi : i ∈ b.inner) (hi' : i ∈ b'.inner) : id = id' := by
  have hpairs := pairwise_iff_getElem.mp (nodup_flatMap.mp (nodup_append.mp h.once).2.1).2
  rw [← Array.getElem?_toList] at hb hb'
  obtain ⟨hlt, rfl⟩ := List.getElem?_eq_some_iff.mp hb
  obtain ⟨hlt', rfl⟩ := List.getElem?_eq_some_iff.mp hb'
  rcases Nat.lt_trichotomy id id' with hless | heq | hmore
  · exact absurd hi' (hpairs id id' hlt hlt' hless hi)
  · exact heq
  · exact absurd hi (hpairs id' id hlt' hlt hmore hi')

end WellFormed

end Shader

namespace Mix

section

variable {builtins : List Module} {instances : List MixInstance}
  (hlog : (emit builtins instances).2.hasErrors = false)

include hlog

theorem declarations_lt_size {id : DeclId} (hid : id ∈ (emit builtins instances).1.declarations) :
    id < (emit builtins instances).1.table.size := by
  obtain ⟨-, more, hshader⟩ := emit_spec hlog
  rw [hshader] at hid ⊢
  simp only [Array.size_append, size_assemble]
  rcases mem_append.mp hid with hid | hid
  · exact (mem_range'_1.mp hid).2
  · obtain ⟨e, he, -⟩ := mem_idsAt.mp hid
    exact Nat.lt_of_lt_of_le (List.getElem?_eq_some_iff.mp he).1 (Nat.le_add_right ..)

theorem owner_cases {i : DeclId} (hi : i < (emit builtins instances).1.table.size) :
    i ∈ (emit builtins instances).1.declarations ∨ ∃ (id : DeclId) (b : Decl), id < ownCount builtins instances ∧
      (emit builtins instances).1.table[id]? = some b ∧ i ∈ b.inner := by
  by_cases hown : i < ownCount builtins instances
  · obtain ⟨e, he⟩ := (lt_ownCount_iff hlog).mp hown
    cases hhome : e.home with
    | none => exact .inl (mem_declarations_emit hlog he hhome)
    | some name =>
      obtain ⟨id, m, kind, hid, rfl⟩ := exists_home hlog (mem_of_getElem? he) hhome
      refine .inr ⟨id, _, (lt_ownCount_iff hlog).mpr ⟨_, hid⟩, getElem?_emit hlog hid, ?_⟩
      simpa [Decl.inner, Offer.kind_buffer] using mem_idsAt.mpr ⟨e, he, hhome⟩
  · -- the declarations of builtins follow those of the instances, and all of them stand at the top level
    left
    rw [ownCount_eq hlog] at hown
    obtain ⟨-, more, hshader⟩ := emit_spec hlog
    rw [hshader] at hi ⊢
    simp only [Array.size_append, size_assemble] at hi
    exact mem_append_left _ (mem_range'_1.mpr ⟨Nat.le_of_not_lt hown, hi⟩)

theorem wellFormed_emit (horderly : ∀ i ∈ instances, i.Orderly)
    (hbuiltins : ∀ (i : DeclId) (d : Decl), ownCount builtins instances ≤ i →
      (emit builtins instances).1.table[i]? = some d → d.inner = []) :
    (emit builtins instances).1.WellFormed := by
  have held := @entry_of_mem_inner builtins instances hlog horderly hbuiltins
  refine ⟨fun id hid => declarations_lt_size hlog hid, fun id b hb i hi => ?_, ?_⟩
  · obtain ⟨m, kind, e, -, he, hhome⟩ := held hb hi
    refine ⟨_, getElem?_emit hlog he, (Offer.placed_isVar (fits_of_entry horderly he)).mpr ?_⟩
    cases e with
    | «variable» m' home => exact ⟨m', home, rfl⟩
    | _ => cases hhome
  · refine Shader.nodup_owned (nodup_declarations_emit hlog) (fun id b hb => ?_) ?_ ?_
    · rcases inner_emit hlog horderly hbuiltins hb with hnil | ⟨o, -, hinner⟩
      · rw [hnil]
        exact nodup_nil
      · rw [hinner]
        exact Offer.nodup_held _ o
    · intro id b hb i hi htop
      obtain ⟨m, kind, e, -, he, hhome⟩ := held hb hi
      exact home_ne_of_mem_declarations hlog htop he hhome
    · intro id id' b b' hb hb' i hi hi'
      obtain ⟨m, kind, e, hbuffer, he, hhome⟩ := held hb hi
      obtain ⟨m', kind', e', hbuffer', he', hhome'⟩ := held hb' hi'
      cases he.symm.trans he'
      refine eq_of_key hbuffer hbuffer' (Reflects.key?_buffer m kind) ?_
      rw [Reflects.key?_buffer, Option.some.inj (hhome'.symm.trans hhome)]

theorem inner_eq_nil_of_wellFormed (h : (emit builtins instances).1.WellFormed) {id : DeclId} {d : Decl}
    (hid : ownCount builtins instances ≤ id) (hd : (emit builtins instances).1.table[id]? = some d) :
    d.inner = [] := by
  refine eq_nil_iff_forall_not_mem.mpr fun i hi => ?_
  obtain ⟨v, hv, -⟩ := h.members id d hd i hi
  rcases owner_cases hlog (Array.getElem?_eq_some_iff.mp hv).1 with htop | ⟨id', b, hown, hb, hi'⟩
  · exact h.not_mem_declarations hd hi htop
  · obtain rfl := h.eq_of_mem_inner hb hd hi' hi
    exact Nat.not_lt.mpr hid hown

end

end Mix

namespace Engine

open Mix

/-- Numbers are in order if and only if no builtin buffer with members is in use. -/
theorem mixed_wellFormed_iff {e : Engine} (h : e.Reachable) {r : Request} {macros : List MacroDef}
    {shader : Shader} {instances : List MixInstance}
    (hmix : ((e.loaded r macros).compose (e.contextOf r macros) r).1 = some shader)
    (his : (e.loaded r macros).instances (e.contextOf r macros) r = some instances) :
    shader.WellFormed ↔
      ∀ (i : DeclId) (d : Decl), ownCount e.builtins instances ≤ i → shader.table[i]? = some d →
        d.inner = [] := by
  obtain ⟨mixed, hmixed, hlog, rfl⟩ := compose_eq_some hmix
  cases his.symm.trans hmixed
  exact ⟨fun hformed _ _ hi hd => inner_eq_nil_of_wellFormed hlog hformed hi hd,
    wellFormed_emit hlog (h.orderly his)⟩

def roomEngine : Engine where
  library := {
    store := {
      inMemory :=
        [("Room", "shader Room { cbuffer Frame { float Gain; }; float Shade() { return Boost(Gain); } };")] } }

def roomEngineWith (builtin : String) : Engine := (roomEngine.addBuiltin builtin).toOption.getD roomEngine

def roomRequest : Request := .single ⟨"Room", []⟩

theorem roomEngineWith_reachable (builtin : String) : (roomEngineWith builtin).Reachable :=
  Reachable.addBuiltin_getD (.new _ {}) builtin

def boostMethod : String := "shader Lib { float Boost(float x) { return x * 2; } };"

theorem room_wellFormed : ∃ shader,
    (((roomEngineWith boostMethod).loaded roomRequest []).compose
      ((roomEngineWith boostMethod).contextOf roomRequest []) roomRequest).1 = some shader ∧
    shader.WellFormed ∧ shader.owned = [3, 0, 2, 1] := by
  have hroom : ((roomEngineWith boostMethod).mixesSorted roomRequest fun shader instances =>
      decide (shader.owned = [3, 0, 2, 1] ∧ shader.table.toList.map Decl.inner = [[1], [], [], []] ∧
        ownCount (roomEngineWith boostMethod).builtins instances = 3)) = true := by
    decide +kernel
  obtain ⟨shader, instances, hmix, his, hroom⟩ := mixes_of_sorted hroom
  obtain ⟨howned, hinners, hcount⟩ := of_decide_eq_true hroom
  refine ⟨shader, hmix, (mixed_wellFormed_iff (roomEngineWith_reachable _) hmix his).mpr ?_, howned⟩
  intro i d hi hd
  rw [hcount] at hi
  have hinner : (shader.table.toList.map Decl.inner)[i]? = some d.inner := by simp [hd]
  rw [hinners] at hinner
  obtain ⟨hlt, hget⟩ := List.getElem?_eq_some_iff.mp hinner
  obtain rfl : i = 3 := Nat.le_antisymm (Nat.le_of_lt_succ hlt) hi
  exact hget.symm

def boostBuffer : String := "shader Lib { int x; float y; cbuffer Boost { float z; }; };"

theorem builtin_buffer_owns_method : (roomEngineWith boostBuffer).Reachable ∧ ∃ shader,
    (((roomEngineWith boostBuffer).loaded roomRequest []).compose
      ((roomEngineWith boostBuffer).contextOf roomRequest []) roomRequest).1 = some shader ∧
    ¬ shader.WellFormed := by
  have howned : ((roomEngineWith boostBuffer).mixesSorted roomRequest fun shader _ =>
      decide (shader.owned = [3, 0, 2, 1, 2])) = true := by
    decide +kernel
  obtain ⟨shader, -, hmix, -, howned⟩ := mixes_of_sorted howned
  refine ⟨roomEngineWith_reachable _, shader, hmix, fun hformed => ?_⟩
  have honce := hformed.once
  rw [of_decide_eq_true howned] at honce
  exact absurd honce (by decide)

end Engine

end ShaderCompose
