import ShaderCompose.Proofs.Mix.Coverage

/-!
How the mixed shader lists its declarations.
-/

namespace ShaderCompose

open List

namespace Decl

variable {d : Decl}

theorem isVar_iff : d.isVar = true ↔ ∃ type semantic init, d.kind = .var type semantic init := by
  unfold isVar
  cases d.kind <;> simp

theorem isMethod_iff :
    d.isMethod = true ↔ ∃ returns params semantic body, d.kind = .method returns params semantic body := by
  unfold isMethod
  cases d.kind <;> simp

theorem isStruct_iff : d.isStruct = true ↔ ∃ fields, d.kind = .struct fields := by
  unfold isStruct
  cases d.kind <;> simp

end Decl

namespace Mix

def Offer.Fits : Offer → Prop
  | .variable m _ => m.decl.isVar = true
  | .method m => m.decl.isMethod = true
  | .struct m => m.decl.isStruct = true
  | .buffer m kind => ∃ ids, m.decl.kind = .buffer kind ids

section

variable {builtins : List Module} {instances : List MixInstance}

theorem fits_of_offered (horderly : ∀ i ∈ instances, i.Orderly) {o : Offer}
    (ho : o ∈ offersOf builtins instances) : o.Fits := by
  cases o with
  | «variable» m home =>
    obtain ⟨_, _, _, _, _, hd, -, rfl⟩ := (variable_mem_offersOf builtins horderly).mp ho
    exact (ShaderClass.mem_vars.mp hd.mem).2
  | method m =>
    obtain ⟨_, _, _, _, _, hd, rfl⟩ := (method_mem_offersOf builtins).mp ho
    exact (ShaderClass.mem_methods.mp hd.mem).2.2
  | struct m =>
    obtain ⟨m', -, hm⟩ := mem_offersOf.mp ho
    unfold Member.offers at hm
    split at hm
    · cases mem_singleton.mp hm
    · cases mem_singleton.mp hm
    · next fields hkind =>
      cases mem_singleton.mp hm
      simp [Offer.Fits, Decl.isStruct, hkind]
    · simp [Member.inner] at hm
  | buffer m kind =>
    obtain ⟨m', -, hm⟩ := mem_offersOf.mp ho
    unfold Member.offers at hm
    split at hm
    · cases mem_singleton.mp hm
    · cases mem_singleton.mp hm
    · cases mem_singleton.mp hm
    · next kind' ids hkind =>
      obtain ⟨rfl, rfl⟩ : m = m' ∧ kind = kind' := by simpa [Member.inner] using hm
      exact ⟨ids, hkind⟩

theorem fits_of_entry (horderly : ∀ i ∈ instances, i.Orderly) {i : DeclId} {e : Offer}
    (he : (entriesOf builtins instances)[i]? = some e) : e.Fits :=
  fits_of_offered horderly ((entries_sublist _).subset (mem_of_getElem? he))

namespace Offer

variable {o : Offer} {es : List Offer}

theorem made_quals (o : Offer) : o.made.quals = o.source.quals := by
  obtain ⟨attrs, kind, hmade, -⟩ := o.made_eq
  rw [hmade]

theorem made_sameShape (o : Offer) : o.source.kind.SameShape o.made.kind := by
  obtain ⟨attrs, kind, hmade, hshape⟩ := o.made_eq
  rw [hmade]
  exact hshape

variable {m : Member}

theorem isVar_variable (es : List Offer) (home : Option String) (h : m.decl.isVar = true) :
    ((Offer.variable m home).placed es).isVar = true :=
  (DeclKind.SameShape.isVar (made_sameShape _)).trans h

theorem isStream_variable (es : List Offer) (home : Option String)
    (h : m.decl.isVar = true) : ((Offer.variable m home).placed es).isStream = m.decl.isStream := by
  unfold Decl.isStream
  rw [isVar_variable es home h, h]
  exact congrArg _ (congrArg Qualifiers.stream (made_quals (.variable m home)))

theorem isMethod_method (es : List Offer) (h : m.decl.isMethod = true) :
    ((Offer.method m).placed es).isMethod = true :=
  (DeclKind.SameShape.isMethod (made_sameShape _)).trans h

theorem body?_method (m : Member) : ((Offer.method m).placed es).body?.isSome = m.decl.body?.isSome :=
  DeclKind.SameShape.body? (made_sameShape (.method m))

theorem isStruct_struct (es : List Offer) (h : m.decl.isStruct = true) :
    ((Offer.struct m).placed es).isStruct = true :=
  (DeclKind.SameShape.isStruct (made_sameShape _)).trans h

theorem kind_buffer (m : Member) (kind : BufferKind) :
    ((Offer.buffer m kind).placed es).kind = .buffer kind (idsAt es (some m.decl.name)) :=
  rfl

theorem placed_cases (h : o.Fits) (es : List Offer) :
    (∃ m home type semantic init, o = .variable m home ∧ (o.placed es).kind = .var type semantic init) ∨
    (∃ m type params semantic body, o = .method m ∧ (o.placed es).kind = .method type params semantic body) ∨
    (∃ m fields, o = .struct m ∧ (o.placed es).kind = .struct fields) ∨
    ∃ m kind, o = .buffer m kind ∧ (o.placed es).kind = .buffer kind (idsAt es (some m.decl.name)) := by
  cases o with
  | «variable» m home =>
    obtain ⟨type, semantic, init, hkind⟩ := Decl.isVar_iff.mp (isVar_variable es home h)
    exact .inl ⟨m, home, type, semantic, init, rfl, hkind⟩
  | method m =>
    obtain ⟨type, params, semantic, body, hkind⟩ := Decl.isMethod_iff.mp (isMethod_method es h)
    exact .inr (.inl ⟨m, type, params, semantic, body, rfl, hkind⟩)
  | struct m =>
    obtain ⟨fields, hkind⟩ := Decl.isStruct_iff.mp (isStruct_struct es h)
    exact .inr (.inr (.inl ⟨m, fields, rfl, hkind⟩))
  | buffer m kind => exact .inr (.inr (.inr ⟨m, kind, rfl, rfl⟩))

theorem placed_isVar (h : o.Fits) : (o.placed es).isVar = true ↔ ∃ m home, o = .variable m home := by
  rcases placed_cases h es with ⟨_, _, _, _, _, rfl, hkind⟩ | ⟨_, _, _, _, _, rfl, hkind⟩ | ⟨_, _, rfl, hkind⟩ |
    ⟨_, _, rfl, hkind⟩ <;> simp [Decl.isVar, hkind]

theorem placed_isMethod (h : o.Fits) : (o.placed es).isMethod = true ↔ ∃ m, o = .method m := by
  rcases placed_cases h es with ⟨_, _, _, _, _, rfl, hkind⟩ | ⟨_, _, _, _, _, rfl, hkind⟩ | ⟨_, _, rfl, hkind⟩ |
    ⟨_, _, rfl, hkind⟩ <;> simp [Decl.isMethod, hkind]

theorem placed_isStruct (h : o.Fits) : (o.placed es).isStruct = true ↔ ∃ m, o = .struct m := by
  rcases placed_cases h es with ⟨_, _, _, _, _, rfl, hkind⟩ | ⟨_, _, _, _, _, rfl, hkind⟩ | ⟨_, _, rfl, hkind⟩ |
    ⟨_, _, rfl, hkind⟩ <;> simp [Decl.isStruct, hkind]

theorem eq_buffer_of_placed (h : o.Fits) {kind : BufferKind} {members : List DeclId}
    (hplaced : (o.placed es).kind = .buffer kind members) :
    ∃ m, o = .buffer m kind ∧ members = idsAt es (some m.decl.name) := by
  rcases placed_cases h es with ⟨_, _, _, _, _, rfl, hkind⟩ | ⟨_, _, _, _, _, rfl, hkind⟩ | ⟨_, _, rfl, hkind⟩ |
    ⟨m, _, rfl, hkind⟩ <;> cases hkind.symm.trans hplaced
  exact ⟨m, rfl, rfl⟩

def held (es : List Offer) : Offer → List DeclId
  | .buffer m _ => idsAt es (some m.decl.name)
  | _ => []

theorem placed_inner (h : o.Fits) : (o.placed es).inner = o.held es := by
  rcases placed_cases h es with ⟨_, _, _, _, _, rfl, hkind⟩ | ⟨_, _, _, _, _, rfl, hkind⟩ | ⟨_, _, rfl, hkind⟩ |
    ⟨_, _, rfl, hkind⟩ <;> simp [Decl.inner, held, hkind]

theorem mem_held {i : DeclId} :
    i ∈ o.held es ↔ ∃ m kind e, o = .buffer m kind ∧ es[i]? = some e ∧ e.home = some m.decl.name := by
  cases o <;> simp [held, mem_idsAt]

theorem nodup_held (es : List Offer) (o : Offer) : (o.held es).Nodup := by
  cases o with
  | buffer m kind => exact nodup_idsAt es _
  | _ => exact nodup_nil

end Offer

/-! ## The declarations of the instances and those of builtins -/

def ownCount (builtins : List Module) (instances : List MixInstance) : Nat :=
  (emitInstances builtins instances).shader.table.size

section

variable (hlog : (emit builtins instances).2.hasErrors = false)

include hlog

theorem ownCount_eq : ownCount builtins instances = (entriesOf builtins instances).length := by
  rw [ownCount, (emit_spec hlog).1.shader, size_assemble]
  rfl

theorem lt_ownCount_iff {i : DeclId} :
    i < ownCount builtins instances ↔ ∃ e, (entriesOf builtins instances)[i]? = some e := by
  rw [ownCount_eq hlog, ← Option.isSome_iff_exists]
  simp

theorem mem_declarations_cases {i : DeclId} (hi : i ∈ (emit builtins instances).1.declarations) :
    (∃ e, (entriesOf builtins instances)[i]? = some e ∧ e.home = none) ∨
      ownCount builtins instances ≤ i := by
  obtain ⟨-, more, hshader⟩ := emit_spec hlog
  rw [hshader] at hi
  rcases mem_append.mp hi with hi | hi
  · right
    rw [ownCount_eq hlog]
    exact (mem_range'_1.mp hi).1
  · exact .inl (mem_idsAt.mp hi)

theorem nodup_declarations_emit : (emit builtins instances).1.declarations.Nodup := by
  obtain ⟨-, more, hshader⟩ := emit_spec hlog
  rw [hshader]
  refine nodup_append.mpr ⟨nodup_range', nodup_idsAt _ none, ?_⟩
  rintro a ha b hb rfl
  obtain ⟨e, he, -⟩ := mem_idsAt.mp hb
  have hlt := (List.getElem?_eq_some_iff.mp he).1
  exact absurd (mem_range'_1.mp ha).1 (Nat.not_le_of_lt hlt)

theorem inner_emit (horderly : ∀ i ∈ instances, i.Orderly) (hbuiltins : ∀ i d, ownCount builtins instances ≤ i →
      (emit builtins instances).1.table[i]? = some d → d.inner = [])
    {id : DeclId} {d : Decl} (hd : (emit builtins instances).1.table[id]? = some d) :
    d.inner = [] ∨ ∃ o, (entriesOf builtins instances)[id]? = some o ∧
      d.inner = o.held (entriesOf builtins instances) := by
  by_cases hown : ownCount builtins instances ≤ id
  · exact .inl (hbuiltins id d hown hd)
  · obtain ⟨o, ho⟩ := (lt_ownCount_iff hlog).mp (Nat.lt_of_not_le hown)
    cases (getElem?_emit hlog ho).symm.trans hd
    exact .inr ⟨o, ho, Offer.placed_inner (fits_of_entry horderly ho)⟩

theorem entry_of_mem_inner (horderly : ∀ i ∈ instances, i.Orderly)
    (hbuiltins : ∀ i d, ownCount builtins instances ≤ i →
      (emit builtins instances).1.table[i]? = some d → d.inner = [])
    {id i : DeclId} {d : Decl} (hd : (emit builtins instances).1.table[id]? = some d) (hi : i ∈ d.inner) :
    ∃ m kind e, (entriesOf builtins instances)[id]? = some (.buffer m kind) ∧
      (entriesOf builtins instances)[i]? = some e ∧ e.home = some m.decl.name := by
  rcases inner_emit hlog horderly hbuiltins hd with hnil | ⟨o, ho, hinner⟩
  · rw [hnil] at hi
    cases hi
  · rw [hinner] at hi
    obtain ⟨m, kind, e, rfl, he, hhome⟩ := Offer.mem_held.mp hi
    exact ⟨m, kind, e, ho, he, hhome⟩

theorem home_ne_of_mem_declarations {i : DeclId} {e : Offer} {name : String}
    (hi : i ∈ (emit builtins instances).1.declarations)
    (he : (entriesOf builtins instances)[i]? = some e) : e.home ≠ some name := by
  intro hhome
  rcases mem_declarations_cases hlog hi with ⟨e', he', hnone⟩ | hown
  · cases he.symm.trans he'
    cases hhome.symm.trans hnone
  · exact absurd hown (Nat.not_le_of_lt ((lt_ownCount_iff hlog).mpr ⟨e, he⟩))

theorem nodup_listed_emit (horderly : ∀ i ∈ instances, i.Orderly)
    (hbuiltins : ∀ i d, ownCount builtins instances ≤ i →
      (emit builtins instances).1.table[i]? = some d → d.inner = []) :
    (emit builtins instances).1.listed.Nodup := by
  refine nodup_flatMap.mpr ⟨fun ⟨id, d⟩ hid => ?_, ?_⟩
  · obtain ⟨hid, hd⟩ := Shader.mem_entries.mp hid
    refine nodup_append.mpr ⟨?_, nodup_singleton id, ?_⟩
    · rcases inner_emit hlog horderly hbuiltins hd with hnil | ⟨o, -, hinner⟩
      · rw [hnil]
        exact nodup_nil
      · rw [hinner]
        exact Offer.nodup_held _ o
    · intro i hi j hj hij
      obtain ⟨m, kind, e, -, he, hhome⟩ := entry_of_mem_inner hlog horderly hbuiltins hd hi
      rw [hij, mem_singleton.mp hj] at he
      exact home_ne_of_mem_declarations hlog hid he hhome
  · refine pairwise_filterMap.mpr ((nodup_declarations_emit hlog).imp_of_mem ?_)
    rintro a b ha hb hne _ hx _ hy i hi hi'
    obtain ⟨da, hda, rfl⟩ := Option.map_eq_some_iff.mp hx
    obtain ⟨db, hdb, rfl⟩ := Option.map_eq_some_iff.mp hy
    rcases mem_append.mp hi with hi | hi
    · obtain ⟨m, kind, e, hbuffer, he, hhome⟩ := entry_of_mem_inner hlog horderly hbuiltins hda hi
      rcases mem_append.mp hi' with hi' | hi'
      · obtain ⟨m', kind', e', hbuffer', he', hhome'⟩ := entry_of_mem_inner hlog horderly hbuiltins hdb hi'
        cases he.symm.trans he'
        refine hne (eq_of_key hbuffer hbuffer' (Reflects.key?_buffer m kind) ?_)
        rw [Reflects.key?_buffer, Option.some.inj (hhome'.symm.trans hhome)]
      · rw [mem_singleton.mp hi'] at he
        exact home_ne_of_mem_declarations hlog hb he hhome
    · rcases mem_append.mp hi' with hi' | hi'
      · obtain ⟨m, kind, e, -, he, hhome⟩ := entry_of_mem_inner hlog horderly hbuiltins hdb hi'
        rw [mem_singleton.mp hi] at he
        exact home_ne_of_mem_declarations hlog ha he hhome
      · exact hne ((mem_singleton.mp hi).symm.trans (mem_singleton.mp hi'))

end

end

end Mix

end ShaderCompose
