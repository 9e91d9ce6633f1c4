import ShaderCompose.Proofs.Mix.Emission

/-!
The mixed shader.
-/

namespace ShaderCompose

open List

namespace Mix

structure Emitting.Extends (s t : Emitting) (more : List Decl) : Prop where
  table : t.shader.table = s.shader.table ++ more.toArray
  declarations : t.shader.declarations = s.shader.declarations
  builtinIds : t.builtinIds = s.builtinIds ++ List.range' s.shader.table.size more.length
  log : s.log <+: t.log

theorem emitBuiltins_extends (env : RenameEnv) (fuel : Nat) (s : Emitting) :
    ∃ more, s.Extends (emitBuiltins env fuel s) more := by
  induction fuel generalizing s with
  | zero => exact ⟨[], ⟨by simp [emitBuiltins], rfl, by simp [emitBuiltins], prefix_refl _⟩⟩
  | succ fuel ih =>
    rw [emitBuiltins]
    cases hwaiting : s.waiting with
    | nil => exact ⟨[], ⟨by simp, rfl, by simp, prefix_refl _⟩⟩
    | cons ref rest =>
      obtain ⟨m, id⟩ := ref
      dsimp only
      cases hd : m.cls.table[id]? with
      | none =>
        obtain ⟨more, h⟩ := ih { s with waiting := rest }
        exact ⟨more, ⟨h.table, h.declarations, h.builtinIds, h.log⟩⟩
      | some d =>
        dsimp only
        rw [Emitting.rename_eq]
        generalize (env.decl d).run {} = renamed
        dsimp only [Shader.alloc]
        obtain ⟨more, h⟩ := ih _
        refine ⟨renamed.1 :: more, ⟨?_, ?_, ?_, ?_⟩⟩
        · rw [h.table]
          simp
        · rw [h.declarations]
          simp
        · rw [h.builtinIds]
          simp [range'_succ]
        · refine List.IsPrefix.trans ?_ h.log
          simp

theorem emit_spec {builtins : List Module} {instances : List MixInstance}
    (hlog : (emit builtins instances).2.hasErrors = false) :
    Reflects (offersOf builtins instances) (emitInstances builtins instances) ∧
      ∃ more : List Decl, (emit builtins instances).1 =
        ⟨(assemble (entries (offersOf builtins instances))).table ++ more.toArray,
          List.range' (entries (offersOf builtins instances)).length more.length ++
            (assemble (entries (offersOf builtins instances))).declarations⟩ := by
  obtain ⟨more, h⟩ := emitBuiltins_extends ⟨builtins, instances, none⟩ (builtinCount builtins)
    (emitInstances builtins instances)
  have hown : (emitInstances builtins instances).log.hasErrors = false := by
    obtain ⟨rest, hrest⟩ := h.log
    have hlog' : (emitBuiltins ⟨builtins, instances, none⟩ (builtinCount builtins)
        (emitInstances builtins instances)).log.hasErrors = false := hlog
    rw [← hrest, Log.hasErrors_append, Bool.or_eq_false_iff] at hlog'
    exact hlog'.1
  have hreflects := emitInstances_reflects hown
  refine ⟨hreflects, more, ?_⟩
  have hshader := hreflects.shader
  simp only [emit, h.table, h.declarations, h.builtinIds, hreflects.builtinIds, hshader, size_assemble, nil_append]

/-! ## Entries as declarations -/

section

variable {builtins : List Module} {instances : List MixInstance}

def entriesOf (builtins : List Module) (instances : List MixInstance) : List Offer :=
  entries (offersOf builtins instances)

variable {i : DeclId} {e : Offer}

theorem getElem?_emit (hlog : (emit builtins instances).2.hasErrors = false)
    (he : (entriesOf builtins instances)[i]? = some e) :
    (emit builtins instances).1.table[i]? = some (e.placed (entriesOf builtins instances)) := by
  obtain ⟨-, more, hshader⟩ := emit_spec hlog
  have hlt := (List.getElem?_eq_some_iff.mp he).1
  have hlt' : i < (assemble (entriesOf builtins instances)).table.size := by simpa using hlt
  rw [hshader]
  refine (Array.getElem?_append_left hlt').trans ?_
  rw [getElem?_assemble, he]
  rfl

theorem mem_declarations_emit (hlog : (emit builtins instances).2.hasErrors = false)
    (he : (entriesOf builtins instances)[i]? = some e) (hhome : e.home = none) :
    i ∈ (emit builtins instances).1.declarations := by
  obtain ⟨-, more, hshader⟩ := emit_spec hlog
  rw [hshader]
  exact mem_append_right _ (mem_idsAt.mpr ⟨e, he, hhome⟩)

theorem exists_home (hlog : (emit builtins instances).2.hasErrors = false)
    (he : e ∈ entriesOf builtins instances) {name : String} (hhome : e.home = some name) :
    ∃ (id : DeclId) (m : Member) (kind : BufferKind),
      (entriesOf builtins instances)[id]? = some (.buffer m kind) ∧ m.decl.name = name := by
  obtain ⟨hreflects, -⟩ := emit_spec hlog
  obtain ⟨b, hb, hkey⟩ := mem_keys.mp (hreflects.homes e he name hhome)
  obtain ⟨m, kind, rfl, hname⟩ := (Offer.key?_cases hkey).2
  obtain ⟨id, hid⟩ := mem_iff_getElem?.mp hb
  exact ⟨id, m, kind, hid, hname⟩

theorem mem_listed_emit (hlog : (emit builtins instances).2.hasErrors = false)
    (he : (entriesOf builtins instances)[i]? = some e) :
    i ∈ (emit builtins instances).1.listed := by
  rw [Shader.mem_listed]
  cases hhome : e.home with
  | none => exact ⟨i, _, mem_declarations_emit hlog he hhome, getElem?_emit hlog he, .inr rfl⟩
  | some name =>
    obtain ⟨id, m, kind, hid, rfl⟩ := exists_home hlog (mem_of_getElem? he) hhome
    refine ⟨id, _, mem_declarations_emit hlog hid rfl, getElem?_emit hlog hid, .inl ?_⟩
    exact mem_idsAt.mpr ⟨e, he, hhome⟩

theorem placed_mem_declared (hlog : (emit builtins instances).2.hasErrors = false)
    (he : e ∈ entriesOf builtins instances) :
    e.placed (entriesOf builtins instances) ∈ (emit builtins instances).1.declared := by
  obtain ⟨i, hi⟩ := mem_iff_getElem?.mp he
  exact Shader.mem_declared.mpr ⟨i, mem_listed_emit hlog hi, getElem?_emit hlog hi⟩

end

end Mix

theorem mix_eq_some {c : Context} {filled : Composition} {root : Module} {shader : Shader}
    (h : (mix c filled root).1 = some shader) :
    ∃ instances, (Mix.instancesOf c filled root).1 = some instances ∧
      (Mix.instancesOf c filled root).2.hasErrors = false ∧
      (Mix.emit c.builtins instances).2.hasErrors = false ∧
      shader = (Mix.emit c.builtins instances).1 := by
  unfold mix at h
  generalize Mix.instancesOf c filled root = one at h ⊢
  obtain ⟨instances, log⟩ := one
  cases instances with
  | none => cases h
  | some instances =>
    dsimp only at h ⊢
    split at h
    · cases h
    · next hfirst =>
      split at h
      · cases h
      · next hboth =>
        rw [Log.hasErrors_append, Bool.not_eq_true, Bool.or_eq_false_iff] at hboth
        exact ⟨instances, rfl, hboth.1, hboth.2, (Option.some.inj h).symm⟩

end ShaderCompose
