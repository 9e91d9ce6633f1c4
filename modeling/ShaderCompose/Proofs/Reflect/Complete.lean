import ShaderCompose.Proofs.Engine.WellFormed
import ShaderCompose.Proofs.Reflect.Packing

/-!
The reflection of a shader that links without errors.
-/

namespace ShaderCompose

open List

namespace Shader

/-! ## The parameters of a shader -/

variable {s : Shader} {ids : List DeclId}

theorem mem_having {p : Decl → Bool} {id : DeclId} :
    id ∈ s.having p ids ↔ id ∈ ids ∧ ∃ d, s.table[id]? = some d ∧ p d = true := by
  rw [having, mem_filter, Option.any_eq_true]

theorem isSome_of_mem_having {p : Decl → Bool} {id : DeclId} (h : id ∈ s.having p ids) :
    (s.table[id]?).isSome = true := by
  obtain ⟨-, d, hd, -⟩ := mem_having.mp h
  exact Option.isSome_of_eq_some hd

theorem forall₂_of_select {α : Type} {R : Decl → α → Prop} {as : List α}
    (hids : ∀ id ∈ ids, (s.table[id]?).isSome = true) (h : List.Forall₂ R (s.select ids) as) :
    List.Forall₂ (fun id a => ∃ d, s.table[id]? = some d ∧ R d a) ids as := by
  induction ids generalizing as with
  | nil =>
    cases h
    exact .nil
  | cons id ids ih =>
    obtain ⟨d, hd⟩ := Option.isSome_iff_exists.mp (hids id mem_cons_self)
    rw [select, filterMap_cons_some hd] at h
    cases h with
    | cons hda h => exact .cons ⟨d, hd, hda⟩ (ih (fun i hi => hids i (mem_cons_of_mem _ hi)) h)

theorem flatMap_buffers (s : Shader) : s.buffers.flatMap (·.2) = s.having Decl.isValue s.linkOrder := by
  have hloose : (if (s.having Decl.isValue s.declarations).isEmpty then []
      else [(Reflection.globalsName, s.having Decl.isValue s.declarations)]).flatMap (·.2) =
      s.having Decl.isValue s.declarations := by
    cases s.having Decl.isValue s.declarations <;> simp
  have hinner : ∀ ds : List Decl, ((ds.filter Decl.isBuffer).map fun d =>
      (d.name, s.having Decl.isValue d.inner)).flatMap (·.2) =
      s.having Decl.isValue (ds.flatMap Decl.inner) := by
    intro ds
    induction ds with
    | nil => rfl
    | cons d ds ih =>
      cases hd : d.isBuffer with
      | true =>
        rw [filter_cons_of_pos hd, map_cons, flatMap_cons, ih, flatMap_cons, having, having, having, filter_append]
      | false =>
        rw [filter_cons_of_neg (by simp [hd]), flatMap_cons, Decl.inner_eq_nil hd]
        exact ih
  rw [buffers, flatMap_append, hloose, hinner, linkOrder, having, having, having, filter_append]

theorem WellFormed.nodup_linkOrder (h : s.WellFormed) : s.linkOrder.Nodup := by
  have htop := (nodup_append.mp h.once).1
  have hinner := nodup_flatMap.mp (nodup_append.mp h.once).2.1
  refine nodup_append.mpr ⟨htop, ?_, ?_⟩
  · rw [decls, flatMap_map]
    refine nodup_flatMap.mpr ⟨fun e he => ?_, ?_⟩
    · have he := mem_entries.mp he
      exact hinner.1 e.2 (mem_of_getElem? (by simpa using he.2))
    · -- two entries have two numbers, and two constant buffers own nothing in common
      refine List.Pairwise.imp_of_mem (R := fun a b => a.1 ≠ b.1) ?_ ?_
      · intro a b ha hb hne i hia hib
        have ha := mem_entries.mp ha
        have hb := mem_entries.mp hb
        exact hne (h.eq_of_mem_inner ha.2 hb.2 hia hib)
      · refine List.Pairwise.filterMap _ (fun i j hij a ha b hb => ?_) htop
        obtain ⟨_, -, rfl⟩ := Option.map_eq_some_iff.mp ha
        obtain ⟨_, -, rfl⟩ := Option.map_eq_some_iff.mp hb
        exact hij
  · rintro i hi j hj rfl
    obtain ⟨b, hb, hib⟩ := mem_flatMap.mp hj
    obtain ⟨id, -, hid⟩ := mem_decls.mp hb
    exact h.not_mem_declarations hid hib hi

theorem WellFormed.parameters_once (h : s.WellFormed) : (s.resources ++ s.buffers.flatMap (·.2)).Nodup ∧ ∀ id,
      id ∈ s.resources ++ s.buffers.flatMap (·.2) ↔
        id ∈ s.listed ∧ ∃ d, s.table[id]? = some d ∧ d.isParameter = true := by
  rw [resources, flatMap_buffers]
  refine ⟨nodup_append.mpr ⟨h.nodup_linkOrder.filter _, h.nodup_linkOrder.filter _, ?_⟩, fun id => ?_⟩
  · rintro i hi j hj rfl
    obtain ⟨-, d, hd, hresource⟩ := mem_having.mp hi
    obtain ⟨-, d', hd', hvalue⟩ := mem_having.mp hj
    cases hd.symm.trans hd'
    simp [Decl.isValue, hresource] at hvalue
  · rw [mem_append, mem_having, mem_having]
    constructor
    · rintro (⟨hid, d, hd, hresource⟩ | ⟨hid, d, hd, hvalue⟩)
      · exact ⟨(mem_linkOrder hd).mp hid, d, hd, (Bool.and_eq_true_iff.mp hresource).1⟩
      · exact ⟨(mem_linkOrder hd).mp hid, d, hd, (Bool.and_eq_true_iff.mp hvalue).1⟩
    · rintro ⟨hid, d, hd, hparameter⟩
      have hid := (mem_linkOrder hd).mpr hid
      cases hresource : d.isResource with
      | true => exact .inl ⟨hid, d, hd, hresource⟩
      | false => exact .inr ⟨hid, d, hd, by simp [Decl.isValue, hparameter, hresource]⟩

end Shader

namespace Link

open Layout

/-- The parameters of a shader, each once and nothing else. -/
structure Complete (s : Shader) (r : Reflection) : Prop where
  once : (s.resources ++ s.buffers.flatMap (·.2)).Nodup
  parameters : ∀ id, id ∈ s.resources ++ s.buffers.flatMap (·.2) ↔
    id ∈ s.listed ∧ ∃ d, s.table[id]? = some d ∧ d.isParameter = true
  bindings : ∃ bound own, r.bindings = bound ++ own ∧
    List.Forall₂ (fun id b => ∃ d, s.table[id]? = some d ∧ Binds d b) s.resources bound ∧
    List.Forall₂ BindsBuffer r.buffers own
  buffers : List.Forall₂ (fun g b => b.name = g.1 ∧
      List.Forall₂ (fun id m => ∃ d, s.table[id]? = some d ∧ ∃ p, Describes (structsOf s) d (m, p))
        g.2 b.members) s.buffers r.buffers

/-- A shader whose numbers are in order and which links has a complete reflection. -/
theorem reflection_complete {s : Shader} (h : s.WellFormed) (hquiet : (link s).2.2.hasErrors = false) :
    Complete s (link s).2.1 := by
  obtain ⟨honce, hparameters⟩ := h.parameters_once
  obtain ⟨pending, t, hadds, hholds, hlink⟩ := link_adds s
  obtain ⟨hlog, cs, hbuffers, -, hall⟩ := bindBuffers_packs pending t
  rw [hlink] at hquiet ⊢
  obtain ⟨hpacks, own, hown, hbinds⟩ := hall hquiet
  have hquiet := Log.quiet_of_prefix hlog hquiet
  obtain ⟨bound, hbound, hresources⟩ := hadds.bindings hquiet
  have hcs : (pending.foldl bindBuffer t).reflection.buffers = cs := by
    rw [hbuffers, hadds.buffers]
    rfl
  refine ⟨honce, hparameters, ⟨bound, own, ?_, ?_, ?_⟩, ?_⟩
  · rw [hown, hbound]
    rfl
  · rw [← Shader.select_having] at hresources
    exact Shader.forall₂_of_select (fun _ => Shader.isSome_of_mem_having) hresources
  · rw [hcs]
    exact hbinds
  · rw [hcs]
    have hvalid : ∀ g ∈ s.buffers, ∀ id ∈ g.2, (s.table[id]?).isSome = true := by
      intro g hg id hid
      have hmem := List.mem_flatMap.mpr ⟨g, hg, hid⟩
      rw [Shader.flatMap_buffers] at hmem
      exact Shader.isSome_of_mem_having hmem
    have hsize : ∀ b ∈ pending, ∀ v ∈ b.values, v.1.size = v.2.size := by
      intro b hb v hv
      obtain ⟨d, -, hd⟩ := hadds.described v (List.mem_flatMap.mpr ⟨b, hb, hv⟩)
      exact hd.size
    have hboth := forall₂_comp (List.forall₂_map_left_iff.mp (hholds hquiet))
      ((List.forall₂_and_left pending cs).mpr ⟨hsize, hpacks⟩)
    refine ((List.forall₂_and_left s.buffers cs).mpr ⟨hvalid, hboth⟩).imp ?_
    rintro g c ⟨hids, b, ⟨hname, hvalues⟩, hsize, hname', stop, hpack, -⟩
    refine ⟨hname'.trans hname, Shader.forall₂_of_select hids ?_⟩
    refine (forall₂_comp hvalues (packFrom_row hsize hpack).moved).imp ?_
    rintro d m ⟨v, hdescribes, hmoved, -⟩
    rw [hmoved]
    exact ⟨v.2, hdescribes.move _⟩

theorem scene_complete : scene.WellFormed ∧ (link scene).2.2.hasErrors = false ∧
    Complete scene (link scene).2.1 := by
  have hmembers : ∀ b ∈ scene.table.toList, ∀ i ∈ b.inner, (scene.table[i]?).any Decl.isVar = true := by
    decide
  have hwell : scene.WellFormed := by
    refine ⟨by decide, fun id b hb i hi => ?_, by decide⟩
    have hb : b ∈ scene.table.toList := List.mem_of_getElem? (by simpa using hb)
    exact Option.any_eq_true _ _ |>.mp (hmembers b hb i hi)
  have hquiet : (link scene).2.2.hasErrors = false := by decide +kernel
  exact ⟨hwell, hquiet, reflection_complete hwell hquiet⟩

end Link

end ShaderCompose
