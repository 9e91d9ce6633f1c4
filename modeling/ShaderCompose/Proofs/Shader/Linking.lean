import ShaderCompose.Engine
import ShaderCompose.Proofs.Shader.Listed

/-!
From a mixed shader to a linked one.
-/

namespace ShaderCompose

open List

def Decl.isCallable (d : Decl) : Bool := d.isStruct || d.body?.isSome

structure Linking (Changes : Decl → Decl → Prop) (New : Decl → Prop) : Prop where
  refl : ∀ d, Changes d d
  trans : ∀ {a b c}, Changes a b → Changes b c → Changes a c
  callable : ∀ {d d'}, Changes d d' → d'.isCallable = d.isCallable
  kept : ∀ {d d'}, New d → Changes d d' → New d'
  plan : ∀ vars plan d, Changes d (Stream.planMethod vars plan d)
  retire : ∀ d, Changes d (Stream.retire d)
  clean : ∀ d, Changes d d.clean
  made : ∀ vars plan, ∀ d ∈ Stream.planStructs vars plan, New d

namespace Shader

structure Carries (Changes : Decl → Decl → Prop) (New : Decl → Prop) (s t : Shader) : Prop where
  table : ∀ (i : DeclId) (d : Decl), s.table[i]? = some d → ∃ d' : Decl, t.table[i]? = some d' ∧ Changes d d'
  added : ∀ (i : DeclId) (d' : Decl), s.table[i]? = none → t.table[i]? = some d' → New d'
  listed : ∀ id ∈ s.declarations, ∀ d : Decl, s.table[id]? = some d → d.isCallable = true → id ∈ t.declarations
  new : ∀ id ∈ t.declarations, id ∈ s.declarations ∨ s.table[id]? = none

namespace Carries

variable {Changes : Decl → Decl → Prop} {New : Decl → Prop} {s t u : Shader}

theorem refl (h : Linking Changes New) (s : Shader) : s.Carries Changes New s where
  table _ d hd := ⟨d, hd, h.refl d⟩
  added _ _ hnone hd := by cases hnone.symm.trans hd
  listed _ hid _ _ _ := hid
  new _ hid := .inl hid

theorem trans (hlinking : Linking Changes New) (h : s.Carries Changes New t) (h' : t.Carries Changes New u) :
    s.Carries Changes New u where
  table i d hd := by
    obtain ⟨d', hd', hchanges⟩ := h.table i d hd
    obtain ⟨d'', hd'', hchanges'⟩ := h'.table i d' hd'
    exact ⟨d'', hd'', hlinking.trans hchanges hchanges'⟩
  added i d'' hnone hd'' := by
    cases hd' : t.table[i]? with
    | none => exact h'.added i d'' hd' hd''
    | some d' =>
      obtain ⟨_, hsame, hchanges⟩ := h'.table i d' hd'
      cases hd''.symm.trans hsame
      exact hlinking.kept (h.added i d' hnone hd') hchanges
  listed id hid d hd hcallable := by
    obtain ⟨d', hd', hchanges⟩ := h.table id d hd
    exact h'.listed id (h.listed id hid d hd hcallable) d' hd' ((hlinking.callable hchanges).trans hcallable)
  new id hid := by
    rcases h'.new id hid with hid | hnone
    · exact h.new id hid
    · cases hd : s.table[id]? with
      | none => exact .inr rfl
      | some d =>
        obtain ⟨d', hd', -⟩ := h.table id d hd
        cases hnone.symm.trans hd'

theorem cases_table (h : s.Carries Changes New t) {i : DeclId} {d' : Decl} (hd' : t.table[i]? = some d') :
    (∃ d, s.table[i]? = some d ∧ Changes d d') ∨ s.table[i]? = none ∧ New d' := by
  cases hd : s.table[i]? with
  | none => exact .inr ⟨rfl, h.added i d' hd hd'⟩
  | some d =>
    obtain ⟨_, hsame, hchanges⟩ := h.table i d hd
    cases hd'.symm.trans hsame
    exact .inl ⟨d, rfl, hchanges⟩

theorem mem_decls (h : s.Carries Changes New t) {d : Decl} (hd : d ∈ s.decls) (hcallable : d.isCallable = true) :
    ∃ d' ∈ t.decls, Changes d d' := by
  obtain ⟨id, hid, hd⟩ := Shader.mem_decls.mp hd
  obtain ⟨d', hd', hchanges⟩ := h.table id d hd
  exact ⟨d', Shader.mem_decls.mpr ⟨id, h.listed id hid d hd hcallable, hd'⟩, hchanges⟩

theorem modify (h : Linking Changes New) (s : Shader) (id : DeclId) {f : Decl → Decl}
    (hf : ∀ d : Decl, Changes d (f d)) : s.Carries Changes New (s.modify id f) where
  table i d hd := by
    rw [Shader.modify, Array.getElem?_modify, hd]
    split
    · exact ⟨f d, rfl, hf d⟩
    · exact ⟨d, rfl, h.refl d⟩
  added i d' hnone hd' := by
    rw [Shader.modify, Array.getElem?_modify, hnone] at hd'
    split at hd' <;> cases hd'
  listed _ hid _ _ _ := hid
  new _ hid := .inl hid

theorem append (h : Linking Changes New) (s : Shader) {more : List Decl} {declarations : List DeclId}
    (hmore : ∀ d ∈ more, New d) (hsub : s.declarations ⊆ declarations)
    (hnew : ∀ id ∈ declarations, id ∈ s.declarations ∨ s.table.size ≤ id) :
    s.Carries Changes New ⟨s.table ++ more.toArray, declarations⟩ where
  table i d hd := by
    have hlt := (Array.getElem?_eq_some_iff.mp hd).1
    exact ⟨d, by rw [Array.getElem?_append_left hlt, hd], h.refl d⟩
  added i d' hnone hd' := by
    rw [Array.getElem?_append_right (Array.getElem?_eq_none_iff.mp hnone)] at hd'
    exact hmore d' (mem_of_getElem? (by simpa using hd'))
  listed _ hid _ _ _ := hsub hid
  new id hid := (hnew id hid).imp_right Array.getElem?_eq_none

end Carries

end Shader

namespace Linking

variable {Changes : Decl → Decl → Prop} {New : Decl → Prop}

/-! ## Entry points over their structures -/

theorem applyPlan (h : Linking Changes New) (vars : List Stream.StreamVar) (plan : Stream.EntryPlan) (s : Shader)
    (ids : List DeclId) :
    Shader.Carries Changes New ⟨s.table, ids ++ s.declarations⟩ ⟨(Stream.applyPlan vars (s, ids) plan).1.table,
        (Stream.applyPlan vars (s, ids) plan).2 ++ (Stream.applyPlan vars (s, ids) plan).1.declarations⟩ := by
  have hmade : Shader.Carries Changes New ⟨s.table, ids ++ s.declarations⟩
      ⟨s.table ++ (Stream.planStructs vars plan).toArray,
        (ids ++ List.range' s.table.size (Stream.planStructs vars plan).length) ++ s.declarations⟩ := by
    refine .append h _ (h.made vars plan) ?_ ?_
    · intro id hid
      simp only [mem_append] at hid ⊢
      exact hid.imp_left .inl
    · intro id hid
      simp only [mem_append, mem_range'_1] at hid ⊢
      rcases hid with (hid | hid) | hid
      · exact .inl (.inl hid)
      · exact .inr hid.1
      · exact .inl (.inr hid)
  unfold Stream.applyPlan
  dsimp only
  split
  · exact hmade.trans h (.modify h _ _ (h.plan vars plan))
  · exact hmade

theorem create (h : Linking Changes New) (s : Shader) (entries : EntryPoints) :
    s.Carries Changes New (Stream.create s entries).1 := by
  have hplans : ∀ (plans : List Stream.EntryPlan) (t : Shader) (ids : List DeclId),
      Shader.Carries Changes New ⟨t.table, ids ++ t.declarations⟩
        ⟨(plans.foldl (Stream.applyPlan (Stream.streamVars s)) (t, ids)).1.table,
          (plans.foldl (Stream.applyPlan (Stream.streamVars s)) (t, ids)).2 ++
            (plans.foldl (Stream.applyPlan (Stream.streamVars s)) (t, ids)).1.declarations⟩ := by
    intro plans
    induction plans with
    | nil => exact fun t ids => .refl h _
    | cons plan plans ih => exact fun t ids => (h.applyPlan _ plan t ids).trans h (ih _ _)
  have hretired : ∀ (ids : List DeclId) (t : Shader),
      t.Carries Changes New (ids.foldl (fun s id => s.modify id Stream.retire) t) := by
    intro ids
    induction ids with
    | nil => exact fun t => .refl h t
    | cons id ids ih => exact fun t => (Shader.Carries.modify h t id h.retire).trans h (ih _)
  exact (hplans _ s []).trans h (hretired _ _)

/-! ## Order and removal -/

theorem order (h : Linking Changes New) (s : Shader) : s.Carries Changes New s.order where
  table _ d hd := ⟨d, hd, h.refl d⟩
  added _ _ hnone hd := by cases hnone.symm.trans hd
  listed id hid d hd _ := by
    simp only [Shader.order, mem_append, mem_filter, hd, Option.any_some, hid]
    cases d.kind <;> simp [DeclKind.rank]
  new id hid := by
    simp only [Shader.order, mem_append, mem_filter, ← and_or_left] at hid
    exact .inl hid.1

theorem removal (h : Linking Changes New) (s : Shader) : s.Carries Changes New s.clean where
  table i d hd := ⟨d.clean, by simp [Shader.clean, hd], h.clean d⟩
  added i d' hnone hd' := by
    rw [Shader.clean, Array.getElem?_map, hnone] at hd'
    cases hd'
  listed id hid d hd hcallable := by
    refine mem_filter.mpr ⟨hid, ?_⟩
    unfold Decl.isCallable Decl.isStruct Decl.body? at hcallable
    unfold Decl.isBodiless Decl.isMethod Decl.body?
    cases hkind : d.kind <;> simp_all
  new id hid := .inl (mem_of_mem_filter hid)

end Linking

namespace Engine

variable {options : Options} {mixed shader : Shader} {outcome : Outcome}

theorem finish_eq_some (hstart : outcome.shader = none) (h : (finish options mixed outcome).shader = some shader) :
    shader = (Stream.create mixed mixed.entryPoints).1.order.clean ∧
      (finish options mixed outcome).entryPoints = mixed.entryPoints := by
  unfold finish at h ⊢
  dsimp only at h ⊢
  split at h
  · cases hstart.symm.trans h
  · next hmixed =>
    split at h
    · cases hstart.symm.trans h
    · next hcreated =>
      split at h
      · cases hstart.symm.trans h
      · next hlinked =>
        rw [if_neg hmixed, if_neg hcreated, if_neg hlinked]
        exact ⟨(Option.some.inj h).symm, rfl⟩

theorem finish_carries {Changes : Decl → Decl → Prop} {New : Decl → Prop} (hlinking : Linking Changes New)
    (hstart : outcome.shader = none) (h : (finish options mixed outcome).shader = some shader) :
    mixed.Carries Changes New shader := by
  rw [(finish_eq_some hstart h).1]
  exact ((hlinking.create mixed _).trans hlinking (hlinking.order _)).trans hlinking (hlinking.removal _)

end Engine

end ShaderCompose
