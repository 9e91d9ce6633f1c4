import Mathlib.Data.List.Basic
import ShaderCompose.Generic.Instance
import ShaderCompose.Library.Reach
import ShaderCompose.Proofs.Pairs

/-!
What an instance of a generic class refers to.
-/

namespace ShaderCompose

open List

namespace Substitution

variable (σ : Substitution)

theorem text_cases (name : String) : σ.text name = name ∨ ∃ e ∈ σ, σ.text name = e.2.text := by
  unfold text
  cases hlookup : σ.lookup name with
  | none => exact .inl rfl
  | some arg => exact .inr ⟨(name, arg), mem_of_lookup hlookup, rfl⟩

@[simp] theorem isComposition_decl (d : Decl) : (σ.decl d).isComposition = d.isComposition := by
  obtain ⟨name, loc, attrs, quals, entry, kind⟩ := d
  cases kind <;> rfl

@[simp] theorem varType?_decl (d : Decl) : (σ.decl d).varType? = d.varType?.map σ.type := by
  obtain ⟨name, loc, attrs, quals, entry, kind⟩ := d
  cases kind <;> rfl

end Substitution

namespace ShaderClass

variable {c : ShaderClass} {args : List String} {fill : Bool}

theorem mem_slotTypes {t : TypeRef} :
    t ∈ c.slotTypes ↔ ∃ d ∈ c.table.toList, d.isComposition = true ∧ d.varType? = some t := by
  have hdecl : ∀ d, d ∈ c.vars.map (·.2) ↔ d ∈ c.table.toList ∧ d.isVar = true := by
    intro d
    simp only [vars, entries, mem_map, mem_filter, Prod.exists, exists_eq_right]
    constructor
    · rintro ⟨i, ⟨d', j, hmem, heq⟩, hvar⟩
      cases heq
      exact ⟨fst_mem_of_mem_zipIdx hmem, hvar⟩
    · rintro ⟨hmem, hvar⟩
      obtain ⟨i, hi⟩ := mem_iff_getElem?.mp hmem
      exact ⟨i, ⟨d, i, mk_mem_zipIdx_iff_getElem?.mpr hi, rfl⟩, hvar⟩
  simp only [slotTypes, mem_filterMap, hdecl]
  constructor
  · rintro ⟨d, ⟨hmem, -⟩, hd⟩
    split at hd
    · next hcomp => exact ⟨d, hmem, hcomp, hd⟩
    · cases hd
  · rintro ⟨d, hmem, hcomp, htype⟩
    have hvar : d.isVar = true := by
      rw [Decl.isComposition, Bool.and_eq_true] at hcomp
      exact hcomp.1
    exact ⟨d, ⟨hmem, hvar⟩, by rw [if_pos hcomp, htype]⟩

def InstanceWord (args : List String) (r : ClassRef) (w : String) : Prop :=
  w ∈ r.words ∨ w ∈ args ∨ w = "0" ∨ w = "false"

theorem bindArgs_eq_ok {σ : Substitution} : c.bindArgs args = .ok σ ↔ List.Forall₂
      (fun p e => ∃ value, Reader.expression? p.2 = some value ∧ e = (p.1.name, ⟨p.2, value⟩))
      (c.generics.zip args) σ := by
  have bound : ∀ (p : GenericParam × String) (e : String × GenericArg), p.1.bind c.name p.2 = .ok e ↔
      ∃ value, Reader.expression? p.2 = some value ∧ e = (p.1.name, ⟨p.2, value⟩) := by
    intro p e
    unfold GenericParam.bind
    cases Reader.expression? p.2 <;> simp [eq_comm]
  simp only [← bound]
  exact mapM_eq_ok

theorem bindArgs_text {given : List String} {σ : Substitution} (hargs : c.completeArgs given fill = .ok args)
    (hσ : c.bindArgs args = .ok σ) :
    ∀ e ∈ σ, e.2.text ∈ given ∨ e.2.text = "0" ∨ e.2.text = "false" := by
  have complete : ∀ w ∈ args, w ∈ given ∨ w = "0" ∨ w = "false" := by
    unfold completeArgs at hargs
    split at hargs
    · cases hargs
      exact fun w hw => .inl hw
    · split at hargs
      · cases hargs
        intro w hw
        rcases mem_append.mp hw with hw | hw
        · exact .inl hw
        · obtain ⟨g, -, rfl⟩ := mem_map.mp hw
          unfold GenericParam.defaultText
          split
          · exact .inr (.inr rfl)
          · exact .inr (.inl rfl)
      · cases hargs
  intro e he
  obtain ⟨p, hp, value, -, rfl⟩ := mem_right_of_forall₂ (bindArgs_eq_ok.mp hσ) he
  exact complete _ (of_mem_zip hp).2

theorem instantiate_cases {made : ShaderClass} (h : c.instantiate args fill = .ok made) :
    (args = [] ∧ made = c) ∨ ∃ complete σ, c.completeArgs args fill = .ok complete ∧ c.bindArgs complete = .ok σ ∧
      made = { c with name := instanceName c.name complete, generics := [],
                      bases := c.bases.map σ.base, table := c.table.map σ.decl } := by
  unfold instantiate at h
  split at h
  · cases h
  · split at h
    · next hempty =>
      cases h
      simp only [Bool.and_eq_true, List.isEmpty_iff] at hempty
      exact .inl ⟨hempty.2, rfl⟩
    · cases hargs : c.completeArgs args fill with
      | error m =>
        rw [hargs] at h
        cases h
      | ok complete =>
        rw [hargs] at h
        cases hσ : c.bindArgs complete with
        | error m =>
          simp only [bind, Except.bind, hσ] at h
          cases h
        | ok σ =>
          simp only [bind, Except.bind, hσ] at h
          cases h
          exact .inr ⟨complete, σ, rfl, hσ, rfl⟩

theorem instantiate_references {made : ShaderClass} (h : c.instantiate args fill = .ok made) {r : ClassRef}
    (hr : r ∈ made.references) :
    ∃ r₀ ∈ c.references, r.generics.length = r₀.generics.length ∧
      ∀ w ∈ r.words, InstanceWord args r₀ w := by
  rcases instantiate_cases h with ⟨-, rfl⟩ | ⟨complete, σ, hargs, hσ, rfl⟩
  · exact ⟨r, hr, rfl, fun w hw => .inl hw⟩
  · have htext := bindArgs_text hargs hσ
    have word : ∀ {r₀ : ClassRef} {w : String}, w ∈ r₀.words → InstanceWord args r₀ (σ.text w) := by
      intro r₀ w hw
      rcases σ.text_cases w with hsame | ⟨e, he, hsame⟩
      · exact .inl (hsame.symm ▸ hw)
      · exact .inr (hsame ▸ htext e he)
    rcases mem_append.mp hr with hr | hr
    · obtain ⟨_, hbase, rfl⟩ := mem_map.mp hr
      obtain ⟨b, hb, rfl⟩ := mem_map.mp hbase
      refine ⟨⟨b.name, b.args⟩, mem_append_left _ (mem_map_of_mem hb), by simp [Substitution.base], fun w hw => ?_⟩
      rcases mem_cons.mp hw with rfl | hw
      · exact .inl mem_cons_self
      · obtain ⟨v, hv, rfl⟩ := mem_map.mp hw
        exact word (mem_cons_of_mem _ hv)
    · obtain ⟨_, hslot, rfl⟩ := mem_map.mp hr
      obtain ⟨_, hmade, hcomp, hvar⟩ := mem_slotTypes.mp hslot
      rw [Array.toList_map] at hmade
      obtain ⟨d, hd, rfl⟩ := mem_map.mp hmade
      rw [Substitution.isComposition_decl] at hcomp
      rw [Substitution.varType?_decl] at hvar
      obtain ⟨t, htype, rfl⟩ := Option.map_eq_some_iff.mp hvar
      have ht := mem_slotTypes.mpr ⟨d, hd, hcomp, htype⟩
      refine ⟨⟨t.name, t.template⟩, mem_append_right _ (mem_map_of_mem ht),
        by simp [Substitution.type], fun w hw => ?_⟩
      rcases mem_cons.mp hw with rfl | hw
      · exact word mem_cons_self
      · obtain ⟨v, hv, rfl⟩ := mem_map.mp hw
        exact word (mem_cons_of_mem _ hv)

end ShaderClass

end ShaderCompose
