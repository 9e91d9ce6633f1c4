import ShaderCompose.Proofs.Mix.Offers

/-!
The shader that a list of entries makes up.
-/

namespace ShaderCompose.Mix

open List

def idsAt (es : List Offer) (home : Option String) : List DeclId :=
  es.zipIdx.filterMap fun (e, i) => if e.home = home then some i else none

def Offer.placed (es : List Offer) (e : Offer) : Decl :=
  match e with
  | .buffer m kind => { e.made with kind := .buffer kind (idsAt es (some m.decl.name)) }
  | e => e.made

def assemble (es : List Offer) : Shader where
  table := (es.map (Offer.placed es)).toArray
  declarations := idsAt es none

theorem idsAt_append_singleton (es : List Offer) (o : Offer) (home : Option String) :
    idsAt (es ++ [o]) home = idsAt es home ++ if o.home = home then [es.length] else [] := by
  simp only [idsAt, zipIdx_append]
  by_cases h : o.home = home <;> simp [h]

variable {es : List Offer} {o : Offer}

theorem mem_idsAt {home : Option String} {i : DeclId} : i ∈ idsAt es home ↔ ∃ e, es[i]? = some e ∧ e.home = home := by
  simp only [idsAt, mem_filterMap, Prod.exists, mk_mem_zipIdx_iff_getElem?]
  constructor
  · rintro ⟨e, j, he, hif⟩
    split at hif
    · next hhome =>
      cases hif
      exact ⟨e, he, hhome⟩
    · cases hif
  · rintro ⟨e, he, hhome⟩
    exact ⟨e, i, he, by simp [hhome]⟩

theorem nodup_idsAt (es : List Offer) (home : Option String) : (idsAt es home).Nodup := by
  induction es using List.reverseRecOn with
  | nil => exact nodup_nil
  | append_singleton es o ih =>
    rw [idsAt_append_singleton]
    split
    · refine nodup_append.mpr ⟨ih, nodup_singleton _, ?_⟩
      intro a ha b hb hab
      obtain ⟨e, he, -⟩ := mem_idsAt.mp ha
      have hlt := (List.getElem?_eq_some_iff.mp he).1
      rw [hab, mem_singleton.mp hb] at hlt
      exact Nat.lt_irrefl _ hlt
    · simpa using ih

@[simp] theorem size_assemble (es : List Offer) : (assemble es).table.size = es.length := by
  simp [assemble]

theorem getElem?_assemble (es : List Offer) (i : DeclId) :
    (assemble es).table[i]? = (es[i]?).map (Offer.placed es) := by
  simp [assemble]

theorem placed_append {e : Offer} (h : ∀ m kind, e = .buffer m kind → o.home ≠ some m.decl.name) :
    e.placed (es ++ [o]) = e.placed es := by
  cases e with
  | buffer m kind =>
    simp only [Offer.placed, idsAt_append_singleton, if_neg (h m kind rfl), append_nil]
  | _ => rfl

theorem placed_new (h : ∀ m kind, o = .buffer m kind → idsAt es (some m.decl.name) = []) :
    o.placed (es ++ [o]) = o.made := by
  cases o with
  | buffer m kind =>
    simp only [Offer.placed, idsAt_append_singleton, h m kind rfl]
    rfl
  | _ => rfl

theorem assemble_push (hhome : o.home = none)
    (hnew : ∀ m kind, o = .buffer m kind → idsAt es (some m.decl.name) = []) :
    assemble (es ++ [o]) =
      ⟨(assemble es).table.push o.made, (assemble es).declarations ++ [es.length]⟩ := by
  have htable : (es ++ [o]).map (Offer.placed (es ++ [o])) = es.map (Offer.placed es) ++ [o.made] := by
    rw [map_append, map_singleton, placed_new hnew]
    refine congrArg (· ++ _) (map_congr_left fun e _ => placed_append ?_)
    intro m kind _
    simp [hhome]
  simp only [assemble, htable, idsAt_append_singleton, hhome]
  simp

theorem assemble_pushMember {id : DeclId} {name : String} {m : Member} {kind : BufferKind}
    (hhome : o.home = some name) (hid : es[id]? = some (.buffer m kind)) (hname : m.decl.name = name)
    (hunique : ∀ i m' kind', es[i]? = some (.buffer m' kind') → m'.decl.name = name → i = id) :
    assemble (es ++ [o]) =
      (⟨(assemble es).table.push o.made, (assemble es).declarations⟩ : Shader).modify id fun b =>
        match b.kind with
        | .buffer kind members => { b with kind := .buffer kind (members ++ [es.length]) }
        | _ => b := by
  have hmade : o.placed (es ++ [o]) = o.made := by
    cases o with
    | buffer => cases hhome
    | _ => rfl
  have hlt : id < es.length := (List.getElem?_eq_some_iff.mp hid).1
  have htable : (assemble (es ++ [o])).table = ((assemble es).table.push o.made).modify id fun b =>
        match b.kind with
        | .buffer kind members => { b with kind := .buffer kind (members ++ [es.length]) }
        | _ => b := by
    refine Array.ext_getElem? fun i => ?_
    rw [getElem?_assemble, Array.getElem?_modify, Array.getElem?_push, size_assemble, getElem?_assemble]
    rcases Nat.lt_trichotomy i es.length with hi | rfl | hi
    · rw [getElem?_append_left hi, if_neg (Nat.ne_of_lt hi)]
      obtain ⟨e, he⟩ : ∃ e, es[i]? = some e := ⟨_, getElem?_eq_getElem hi⟩
      rw [he]
      by_cases hiid : id = i
      · subst hiid
        cases hid.symm.trans he
        simp [Offer.placed, idsAt_append_singleton, hhome, hname]
      · rw [if_neg hiid]
        refine congrArg some (placed_append fun m' kind' hm' hsame => hiid ?_)
        rw [hhome] at hsame
        exact (hunique i m' kind' (hm' ▸ he) (Option.some.inj hsame).symm).symm
    · rw [if_neg (Nat.ne_of_lt hlt)]
      simp [hmade]
    · rw [if_neg (Nat.ne_of_lt (Nat.lt_trans hlt hi)), if_neg (Nat.ne_of_gt hi)]
      rw [getElem?_eq_none (by simpa using Nat.succ_le_of_lt hi), getElem?_eq_none (Nat.le_of_lt hi)]
      rfl
  have hdecls : (assemble (es ++ [o])).declarations = (assemble es).declarations := by
    simp [assemble, idsAt_append_singleton, hhome]
  unfold Shader.modify
  rw [← htable, ← hdecls]

end ShaderCompose.Mix
