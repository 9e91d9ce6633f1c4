import ShaderCompose.Proofs.Mix.Assembly
import ShaderCompose.Proofs.Mix.Handling

/-!
The members of all instances make up the shader of what they offer.
-/

namespace ShaderCompose.Mix

open List

/-! ## What emission has come to -/

/-- Emission has handled these offers, and nothing was wrong. -/
structure Reflects (os : List Offer) (s : Emitting) : Prop where
  shader : s.shader = assemble (entries os)
  taken : ∀ k, s.taken k = true ↔ k ∈ keys (entries os)
  owner : ∀ name owner, s.shared.lookup name = some owner →
    ∃ e ∈ entries os, e.key? = some (.shared name) ∧ e.owner = owner
  buffers : ∀ name id, s.buffers.lookup name = some id →
    ∃ m kind, (entries os)[id]? = some (.buffer m kind) ∧ m.decl.name = name
  agree : ∀ o ∈ os, ∀ name, o.key? = some (.shared name) →
    ∃ e ∈ entries os, e.key? = some (.shared name) ∧ e.owner = o.owner
  complete : ∀ o ∈ os, o.isComplete = true
  quiet : ∀ e ∈ entries os, e.renamed.2.log.hasErrors = false
  homes : ∀ e ∈ entries os, ∀ name, e.home = some name → Key.buffer name ∈ keys (entries os)
  builtinIds : s.builtinIds = []
  log : s.log.hasErrors = false

namespace Reflects

variable {os : List Offer} {s : Emitting} {o : Offer}

theorem nil : Reflects [] {} where
  shader := by simp [assemble, idsAt]
  taken k := by cases k <;> simp [Emitting.taken, keys]
  owner name owner h := by cases h
  buffers name id h := by cases h
  agree o h := by cases h
  complete o h := by cases h
  quiet e h := by cases h
  homes e h := by cases h
  builtinIds := rfl
  log := rfl

theorem skip (h : Reflects os s) (hgrow : grow (entries os) o = entries os)
    (hagree : ∀ name, o.key? = some (.shared name) →
      ∃ e ∈ entries os, e.key? = some (.shared name) ∧ e.owner = o.owner)
    (hcomplete : o.isComplete = true) : Reflects (os ++ [o]) s := by
  have hentries : entries (os ++ [o]) = entries os := by rw [entries_append_singleton, hgrow]
  refine ⟨?_, ?_, ?_, ?_, ?_, ?_, ?_, ?_, h.builtinIds, h.log⟩
  · rw [hentries]
    exact h.shader
  · rw [hentries]
    exact h.taken
  · rw [hentries]
    exact h.owner
  · rw [hentries]
    exact h.buffers
  · rw [hentries]
    exact forall_mem_append.mpr ⟨h.agree, forall_mem_singleton.mpr hagree⟩
  · exact forall_mem_append.mpr ⟨h.complete, forall_mem_singleton.mpr hcomplete⟩
  · rw [hentries]
    exact h.quiet
  · rw [hentries]
    exact h.homes

theorem idsAt_eq_nil (h : Reflects os s) {name : String}
    (hfree : Key.buffer name ∉ keys (entries os)) : idsAt (entries os) (some name) = [] := by
  refine eq_nil_iff_forall_not_mem.mpr fun i hi => ?_
  obtain ⟨e, he, hhome⟩ := mem_idsAt.mp hi
  exact hfree (h.homes e (mem_of_getElem? he) name hhome)

theorem key?_buffer (m : Member) (kind : BufferKind) : (Offer.buffer m kind).key? = some (.buffer m.decl.name) := rfl

theorem accept_shader (h : Reflects os s) (hgrow : grow (entries os) o = entries os ++ [o])
    (hfree : ∀ k, o.key? = some k → k ∉ keys (entries os))
    (hhome : ∀ name, o.home = some name → Key.buffer name ∈ keys (entries os)) :
    (s.accept o).shader = assemble (grow (entries os) o) := by
  have hnote : (s.note o.owner o.key?).shader = s.shader := by
    rcases o.key? with _ | ⟨_ | _ | _ | _⟩ <;> rfl
  have hsize : s.shader.table.size = (entries os).length := by rw [h.shader, size_assemble]
  rw [hgrow]
  cases hcase : o.home with
  | none =>
    rw [assemble_push hcase ?_]
    · simp only [Emitting.accept, Emitting.homeId, hcase, Option.bind_none, Emitting.put,
        Emitting.push, Shader.alloc, Emitting.absorb_shader, hnote, hsize]
      rw [h.shader]
    · rintro m kind rfl
      exact h.idsAt_eq_nil (hfree _ rfl)
  | some name =>
    have htaken : s.taken (.buffer name) = true := (h.taken _).mpr (hhome name hcase)
    obtain ⟨id, hid⟩ := Option.isSome_iff_exists.mp htaken
    obtain ⟨m, kind, hbuffer, hname⟩ := h.buffers name id hid
    have hunique : ∀ i m' kind', (entries os)[i]? = some (.buffer m' kind') → m'.decl.name = name → i = id := by
      intro i m' kind' hi hm'
      refine eq_of_key hi hbuffer (key?_buffer m' kind') ?_
      rw [key?_buffer, hname, hm']
    rw [assemble_pushMember hcase hbuffer hname hunique]
    simp only [Emitting.accept, Emitting.homeId, hcase, Option.bind_some, hid, Emitting.put,
      Emitting.pushMember, Shader.alloc, Emitting.absorb_shader, hnote, hsize]
    exact h.shader ▸ rfl

theorem lookup_cons_ite {α : Type} (name other : String) (value : α) (ps : List (String × α)) :
    ((other, value) :: ps).lookup name = if other = name then some value else ps.lookup name := by
  rw [lookup_cons]
  by_cases h : other = name
  · simp [h]
  · rw [beq_false_of_ne (Ne.symm h), if_neg h]

theorem taken_note (s : Emitting) (owner : String × DeclId) (key : Option Key) (k : Key) :
    (s.note owner key).taken k = true ↔ key = some k ∨ s.taken k = true := by
  cases key with
  | none => simp [Emitting.note]
  | some key =>
    cases key <;> cases k <;> simp only [Emitting.note, Emitting.taken] <;> grind

theorem accept_taken (h : Reflects os s) (hgrow : grow (entries os) o = entries os ++ [o]) (k : Key) :
    (s.accept o).taken k = true ↔ k ∈ keys (grow (entries os) o) := by
  have hput : ∀ (t : Emitting) (buffer : Option DeclId) (d : Decl), (t.put buffer d).taken k = t.taken k := by
    intro t buffer d
    cases buffer <;> cases k <;> rfl
  have habsorb : ∀ (t : Emitting) (r : RenameState), (t.absorb r).taken k = t.taken k := by
    intro t r
    cases k <;> simp [Emitting.taken]
  have hone : k ∈ keys [o] ↔ o.key? = some k := by simp [keys]
  rw [Emitting.accept, hput, habsorb, taken_note, h.taken, hgrow, keys_append, mem_append, hone]
  exact or_comm

theorem accept_frame (s : Emitting) (o : Offer) : (s.accept o).shared = (s.note o.owner o.key?).shared ∧
      (s.accept o).buffers = (s.note o.owner o.key?).buffers ∧
      (s.accept o).builtinIds = s.builtinIds ∧ (s.accept o).log = s.log ++ o.renamed.2.log := by
  have hnote : (s.note o.owner o.key?).builtinIds = s.builtinIds ∧ (s.note o.owner o.key?).log = s.log := by
    rcases o.key? with _ | ⟨_ | _ | _ | _⟩ <;> exact ⟨rfl, rfl⟩
  unfold Emitting.accept
  cases s.homeId o.home <;> simp [Emitting.put, Emitting.push, Emitting.pushMember, hnote]

theorem accept_log (s : Emitting) (o : Offer) : (s.accept o).log = s.log ++ o.renamed.2.log :=
  (accept_frame s o).2.2.2

theorem shared_note (s : Emitting) (owner : String × DeclId) (key : Option Key) (name : String) :
    (s.note owner key).shared.lookup name =
      if key = some (.shared name) then some owner else s.shared.lookup name := by
  rcases key with _ | ⟨_ | _ | _ | _⟩ <;> simp [Emitting.note, lookup_cons_ite]

theorem buffers_note (s : Emitting) (owner : String × DeclId) (key : Option Key) (name : String) :
    (s.note owner key).buffers.lookup name =
      if key = some (.buffer name) then some s.shader.table.size else s.buffers.lookup name := by
  rcases key with _ | ⟨_ | _ | _ | _⟩ <;> simp [Emitting.note, lookup_cons_ite]

theorem accept (h : Reflects os s) (hname : o.name?.isSome = true) (hfree : ∀ k, o.key? = some k → s.taken k = false)
    (hhome : ∀ name, o.home = some name → Key.buffer name ∈ keys (entries os))
    (hcomplete : o.isComplete = true) (hlog : (s.accept o).log.hasErrors = false) :
    Reflects (os ++ [o]) (s.accept o) := by
  have hfree' : ∀ k, o.key? = some k → k ∉ keys (entries os) := by
    intro k hk hmem
    have := (h.taken k).mpr hmem
    rw [hfree k hk] at this
    cases this
  have hgrow : grow (entries os) o = entries os ++ [o] := by
    rcases grow_cases (entries os) o with ⟨hgrow, -⟩ | ⟨-, hnone | ⟨k, hk, hmem⟩⟩
    · exact hgrow
    · rw [hnone] at hname
      cases hname
    · exact absurd hmem (hfree' k hk)
  have hold : ∀ e ∈ entries os, e ∈ grow (entries os) o := fun e he => (prefix_grow _ _).subset he
  have hnew : o ∈ grow (entries os) o := by rw [hgrow]; simp
  have hkeys : ∀ k ∈ keys (entries os), k ∈ keys (grow (entries os) o) := fun k hk =>
    ((prefix_grow _ _).sublist.filterMap _).subset hk
  rw [accept_log, Log.hasErrors_append, Bool.or_eq_false_iff] at hlog
  refine ⟨?_, ?_, ?_, ?_, ?_, ?_, ?_, ?_, ?_, ?_⟩
  all_goals try rw [entries_append_singleton]
  · exact h.accept_shader hgrow hfree' hhome
  · exact h.accept_taken hgrow
  · intro name owner howner
    rw [(accept_frame s o).1, shared_note] at howner
    split_ifs at howner with hkey
    · exact ⟨o, hnew, hkey, Option.some.inj howner⟩
    · obtain ⟨e, he, hek⟩ := h.owner name owner howner
      exact ⟨e, hold e he, hek⟩
  · intro name id hid
    rw [(accept_frame s o).2.1, buffers_note] at hid
    split_ifs at hid with hkey
    · obtain ⟨m, kind, ho, hm⟩ := (Offer.key?_cases hkey).2
      refine ⟨m, kind, ?_, hm⟩
      rw [hgrow, ← Option.some.inj hid, h.shader, size_assemble, getElem?_concat_length, ho]
    · obtain ⟨m, kind, hget, hname⟩ := h.buffers name id hid
      refine ⟨m, kind, ?_, hname⟩
      rw [hgrow, getElem?_append_left (List.getElem?_eq_some_iff.mp hget).1]
      exact hget
  · refine forall_mem_append.mpr ⟨?_, forall_mem_singleton.mpr ?_⟩
    · intro other hother name hkey
      obtain ⟨e, he, hek⟩ := h.agree other hother name hkey
      exact ⟨e, hold e he, hek⟩
    · exact fun name hkey => ⟨o, hnew, hkey, rfl⟩
  · exact forall_mem_append.mpr ⟨h.complete, forall_mem_singleton.mpr hcomplete⟩
  · rw [hgrow]
    exact forall_mem_append.mpr ⟨h.quiet, forall_mem_singleton.mpr hlog.2⟩
  · intro e he name hehome
    refine hkeys _ ?_
    rw [hgrow] at he
    rcases mem_append.mp he with he | he
    · exact h.homes e he name hehome
    · rw [mem_singleton.mp he] at hehome
      exact hhome name hehome
  · exact (accept_frame s o).2.2.1.trans h.builtinIds
  · rw [accept_log, Log.hasErrors_append, hlog.1, hlog.2]
    rfl

theorem step (h : Reflects os s) (hhome : ∀ name, o.home = some name → Key.buffer name ∈ keys (entries os))
    (hlog : (emitOffer s o).log.hasErrors = false) : Reflects (os ++ [o]) (emitOffer s o) := by
  obtain ⟨hhandled, hcomplete⟩ := emitOffer_handled hlog
  generalize emitOffer s o = t at hhandled hlog
  cases hhandled with
  | taken hname hfree => exact h.accept hname hfree hhome hcomplete hlog
  | nothing hname =>
    refine h.skip ?_ ?_ hcomplete
    · simp [grow, hname]
    · simp [Offer.key?, hname]
  | @again k hname hkey htaken howner =>
    have hmem := (h.taken k).mp htaken
    refine h.skip ?_ ?_ hcomplete
    · simp [grow, hkey, hmem]
    · intro name hk
      cases hkey.symm.trans hk
      exact h.owner name o.owner (howner name rfl)

end Reflects

/-! ## The whole run -/

def Homed (os : List Offer) : Prop :=
  ∀ before o after, os = before ++ o :: after → ∀ name, o.home = some name →
    ∃ m kind, Offer.buffer m kind ∈ before ∧ m.decl.name = name

theorem Homed.nil : Homed [] := by
  intro before o after h
  cases before <;> cases h

theorem Homed.dropLast {os : List Offer} {o : Offer} (h : Homed (os ++ [o])) : Homed os := by
  intro before p after hos
  exact h before p (after ++ [o]) (by simp [hos])

theorem Homed.append {os ps : List Offer} (hos : Homed os) (hps : Homed ps) : Homed (os ++ ps) := by
  intro before o after h name hhome
  rcases append_eq_append_iff.mp h with ⟨more, hbefore, hsplit⟩ | ⟨more, hsplit, hafter⟩
  · obtain ⟨m, kind, hmem, hname⟩ := hps more o after hsplit name hhome
    exact ⟨m, kind, hbefore ▸ mem_append_right _ hmem, hname⟩
  · cases more with
    | nil =>
      obtain ⟨m, kind, hmem, -⟩ := hps [] o after hafter.symm name hhome
      cases hmem
    | cons first more =>
      obtain ⟨rfl, -⟩ := List.cons.inj hafter
      exact hos before o more hsplit name hhome

theorem Homed.flatMap {α : Type} {f : α → List Offer} (h : ∀ a, Homed (f a)) (as : List α) :
    Homed (as.flatMap f) := by
  induction as with
  | nil => exact .nil
  | cons a as ih =>
    exact (h a).append ih

theorem Member.homed_offers (m : Member) : Homed m.offers := by
  have single : ∀ o : Offer, o.home = none → Homed [o] := by
    intro o ho before o' after h name hhome
    obtain ⟨rfl, rfl, rfl⟩ : before = [] ∧ o' = o ∧ after = [] := by
      cases before with
      | nil => simpa [eq_comm] using h
      | cons => simp at h
    rw [ho] at hhome
    cases hhome
  unfold Member.offers
  cases m.decl.kind with
  | var => exact single _ rfl
  | method => exact single _ rfl
  | struct => exact single _ rfl
  | buffer kind ids =>
    intro before o after h name hhome
    cases before with
    | nil =>
      obtain ⟨rfl, -⟩ := List.cons.inj h
      cases hhome
    | cons first before =>
      obtain ⟨rfl, hrest⟩ := List.cons.inj h
      have ho : o ∈ m.inner ids := by
        rw [hrest]
        exact mem_append_right _ mem_cons_self
      obtain ⟨id, -, hmap⟩ := mem_filterMap.mp ho
      obtain ⟨d, -, rfl⟩ := Option.map_eq_some_iff.mp hmap
      exact ⟨m, kind, mem_cons_self, Option.some.inj hhome⟩

theorem homed_offersOf (builtins : List Module) (instances : List MixInstance) :
    Homed (offersOf builtins instances) :=
  .flatMap Member.homed_offers _

theorem Handled.log {s t : Emitting} {o : Offer} (h : Handled s o t)
    (hlog : t.log.hasErrors = false) : s.log.hasErrors = false := by
  cases h with
  | taken =>
    rw [Reflects.accept_log, Log.hasErrors_append, Bool.or_eq_false_iff] at hlog
    exact hlog.1
  | nothing => exact hlog
  | again => exact hlog

theorem foldl_emitOffer_reflects {os : List Offer} (hhomed : Homed os)
    (hlog : (os.foldl emitOffer {}).log.hasErrors = false) :
    Reflects os (os.foldl emitOffer {}) := by
  induction os using List.reverseRecOn with
  | nil => exact .nil
  | append_singleton os o ih =>
    rw [foldl_append] at hlog ⊢
    have hreflects := ih hhomed.dropLast ((emitOffer_handled hlog).1.log hlog)
    refine hreflects.step ?_ hlog
    intro name hhome
    obtain ⟨m, kind, hmem, rfl⟩ := hhomed os o [] rfl name hhome
    rcases mem_entries_of_offered hmem rfl with h | ⟨k, hk, h⟩
    · exact mem_keys.mpr ⟨_, h, rfl⟩
    · cases hk
      exact h

theorem emitInstances_reflects {builtins : List Module} {instances : List MixInstance}
    (hlog : (emitInstances builtins instances).log.hasErrors = false) :
    Reflects (offersOf builtins instances) (emitInstances builtins instances) := by
  rw [emitInstances_eq] at hlog ⊢
  exact foldl_emitOffer_reflects (homed_offersOf builtins instances) hlog

end ShaderCompose.Mix
