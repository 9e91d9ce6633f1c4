import Mathlib.Data.List.Perm.Subperm
import ShaderCompose.Proofs.Mix.Coverage
import ShaderCompose.Proofs.Mix.Calls

/-!
The builtins in use.
-/

namespace ShaderCompose.Mix

open List

section

variable {builtins : List Module} {name : String} {m : Module} {id : DeclId} {ref : BuiltinRef}

theorem builtinMember?_eq_some (h : builtinMember? builtins name = some (m, id)) :
    m ∈ builtins ∧ ∃ d, (id, d) ∈ m.cls.memberDecls ∧ d.name = name := by
  obtain ⟨x, hx, hfound⟩ := exists_of_findSome?_eq_some h
  obtain ⟨⟨i, d⟩, hd, hsame⟩ := Option.map_eq_some_iff.mp hfound
  cases hsame
  exact ⟨hx, d, mem_of_find?_eq_some hd, by simpa using find?_some hd⟩

def refKey (ref : BuiltinRef) : Nat × DeclId := (ref.1.id, ref.2)

def builtinKeys (builtins : List Module) : List (Nat × DeclId) :=
  builtins.flatMap fun m => m.cls.members.map fun id => (m.id, id)

theorem length_builtinKeys (builtins : List Module) : (builtinKeys builtins).length = builtinCount builtins := by
  simp [builtinKeys, builtinCount]

theorem IsBuiltin.mem_keys (h : IsBuiltin builtins ref) : refKey ref ∈ builtinKeys builtins := by
  obtain ⟨name, h⟩ := h
  obtain ⟨hm, d, hd, -⟩ := builtinMember?_eq_some h
  exact mem_flatMap.mpr ⟨ref.1, hm, mem_map.mpr ⟨ref.2, (ShaderClass.mem_memberDecls.mp hd).1, rfl⟩⟩

end

/-! ## Waiting builtins -/

/-- The builtins in use, of which so many are declared. -/
structure Queue (builtins : List Module) (refs : List BuiltinRef) (done : Nat) (s : Emitting) : Prop where
  keys : s.builtins = (refs.map refKey).reverse
  waiting : s.waiting = refs.drop done
  nodup : (refs.map refKey).Nodup
  known : ∀ ref ∈ refs, IsBuiltin builtins ref
  le : done ≤ refs.length

namespace Queue

variable {builtins : List Module} {refs : List BuiltinRef} {done : Nat} {s t : Emitting}

theorem congr (h : Queue builtins refs done s) (hkeys : t.builtins = s.builtins)
    (hwaiting : t.waiting = s.waiting) : Queue builtins refs done t :=
  ⟨hkeys.trans h.keys, hwaiting.trans h.waiting, h.nodup, h.known, h.le⟩

theorem length_le (h : Queue builtins refs done s) : refs.length ≤ builtinCount builtins := by
  have hsub : refs.map refKey ⊆ builtinKeys builtins := by
    intro key hkey
    obtain ⟨ref, href, rfl⟩ := mem_map.mp hkey
    exact (h.known ref href).mem_keys
  have hle := (subperm_of_subset h.nodup hsub).length_le
  rwa [length_map, length_builtinKeys] at hle

theorem use (h : Queue builtins refs done s) {ref : BuiltinRef} (href : IsBuiltin builtins ref) :
    ∃ refs', refs <+: refs' ∧ refKey ref ∈ refs'.map refKey ∧ Queue builtins refs' done (s.use ref) := by
  unfold Emitting.use
  by_cases hknown : s.builtins.contains (ref.1.id, ref.2) = true
  · rw [if_pos hknown]
    refine ⟨refs, prefix_refl _, ?_, h⟩
    rw [contains_iff_mem, h.keys, mem_reverse] at hknown
    exact hknown
  · rw [if_neg hknown]
    rw [contains_iff_mem, h.keys, mem_reverse] at hknown
    refine ⟨refs ++ [ref], prefix_append _ _, by simp, ?_, ?_, ?_, ?_, ?_⟩
    · simp [h.keys, refKey]
    · simp [h.waiting, drop_append_of_le_length h.le]
    · rw [map_append]
      refine nodup_append.mpr ⟨h.nodup, by simp, fun a ha b hb hab => hknown ?_⟩
      rw [hab, mem_singleton.mp hb] at ha
      exact ha
    · exact forall_mem_append.mpr ⟨h.known, forall_mem_singleton.mpr href⟩
    · have hle := h.le
      rw [length_append]
      omega

theorem foldl_use (h : Queue builtins refs done s) {more : List BuiltinRef}
    (hmore : ∀ ref ∈ more, IsBuiltin builtins ref) :
    ∃ refs', refs <+: refs' ∧ (∀ ref ∈ more, refKey ref ∈ refs'.map refKey) ∧
      Queue builtins refs' done (more.foldl Emitting.use s) := by
  induction more generalizing refs s with
  | nil => exact ⟨refs, prefix_refl _, forall_mem_nil _, h⟩
  | cons ref more ih =>
    obtain ⟨href, hmore⟩ := forall_mem_cons.mp hmore
    obtain ⟨refs₁, hgrows, hmem, h₁⟩ := h.use href
    obtain ⟨refs₂, hgrows', hall, h₂⟩ := ih h₁ hmore
    refine ⟨refs₂, hgrows.trans hgrows', forall_mem_cons.mpr ⟨?_, hall⟩, h₂⟩
    exact (hgrows'.map refKey).subset hmem

theorem absorb (h : Queue builtins refs done s) {r : RenameState} (hr : ∀ ref ∈ r.builtins, IsBuiltin builtins ref) :
    ∃ refs', refs <+: refs' ∧ (∀ ref ∈ r.builtins, refKey ref ∈ refs'.map refKey) ∧
      Queue builtins refs' done (s.absorb r) :=
  (h.congr (t := { s with log := s.log ++ r.log }) rfl rfl).foldl_use hr

end Queue

/-! ## Members of instances -/

theorem builtins_startState (d : Decl) : (startState d).builtins = [] := by
  have hparams : ∀ (params : List Param) (s : RenameState),
      (params.foldl (fun s p => s.declare p.name .plain) s).builtins = s.builtins := by
    intro params
    induction params with
    | nil => exact fun _ => rfl
    | cons p params ih =>
      intro s
      rw [foldl_cons, ih]
      rfl
  exact hparams _ _

variable {o : Offer} {builtins : List Module}

theorem Offer.notes (h : o.member.env.builtins = builtins) :
    ∀ ref ∈ o.renamed.2.builtins, IsBuiltin builtins ref := by
  subst h
  intro ref href
  cases o with
  | «variable» m home =>
    exact ((decl_notes m.env _).new ref href).resolve_left not_mem_nil
  | method m =>
    refine ((decl_notes m.env _).new ref href).resolve_left ?_
    rw [builtins_startState]
    exact not_mem_nil
  | struct m => cases href
  | buffer m kind => cases href

theorem Queue.accept {refs : List BuiltinRef} {done : Nat} {s : Emitting} (h : Queue builtins refs done s)
    (ho : o.member.env.builtins = builtins) :
    ∃ refs', refs <+: refs' ∧ (∀ ref ∈ o.renamed.2.builtins, refKey ref ∈ refs'.map refKey) ∧
      Queue builtins refs' done (s.accept o) := by
  have hnote : Queue builtins refs done (s.note o.owner o.key?) := by
    rcases o.key? with _ | ⟨_ | _ | _ | _⟩ <;> exact h.congr rfl rfl
  obtain ⟨refs', hgrows, hall, h'⟩ := hnote.absorb (Offer.notes ho)
  refine ⟨refs', hgrows, hall, ?_⟩
  unfold Emitting.accept
  cases s.homeId o.home <;> exact h'.congr rfl rfl

theorem foldl_emitOffer_queue {os : List Offer} (hhomed : Homed os)
    (hbuiltins : ∀ o ∈ os, o.member.env.builtins = builtins)
    (hlog : (os.foldl emitOffer {}).log.hasErrors = false) :
    ∃ refs, Queue builtins refs 0 (os.foldl emitOffer {}) ∧
      ∀ e ∈ entries os, ∀ ref ∈ e.renamed.2.builtins, refKey ref ∈ refs.map refKey := by
  induction os using List.reverseRecOn with
  | nil =>
    refine ⟨[], ⟨rfl, rfl, nodup_nil, forall_mem_nil _, Nat.le_refl 0⟩, ?_⟩
    exact forall_mem_nil _
  | append_singleton os o ih =>
    obtain ⟨hold, hnew⟩ := forall_mem_append.mp hbuiltins
    rw [foldl_append, foldl_cons] at hlog ⊢
    have hhandled := (emitOffer_handled hlog).1
    have hquiet := hhandled.log hlog
    obtain ⟨refs, hqueue, hnoted⟩ := ih hhomed.dropLast hold hquiet
    have hreflects := foldl_emitOffer_reflects hhomed.dropLast hquiet
    rw [entries_append_singleton]
    generalize emitOffer (os.foldl emitOffer {}) o = t at hhandled hlog ⊢
    cases hhandled with
    | taken hname hfree =>
      obtain ⟨refs', hgrows, hall, hqueue'⟩ := hqueue.accept (hnew o (mem_singleton_self o))
      refine ⟨refs', hqueue', fun e he ref href => ?_⟩
      have hcases : e ∈ entries os ∨ e = o := by
        rcases grow_cases (entries os) o with ⟨hgrow, -⟩ | ⟨hgrow, -⟩
        · rw [hgrow] at he
          simpa using he
        · rw [hgrow] at he
          exact .inl he
      rcases hcases with he | rfl
      · exact (hgrows.map refKey).subset (hnoted e he ref href)
      · exact hall ref href
    | nothing hname =>
      have hgrow : grow (entries os) o = entries os := by simp [grow, hname]
      rw [hgrow]
      exact ⟨refs, hqueue, hnoted⟩
    | @again k hname hkey htaken howner =>
      have hmem := (hreflects.taken k).mp htaken
      have hgrow : grow (entries os) o = entries os := by simp [grow, hkey, hmem]
      rw [hgrow]
      exact ⟨refs, hqueue, hnoted⟩

/-! ## The whole shader -/

def builtinDecl? (env : RenameEnv) (ref : BuiltinRef) : Option Decl :=
  (ref.1.cls.table[ref.2]?).map fun d => ((env.decl d).run {}).1

def Emitting.addBuiltin (s : Emitting) (d : Decl) : Emitting :=
  { s with
    shader := { s.shader with table := s.shader.table.push d }
    builtinIds := s.builtinIds ++ [s.shader.table.size] }

def UsesNoted (env : RenameEnv) (refs : List BuiltinRef) (ref : BuiltinRef) : Prop :=
  ∀ d, ref.1.cls.table[ref.2]? = some d → ∀ used ∈ ((env.decl d).run {}).2.builtins, refKey used ∈ refs.map refKey

theorem emitBuiltins_declares (env : RenameEnv) (fuel : Nat) {refs : List BuiltinRef} {done : Nat}
    {s : Emitting} (h : Queue env.builtins refs done s) (hfuel : builtinCount env.builtins ≤ fuel + done) :
    ∃ refs', refs <+: refs' ∧ (∀ ref ∈ refs', IsBuiltin env.builtins ref) ∧
      s.Extends (emitBuiltins env fuel s) ((refs'.drop done).filterMap (builtinDecl? env)) ∧
      ∀ ref ∈ refs'.drop done, UsesNoted env refs' ref := by
  have stop : ∀ {s : Emitting} {refs : List BuiltinRef} {done : Nat}, Queue env.builtins refs done s →
      refs.drop done = [] → ∃ refs', refs <+: refs' ∧ (∀ ref ∈ refs', IsBuiltin env.builtins ref) ∧
        s.Extends s ((refs'.drop done).filterMap (builtinDecl? env)) ∧
        ∀ ref ∈ refs'.drop done, UsesNoted env refs' ref := by
    intro s refs done h hnone
    refine ⟨refs, prefix_refl _, h.known, ?_, ?_⟩
    · rw [hnone]
      exact ⟨by simp, rfl, by simp, prefix_refl _⟩
    · rw [hnone]
      exact forall_mem_nil _
  induction fuel generalizing refs done s with
  | zero =>
    refine stop h (drop_eq_nil_of_le ?_)
    have hle := h.length_le
    omega
  | succ fuel ih =>
    rw [emitBuiltins]
    cases hwaiting : s.waiting with
    | nil =>
      rw [h.waiting] at hwaiting
      exact stop h hwaiting
    | cons ref rest =>
      obtain ⟨m, id⟩ := ref
      have hdrop : refs.drop done = (m, id) :: rest := by rw [← h.waiting, hwaiting]
      have hlt : done < refs.length := by
        by_contra hge
        rw [drop_eq_nil_of_le (Nat.le_of_not_lt hge)] at hdrop
        cases hdrop
      have hrest : refs.drop (done + 1) = rest := by
        rw [← drop_drop, hdrop]
        rfl
      have hnext : Queue env.builtins refs (done + 1) { s with waiting := rest } :=
        ⟨h.keys, hrest.symm, h.nodup, h.known, hlt⟩
      have hfuel' : builtinCount env.builtins ≤ fuel + (done + 1) := by omega
      have hfirst : ∀ {refs' : List BuiltinRef}, refs <+: refs' →
          refs'.drop done = (m, id) :: refs'.drop (done + 1) := by
        rintro _ ⟨more, rfl⟩
        have hle : done + 1 ≤ refs.length := hlt
        rw [drop_append_of_le_length (Nat.le_of_lt hlt), drop_append_of_le_length hle, hdrop, hrest]
        rfl
      dsimp only
      cases hd : m.cls.table[id]? with
      | none =>
        obtain ⟨refs', hgrows, hknown, hextends, huses⟩ := ih hnext hfuel'
        refine ⟨refs', hgrows, hknown, ?_, ?_⟩
        · rw [hfirst hgrows, filterMap_cons_none (by simp [builtinDecl?, hd])]
          exact ⟨hextends.table, hextends.declarations, hextends.builtinIds, hextends.log⟩
        · rw [hfirst hgrows]
          refine forall_mem_cons.mpr ⟨fun d hd' => ?_, huses⟩
          cases hd.symm.trans hd'
      | some d =>
        have hnotes : ∀ used ∈ ((env.decl d).run {}).2.builtins, IsBuiltin env.builtins used :=
          fun used hused => ((decl_notes env d).new used hused).resolve_left not_mem_nil
        have hmade : builtinDecl? env (m, id) = some ((env.decl d).run {}).1 := by
          simp [builtinDecl?, hd]
        obtain ⟨refs₁, hgrows₁, hused, hqueue₁⟩ := hnext.absorb hnotes
        have hadded : Queue env.builtins refs₁ (done + 1)
            ((({ s with waiting := rest } : Emitting).absorb ((env.decl d).run {}).2).addBuiltin
              ((env.decl d).run {}).1) := hqueue₁.congr rfl rfl
        obtain ⟨refs', hgrows, hknown, hextends, huses⟩ := ih hadded hfuel'
        have hgrows' := hgrows₁.trans hgrows
        refine ⟨refs', hgrows', hknown, ?_, ?_⟩
        · rw [hfirst hgrows', filterMap_cons_some hmade]
          refine ⟨hextends.table.trans ?_, hextends.declarations.trans ?_, hextends.builtinIds.trans ?_,
            List.IsPrefix.trans ?_ hextends.log⟩
          · simp [Emitting.addBuiltin]
          · simp [Emitting.addBuiltin]
          · simp [Emitting.addBuiltin, range'_succ]
          · simp [Emitting.addBuiltin]
        · rw [hfirst hgrows']
          refine forall_mem_cons.mpr ⟨fun d' hd' => ?_, huses⟩
          cases hd.symm.trans hd'
          exact fun used hmem => (hgrows.map refKey).subset (hused used hmem)

def builtinEnv (builtins : List Module) (instances : List MixInstance) : RenameEnv :=
  ⟨builtins, instances, none⟩

/-- The instances and all builtins in use are declared. -/
structure Mixes (builtins : List Module) (instances : List MixInstance) (refs : List BuiltinRef) :
    Prop where
  known : ∀ ref ∈ refs, IsBuiltin builtins ref
  decls : ∀ d, d ∈ (emit builtins instances).1.decls ↔
    (∃ ref ∈ refs, builtinDecl? (builtinEnv builtins instances) ref = some d) ∨
      ∃ e ∈ entriesOf builtins instances, e.home = none ∧ d = e.placed (entriesOf builtins instances)
  entries : ∀ e ∈ entriesOf builtins instances, ∀ ref ∈ e.renamed.2.builtins, refKey ref ∈ refs.map refKey
  builtins : ∀ ref ∈ refs, UsesNoted (builtinEnv builtins instances) refs ref

theorem Member.env_of_mem_offers {m : Member} (h : o ∈ m.offers) : o.member.env = m.env := by
  unfold Member.offers at h
  split at h
  · rw [mem_singleton.mp h]
    rfl
  · rw [mem_singleton.mp h]
    rfl
  · rw [mem_singleton.mp h]
    rfl
  · rcases mem_cons.mp h with rfl | h
    · rfl
    · obtain ⟨id, -, hd⟩ := mem_filterMap.mp h
      obtain ⟨d, -, rfl⟩ := Option.map_eq_some_iff.mp hd
      rfl

theorem mem_decls_append {table : Array Decl} {more : List Decl} {ids : List DeclId} {size : Nat}
    (hsize : table.size = size) (hids : ∀ id ∈ ids, id < size) {d : Decl} :
    d ∈ (⟨table ++ more.toArray, List.range' size more.length ++ ids⟩ : Shader).decls ↔
      d ∈ more ∨ d ∈ (⟨table, ids⟩ : Shader).decls := by
  subst hsize
  simp only [Shader.mem_decls, mem_append, or_and_right, exists_or]
  refine or_congr ?_ (exists_congr fun id => and_congr_right fun hid => ?_)
  · constructor
    · rintro ⟨id, hid, hd⟩
      rw [Array.getElem?_append_right (mem_range'_1.mp hid).1] at hd
      exact mem_of_getElem? (by simpa using hd)
    · intro hd
      obtain ⟨i, hi⟩ := mem_iff_getElem?.mp hd
      have hlt := (List.getElem?_eq_some_iff.mp hi).1
      refine ⟨table.size + i, mem_range'_1.mpr ⟨Nat.le_add_right _ _, by omega⟩, ?_⟩
      rw [Array.getElem?_append_right (Nat.le_add_right _ _)]
      simpa using hi
  · rw [Array.getElem?_append_left (hids id hid)]

theorem mem_decls_assemble {es : List Offer} {d : Decl} :
    d ∈ (assemble es).decls ↔ ∃ e ∈ es, e.home = none ∧ d = e.placed es := by
  simp only [Shader.mem_decls, getElem?_assemble, Option.map_eq_some_iff]
  constructor
  · rintro ⟨id, hid, e, he, rfl⟩
    obtain ⟨e', he', hhome⟩ := mem_idsAt.mp hid
    cases he.symm.trans he'
    exact ⟨e, mem_of_getElem? he, hhome, rfl⟩
  · rintro ⟨e, he, hhome, rfl⟩
    obtain ⟨id, hid⟩ := mem_iff_getElem?.mp he
    exact ⟨id, mem_idsAt.mpr ⟨e, hid, hhome⟩, e, hid, rfl⟩

theorem emit_mixes {instances : List MixInstance} (hlog : (emit builtins instances).2.hasErrors = false) :
    ∃ refs, Mixes builtins instances refs := by
  obtain ⟨hreflects, -⟩ := emit_spec hlog
  have hown : ∀ o ∈ offersOf builtins instances, o.member.env.builtins = builtins := by
    intro o ho
    obtain ⟨m, hm, ho⟩ := mem_offersOf.mp ho
    obtain ⟨number, inst, cls, ref, d, -, -, -, rfl⟩ := mem_membersOf.mp hm
    rw [Member.env_of_mem_offers ho]
    rfl
  have hquiet := hreflects.log
  rw [emitInstances_eq] at hquiet
  obtain ⟨refs, hqueue, hentries⟩ := foldl_emitOffer_queue (homed_offersOf builtins instances) hown hquiet
  rw [← emitInstances_eq] at hqueue
  obtain ⟨refs', hgrows, hknown, hextends, huses⟩ := emitBuiltins_declares
    (builtinEnv builtins instances) (builtinCount builtins) hqueue (Nat.le_refl _)
  refine ⟨refs', hknown, fun d => ?_, fun e he ref href => ?_, huses⟩
  · have hshader : (emit builtins instances).1 = ⟨(assemble (entriesOf builtins instances)).table ++
            (refs'.filterMap (builtinDecl? (builtinEnv builtins instances))).toArray,
          List.range' (entriesOf builtins instances).length
              (refs'.filterMap (builtinDecl? (builtinEnv builtins instances))).length ++
            (assemble (entriesOf builtins instances)).declarations⟩ := by
      have htable := hextends.table
      have hdeclarations := hextends.declarations
      have hids := hextends.builtinIds
      rw [hreflects.shader] at htable hdeclarations hids
      rw [hreflects.builtinIds, size_assemble] at hids
      have hemit : (emit builtins instances).1 = ⟨(emitBuiltins (builtinEnv builtins instances)
          (builtinCount builtins) (emitInstances builtins instances)).shader.table, (emitBuiltins
            (builtinEnv builtins instances) (builtinCount builtins)
            (emitInstances builtins instances)).builtinIds ++ (emitBuiltins
              (builtinEnv builtins instances) (builtinCount builtins)
              (emitInstances builtins instances)).shader.declarations⟩ := rfl
      rw [hemit, htable, hids, hdeclarations]
      rfl
    rw [hshader, mem_decls_append (size_assemble _), mem_filterMap]
    · exact or_congr Iff.rfl mem_decls_assemble
    · intro id hid
      obtain ⟨e, he, -⟩ := mem_idsAt.mp hid
      exact (List.getElem?_eq_some_iff.mp he).1
  · exact (hgrows.map refKey).subset (hentries e he ref href)

end ShaderCompose.Mix
