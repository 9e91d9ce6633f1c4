import ShaderCompose.Proofs.Mix.Offers

/-!
Emission handles one offer after another (`emitInstances_eq`).
-/

namespace ShaderCompose.Mix

open List

namespace Emitting

def absorb (s : Emitting) (t : RenameState) : Emitting :=
  t.builtins.foldl use { s with log := s.log ++ t.log }

theorem rename_eq (s : Emitting) (env : RenameEnv) (d : Decl) (start : RenameState) :
    s.rename env d start = (((env.decl d).run start).1, s.absorb ((env.decl d).run start).2) := rfl

theorem foldl_use (refs : List BuiltinRef) (s : Emitting) :
    ∃ builtins waiting, refs.foldl use s = { s with builtins, waiting } := by
  induction refs generalizing s with
  | nil => exact ⟨s.builtins, s.waiting, rfl⟩
  | cons ref refs ih =>
    obtain ⟨builtins, waiting, h⟩ := ih (s.use ref)
    refine ⟨builtins, waiting, ?_⟩
    rw [foldl_cons, h]
    unfold use
    dsimp only
    split <;> rfl

@[simp] theorem absorb_nothing (s : Emitting) : s.absorb {} = s := by simp [absorb]

section

variable (s : Emitting) (t : RenameState)

theorem absorb_eq : ∃ builtins waiting, s.absorb t = { s with log := s.log ++ t.log, builtins, waiting } :=
  foldl_use t.builtins { s with log := s.log ++ t.log }

@[simp] theorem absorb_shader : (s.absorb t).shader = s.shader := by
  obtain ⟨_, _, h⟩ := s.absorb_eq t
  rw [h]

@[simp] theorem absorb_buffers : (s.absorb t).buffers = s.buffers := by
  obtain ⟨_, _, h⟩ := s.absorb_eq t
  rw [h]

@[simp] theorem absorb_structs : (s.absorb t).structs = s.structs := by
  obtain ⟨_, _, h⟩ := s.absorb_eq t
  rw [h]

@[simp] theorem absorb_streams : (s.absorb t).streams = s.streams := by
  obtain ⟨_, _, h⟩ := s.absorb_eq t
  rw [h]

@[simp] theorem absorb_shared : (s.absorb t).shared = s.shared := by
  obtain ⟨_, _, h⟩ := s.absorb_eq t
  rw [h]

@[simp] theorem absorb_builtinIds : (s.absorb t).builtinIds = s.builtinIds := by
  obtain ⟨_, _, h⟩ := s.absorb_eq t
  rw [h]

@[simp] theorem absorb_log : (s.absorb t).log = s.log ++ t.log := by
  obtain ⟨_, _, h⟩ := s.absorb_eq t
  rw [h]

end

def put (s : Emitting) (buffer : Option DeclId) (d : Decl) : Emitting :=
  match buffer with
  | some buffer => s.pushMember buffer d
  | none => (s.push d).2

def taken (s : Emitting) : Key → Bool
  | .stream name => s.streams.contains name
  | .shared name => (s.shared.lookup name).isSome
  | .struct name => s.structs.contains name
  | .buffer name => (s.buffers.lookup name).isSome

def note (s : Emitting) (owner : String × DeclId) : Option Key → Emitting
  | none => s
  | some (.stream name) => { s with streams := name :: s.streams }
  | some (.shared name) => { s with shared := (name, owner) :: s.shared }
  | some (.struct name) => { s with structs := name :: s.structs }
  | some (.buffer name) => { s with buffers := (name, s.shader.table.size) :: s.buffers }

def homeId (s : Emitting) (home : Option String) : Option DeclId :=
  home.bind fun name => s.buffers.lookup name

def accept (s : Emitting) (o : Offer) : Emitting :=
  ((s.note o.owner o.key?).absorb o.renamed.2).put (s.homeId o.home) o.made

end Emitting

def emitOffer (s : Emitting) : Offer → Emitting
  | .variable m home => emitVariable s m (s.homeId home)
  | .method m => emitMethod s m
  | .struct m =>
    if s.structs.contains m.decl.name then s
    else ({ s with structs := m.decl.name :: s.structs }.push m.decl).2
  | .buffer m kind => (bufferFor s m.decl kind).2

/-- What becomes of an offer if nothing is wrong. -/
inductive Handled (s : Emitting) (o : Offer) : Emitting → Prop
  | taken : o.name?.isSome = true → (∀ k, o.key? = some k → s.taken k = false) → Handled s o (s.accept o)
  | nothing : o.name? = none → Handled s o s
  | again {k : Key} : o.name?.isSome = true → o.key? = some k → s.taken k = true →
      (∀ name, k = .shared name → s.shared.lookup name = some o.owner) → Handled s o s

variable (s : Emitting)

theorem declareVariable_eq (env : RenameEnv) (buffer : Option DeclId) (d : Decl) :
    declareVariable s env buffer d =
      (s.absorb ((env.decl d).run {}).2).put buffer ((env.decl d).run {}).1 := by
  cases buffer <;> rfl

theorem not_hasErrors_report {s : Emitting} {loc : Span} {message : Message} :
    ¬ (s.report loc message).log.hasErrors = false := by
  simp [Emitting.report, Log.hasErrors, Diagnostic.errorAt]

theorem claim_cases (name : String) (cls : ShaderClass) (id : DeclId) (loc : Span) :
    (s.shared.lookup name = none ∧ s.claim name cls id loc = (true, s.note (cls.name, id) (some (.shared name)))) ∨
      (s.shared.lookup name = some (cls.name, id) ∧ s.claim name cls id loc = (false, s)) ∨
      s.claim name cls id loc = (false, s.report loc (.duplicateStageMember name)) := by
  unfold Emitting.claim
  cases hlookup : s.shared.lookup name with
  | none => exact .inl ⟨rfl, rfl⟩
  | some owner =>
    dsimp only
    by_cases howner : owner = (cls.name, id)
    · rw [if_pos howner, howner]
      exact .inr (.inl ⟨rfl, rfl⟩)
    · rw [if_neg howner]
      exact .inr (.inr rfl)

theorem emitVariable_handled {s : Emitting} {m : Member} {home : Option String}
    (h : (emitVariable s m (s.homeId home)).log.hasErrors = false) :
    Handled s (.variable m home) (emitVariable s m (s.homeId home)) := by
  unfold emitVariable at h ⊢
  dsimp only at h ⊢
  by_cases hcomp : m.decl.isComposition = true
  · rw [if_pos hcomp]
    exact .nothing (by simp [Offer.name?, hcomp])
  rw [if_neg hcomp] at h ⊢
  generalize hn : variableName m.inst.label m.cls m.decl = name at h ⊢
  have hname : (Offer.variable m home).name? = some name := by simp [Offer.name?, hcomp, hn]
  have haccept : s.accept (.variable m home) =
      declareVariable (s.note (m.cls.name, m.ref.decl) (Offer.variable m home).key?) m.env
        (s.homeId home) { m.decl with name, attrs := m.variableAttrs } := by
    have hsource : (Offer.variable m home).source = { m.decl with name, attrs := m.variableAttrs } := by
      simp only [Offer.source, hname, Option.getD_some, Offer.member]
    rw [Emitting.accept, Offer.made, Offer.renamed, hsource]
    rfl
  by_cases hstream : m.decl.isStream = true
  · rw [if_pos hstream] at h ⊢
    have hkey : (Offer.variable m home).key? = some (.stream name) := by
      simp [Offer.key?, hname, Offer.keyOf, hstream]
    by_cases htaken : s.streams.contains name = true
    · rw [if_pos htaken]
      refine .again (by simp [hname]) hkey htaken ?_
      rintro _ ⟨⟩
    · have htake := Handled.taken (s := s) (o := .variable m home) (by simp [hname])
        (by simpa [hkey, Emitting.taken] using htaken)
      rw [haccept, hkey, Member.variableAttrs, if_pos hstream] at htake
      rw [if_neg htaken]
      exact htake
  rw [if_neg hstream] at h ⊢
  by_cases hshared : isShared m.cls m.decl = true
  · rw [if_pos hshared] at h ⊢
    have hkey : (Offer.variable m home).key? = some (.shared name) := by
      simp [Offer.key?, hname, Offer.keyOf, hstream, hshared]
    rcases claim_cases s name m.cls m.ref.decl m.decl.loc with ⟨hnone, hclaim⟩ | ⟨howner, hclaim⟩ | hclaim
    · have htake := Handled.taken (s := s) (o := .variable m home) (by simp [hname])
        (by simp [hkey, Emitting.taken, hnone])
      rw [haccept, hkey, Member.variableAttrs, if_neg hstream] at htake
      rw [hclaim]
      simpa [hshared] using htake
    · rw [hclaim]
      refine .again (by simp [hname]) hkey (by simp [Emitting.taken, howner]) ?_
      rintro _ ⟨⟩
      exact howner
    · rw [hclaim] at h
      exact absurd h not_hasErrors_report
  · have hkey : (Offer.variable m home).key? = none := by
      simp [Offer.key?, Offer.keyOf, hstream, hshared]
    have htake := Handled.taken (s := s) (o := .variable m home) (by simp [hname]) (by simp [hkey])
    rw [haccept, hkey, Member.variableAttrs, if_neg hstream] at htake
    simpa [hshared, Emitting.note] using htake

theorem emitMethod_handled {s : Emitting} {m : Member} (h : (emitMethod s m).log.hasErrors = false) :
    Handled s (.method m) (emitMethod s m) ∧ (Offer.method m).isComplete = true := by
  unfold emitMethod at h ⊢
  cases himpl : m.inst.names.implementations.lookup m.ref with
  | none =>
    have hname : m.methodName? = none := by simp [Member.methodName?, himpl]
    exact ⟨.nothing hname, by simp [Offer.isComplete, hname]⟩
  | some name =>
    cases hslot : m.inst.table.method? m.decl.name with
    | none =>
      have hname : m.methodName? = none := by simp [Member.methodName?, hslot]
      exact ⟨.nothing hname, by simp [Offer.isComplete, hname]⟩
    | some slot =>
      have hname : m.methodName? = some name := by simp [Member.methodName?, himpl, hslot]
      have hfinal : m.isFinal = (slot.final? == some m.ref) := by simp [Member.isFinal, hslot]
      simp only [himpl, hslot] at h ⊢
      by_cases hbodiless : ((slot.final? == some m.ref) && m.decl.body?.isNone) = true
      · rw [if_pos hbodiless] at h
        exact absurd h not_hasErrors_report
      rw [if_neg hbodiless] at h ⊢
      have hcomplete : (Offer.method m).isComplete = true := by
        simp only [Offer.isComplete, hname, hfinal]
        cases hbody : m.decl.body? <;> simp [hbody] at hbodiless ⊢
        simpa using hbodiless
      refine ⟨?_, hcomplete⟩
      have hsource : (Offer.method m).source = { m.decl with
            name, entry := if slot.final? == some m.ref then
              entryMark m.inst.table slot else none } := by
        simp only [Offer.source, Offer.name?, hname, Option.getD_some, Offer.member,
          Member.entry?, hslot, Option.bind_some]
      rw [← hsource] at h ⊢
      have haccept : s.accept (.method m) = (((s.note (m.cls.name, m.ref.decl) (Offer.method m).key?).rename m.env
            (Offer.method m).source (startState m.decl)).2.push
            ((s.note (m.cls.name, m.ref.decl) (Offer.method m).key?).rename m.env
            (Offer.method m).source (startState m.decl)).1).2 := rfl
      by_cases hshared : isShared m.cls m.decl = true
      · rw [if_pos hshared] at h ⊢
        have hkey : (Offer.method m).key? = some (.shared name) := by
          simp [Offer.key?, Offer.name?, hname, Offer.keyOf, hshared]
        rcases claim_cases s name m.cls m.ref.decl m.decl.loc with
          ⟨hnone, hclaim⟩ | ⟨howner, hclaim⟩ | hclaim
        · have htake := Handled.taken (s := s) (o := .method m) (by simp [Offer.name?, hname])
            (by simp [hkey, Emitting.taken, hnone])
          rw [haccept, hkey] at htake
          rw [hclaim]
          exact htake
        · rw [hclaim]
          refine .again (by simp [Offer.name?, hname]) hkey (by simp [Emitting.taken, howner]) ?_
          rintro _ ⟨⟩
          exact howner
        · rw [hclaim] at h
          exact absurd h not_hasErrors_report
      · rw [if_neg hshared] at h ⊢
        have hkey : (Offer.method m).key? = none := by
          simp [Offer.key?, Offer.keyOf, hshared]
        have htake := Handled.taken (s := s) (o := .method m) (by simp [Offer.name?, hname]) (by simp [hkey])
        rw [haccept, hkey] at htake
        exact htake

theorem emitOffer_handled {s : Emitting} {o : Offer} (h : (emitOffer s o).log.hasErrors = false) :
    Handled s o (emitOffer s o) ∧ o.isComplete = true := by
  cases o with
  | «variable» m home => exact ⟨emitVariable_handled h, rfl⟩
  | method m => exact emitMethod_handled h
  | struct m =>
    refine ⟨?_, rfl⟩
    simp only [emitOffer]
    by_cases htaken : s.structs.contains m.decl.name = true
    · rw [if_pos htaken]
      refine .again (k := .struct m.decl.name) rfl rfl htaken fun name hshared => ?_
      cases hshared
    · rw [if_neg htaken]
      have htake := Handled.taken (s := s) (o := .struct m) rfl
        (by simpa [Offer.key?, Offer.keyOf, Offer.name?, Emitting.taken] using htaken)
      rw [Emitting.accept, Offer.renamed, Emitting.absorb_nothing] at htake
      exact htake
  | buffer m kind =>
    refine ⟨?_, rfl⟩
    simp only [emitOffer, bufferFor]
    cases hlookup : s.buffers.lookup m.decl.name with
    | some id =>
      refine .again (k := .buffer m.decl.name) rfl rfl (by simp [Emitting.taken, hlookup]) fun name hshared => ?_
      cases hshared
    | none =>
      have htake := Handled.taken (s := s) (o := .buffer m kind) rfl
        (by simp [Offer.key?, Offer.keyOf, Offer.name?, Emitting.taken, hlookup])
      rw [Emitting.accept, Offer.renamed, Emitting.absorb_nothing] at htake
      exact htake

theorem emitVariable_buffers (m : Member) (buffer : Option DeclId) :
    (emitVariable s m buffer).buffers = s.buffers := by
  have declared : ∀ (t : Emitting) (env : RenameEnv) (d : Decl),
      (declareVariable t env buffer d).buffers = t.buffers := by
    intro t env d
    rw [declareVariable_eq]
    cases buffer <;> simp [Emitting.put, Emitting.push, Emitting.pushMember]
  unfold emitVariable
  dsimp only
  split
  · rfl
  · split
    · split
      · rfl
      · rw [declared]
    · split
      · rcases claim_cases s (variableName m.inst.label m.cls m.decl) m.cls m.ref.decl m.decl.loc with
          ⟨-, hclaim⟩ | ⟨-, hclaim⟩ | hclaim
        · rw [hclaim]
          simp only [Bool.not_true, Bool.false_eq_true, if_false, declared]
          rfl
        · rw [hclaim]
          rfl
        · rw [hclaim]
          rfl
      · simp only [Bool.not_true, Bool.false_eq_true, if_false, declared]

theorem bufferFor_buffers (d : Decl) (kind : BufferKind) :
    (bufferFor s d kind).2.buffers.lookup d.name = some (bufferFor s d kind).1 := by
  unfold bufferFor
  cases hlookup : s.buffers.lookup d.name with
  | some id => exact hlookup
  | none => exact lookup_cons_self

theorem emitMember_eq (m : Member) : emitMember s m = m.offers.foldl emitOffer s := by
  have inner : ∀ (buffer : DeclId) (emitAt : Emitting → DeclId → Emitting),
      (∀ s id, m.cls.table[id]? = none → emitAt s id = s) →
      (∀ s id d, m.cls.table[id]? = some d →
        emitAt s id = emitVariable s { m with ref := ⟨m.ref.cls, id⟩, decl := d } (some buffer)) →
      ∀ (ids : List DeclId) (t : Emitting), t.buffers.lookup m.decl.name = some buffer →
        ids.foldl emitAt t = (m.inner ids).foldl emitOffer t := by
    intro buffer emitAt hnone hsome ids
    induction ids with
    | nil => exact fun _ _ => rfl
    | cons id ids ih =>
      intro t hlookup
      rw [foldl_cons]
      cases hd : m.cls.table[id]? with
      | none =>
        have hinner : m.inner (id :: ids) = m.inner ids := by simp [Member.inner, hd]
        rw [hinner, hnone t id hd]
        exact ih t hlookup
      | some d =>
        have hinner : m.inner (id :: ids) = .variable (m.withDecl id d) (some m.decl.name) :: m.inner ids := by
          simp [Member.inner, hd]
        have hfirst : emitOffer t (.variable (m.withDecl id d) (some m.decl.name)) =
            emitVariable t { m with ref := ⟨m.ref.cls, id⟩, decl := d } (some buffer) := by
          simp [emitOffer, Emitting.homeId, hlookup, Member.withDecl]
        rw [hinner, foldl_cons, hfirst, hsome t id d hd]
        refine ih _ ?_
        rw [emitVariable_buffers]
        exact hlookup
  unfold emitMember Member.offers
  cases m.decl.kind with
  | var type semantic init => rfl
  | method returns params semantic body => rfl
  | struct fields => rfl
  | buffer kind ids =>
    refine inner _ _ (fun s id hd => ?_) (fun s id d hd => ?_) ids _ (bufferFor_buffers s m.decl kind)
    all_goals
      generalize m.cls.table[id]? = found at hd ⊢
      subst hd
      rfl

theorem emitInstances_eq (builtins : List Module) (instances : List MixInstance) :
    emitInstances builtins instances = (offersOf builtins instances).foldl emitOffer {} := by
  simp only [offersOf, membersOf, foldl_flatMap, flatMap_assoc, flatMap_map, ← emitMember_eq]
  rfl

end ShaderCompose.Mix
