import Mathlib.Data.List.Forall2
import ShaderCompose.Proofs.Reflect.Placement
import ShaderCompose.Proofs.Shader.Listed
import ShaderCompose.Reflect.Link

/-!
What linking makes of the variables of a shader.
-/

namespace ShaderCompose

open List

namespace Decl

def isParameter (d : Decl) : Bool := d.isVar && !d.quals.isUnlinked

def isResource (d : Decl) : Bool :=
  d.isParameter && d.varType?.any fun t => (ResourceType.ofName? t.name).isSome

def isValue (d : Decl) : Bool := d.isParameter && !d.isResource

def isBuffer (d : Decl) : Bool := match d.kind with | .buffer .. => true | _ => false

theorem isVar_of_isValue (d : Decl) (h : d.isValue = true) : d.isVar = true := by
  simp_all [isValue, isParameter]

theorem isVar_of_isResource (d : Decl) (h : d.isResource = true) : d.isVar = true := by
  simp_all [isResource, isParameter]

theorem inner_eq_nil {d : Decl} (h : d.isBuffer = false) : d.inner = [] := by
  unfold isBuffer at h
  unfold inner
  cases hkind : d.kind <;> simp_all

end Decl

namespace Link

open Layout

def Binds (d : Decl) (b : ResourceBinding) : Prop :=
  ∃ type semantic init resource, d.kind = .var type semantic init ∧
    ResourceType.ofName? type.name = some resource ∧ b.type = .resource resource ∧ b.rawName = d.name ∧
    key? d = .ok b.key ∧ b.count = type.arrayLength?.getD 1

def Describes (structs : Structs) (d : Decl) (v : ValueMember × Placement) : Prop :=
  ∃ type semantic init, d.kind = .var type semantic init ∧ key? d = .ok v.1.key ∧
    v.1.rawName = d.name ∧ v.1.typeName = type.name ∧
    shapeOf? structs type.name = some ⟨v.1.shape, v.1.type, v.1.rows, v.1.columns⟩ ∧
    v.1.elements = type.arrayLength?.getD 0 ∧ placement structs type = .ok v.2 ∧ v.1.size = v.2.size

variable {d : Decl} {type : TypeRef}

theorem Describes.size {structs : Structs} {v : ValueMember × Placement} (h : Describes structs d v) :
    v.1.size = v.2.size := by
  obtain ⟨_, _, _, _, _, _, _, _, _, _, hsize⟩ := h
  exact hsize

theorem Describes.move {structs : Structs} {m : ValueMember} {p : Placement} (h : Describes structs d (m, p))
    (offset : Nat) : Describes structs d ({ m with offset }, p) := h

/-! ## One variable after another -/

structure Adds (structs : Structs) (ds : List Decl) (s t : State)
    (values : List (ValueMember × Placement)) : Prop where
  log : s.log <+: t.log
  buffers : t.reflection.buffers = s.reflection.buffers
  described : ∀ v ∈ values, ∃ d ∈ ds.filter Decl.isValue, Describes structs d v
  values : t.log.hasErrors = false → List.Forall₂ (Describes structs) (ds.filter Decl.isValue) values
  bindings : t.log.hasErrors = false → ∃ bound, t.reflection.bindings = s.reflection.bindings ++ bound ∧
    List.Forall₂ Binds (ds.filter Decl.isResource) bound

variable {structs : Structs} {s t u : State} {ds es : List Decl} {vs ws : List (ValueMember × Placement)}

theorem hasErrors_report (s : State) (loc : Option Span) (message : Message) :
    (s.report ⟨.error, loc, message⟩).log.hasErrors = true := by
  simp [State.report, Log.hasErrors]

namespace Adds

theorem skip (s : State) (h : ∀ d ∈ ds, d.isParameter = false) : Adds structs ds s s [] := by
  have hvalues : ds.filter Decl.isValue = [] := by
    rw [filter_eq_nil_iff]
    intro d hd
    simp [Decl.isValue, h d hd]
  have hresources : ds.filter Decl.isResource = [] := by
    rw [filter_eq_nil_iff]
    intro d hd
    simp [Decl.isResource, h d hd]
  refine ⟨prefix_refl _, rfl, forall_mem_nil _, fun _ => ?_, fun _ => ⟨[], ?_, ?_⟩⟩
  · rw [hvalues]
    exact .nil
  · rw [append_nil]
  · rw [hresources]
    exact .nil

theorem report (ds : List Decl) (s : State) (loc : Span) (message : Message) :
    Adds structs ds s (s.report (.errorAt loc message)) [] := by
  have herrors := hasErrors_report s (some loc) message
  refine ⟨prefix_append _ _, rfl, forall_mem_nil _, fun hquiet => ?_, fun hquiet => ?_⟩
  · cases herrors.symm.trans hquiet
  · cases herrors.symm.trans hquiet

theorem append (h : Adds structs ds s t vs) (h' : Adds structs es t u ws) :
    Adds structs (ds ++ es) s u (vs ++ ws) where
  log := h.log.trans h'.log
  buffers := h'.buffers.trans h.buffers
  described := by
    rw [filter_append]
    refine forall_mem_append.mpr ⟨fun v hv => ?_, fun v hv => ?_⟩
    · obtain ⟨d, hd, hdv⟩ := h.described v hv
      exact ⟨d, mem_append_left _ hd, hdv⟩
    · obtain ⟨d, hd, hdv⟩ := h'.described v hv
      exact ⟨d, mem_append_right _ hd, hdv⟩
  values hquiet := by
    rw [filter_append]
    exact rel_append (h.values (Log.quiet_of_prefix h'.log hquiet)) (h'.values hquiet)
  bindings hquiet := by
    obtain ⟨bound, hbound, hbinds⟩ := h.bindings (Log.quiet_of_prefix h'.log hquiet)
    obtain ⟨more, hmore, hbinds'⟩ := h'.bindings hquiet
    refine ⟨bound ++ more, ?_, ?_⟩
    · rw [hmore, hbound, append_assoc]
    · rw [filter_append]
      exact rel_append hbinds hbinds'

theorem congr (h : Adds structs ds s t vs) (hvalues : ds.filter Decl.isValue = es.filter Decl.isValue)
    (hresources : ds.filter Decl.isResource = es.filter Decl.isResource) : Adds structs es s t vs :=
  ⟨h.log, h.buffers, hvalues ▸ h.described, hvalues ▸ h.values, hresources ▸ h.bindings⟩

end Adds

theorem refuseKey_cases (d : Decl) (s : State) :
    refuseKey d s = s ∨ ∃ message, refuseKey d s = s.report (.errorAt d.loc message) := by
  unfold refuseKey
  split
  · exact .inr ⟨_, rfl⟩
  · exact .inl rfl

theorem foldl_refuseKey (structs : Structs) (ds : List Decl) (s : State) :
    Adds structs [] s (ds.foldl (fun s d => refuseKey d s) s) [] := by
  refine List.foldlRecOn (motive := fun t => Adds structs [] s t []) ds _
    (.skip s (forall_mem_nil _)) fun t ht d _ => ?_
  rcases refuseKey_cases d t with heq | ⟨message, heq⟩
  · rw [heq]
    exact ht
  · rw [heq]
    exact ht.append (.report [] t d.loc message)

theorem take?_eq_some {register : RegisterClass} {slot count : Nat} (h : s.take? register count = some (slot, t)) :
    slot = s.free register ∧ slot + count < UInt32.size ∧
      t = { s with free := fun r => if r = register then slot + count else s.free r } := by
  obtain ⟨next, hnext, heq⟩ := Option.map_eq_some_iff.mp h
  obtain ⟨hlt, rfl⟩ := word?_eq_some.mp hnext
  cases heq
  exact ⟨rfl, hlt, rfl⟩

theorem takeSlots_eq_ok {register : RegisterClass} {slot count : Nat}
    (h : takeSlots type register s = .ok (slot, count, t)) :
    s.take? register count = some (slot, t) ∧ count = type.arrayLength?.getD 1 := by
  have hlength : ∀ length, arrayLength type = .ok length → length = type.arrayLength? := by
    intro length hlength
    unfold arrayLength at hlength
    split at hlength
    · split at hlength
      · next n hn =>
        cases hlength
        exact hn.symm
      · cases hlength
    · next harray =>
      cases hlength
      have hnone : type.array = none := by simpa [TypeRef.isArray] using harray
      rw [TypeRef.arrayLength?, hnone]
  unfold takeSlots at h
  cases harray : arrayLength type with
  | error e =>
    rw [harray] at h
    cases h
  | ok length =>
    cases htake : s.take? register (length.getD 1) with
    | none =>
      simp only [harray, htake, bind, Except.bind] at h
      cases h
    | some taken =>
      simp only [harray, htake, bind, Except.bind] at h
      cases h
      exact ⟨htake, by rw [hlength length harray]⟩

theorem recordSampler_spec (d : Decl) (key : String) (init : Option Initializer) (s : State) :
    s.log <+: (recordSampler d key init s).log ∧ (recordSampler d key init s).free = s.free ∧
      (recordSampler d key init s).reflection.buffers = s.reflection.buffers ∧
      (recordSampler d key init s).reflection.bindings = s.reflection.bindings := by
  unfold recordSampler
  split
  · exact ⟨prefix_append _ _, rfl, rfl, rfl⟩
  · exact ⟨prefix_refl _, rfl, rfl, rfl⟩

theorem bindResource_adds {key : String} {semantic : Option String} {init : Option Initializer}
    {resource : ResourceType} (hkind : d.kind = .var type semantic init) (hparameter : d.isParameter = true)
    (hkey : key? d = .ok key) (hresource : ResourceType.ofName? type.name = some resource) (s : State) :
    Adds structs [d] s (bindResource d key type init resource s) [] := by
  have hisResource : d.isResource = true := by
    simp [Decl.isResource, hparameter, Decl.varType?, hkind, hresource]
  have hvalue : [d].filter Decl.isValue = [] := by simp [Decl.isValue, hisResource]
  unfold bindResource
  cases htake : takeSlots type resource.register s with
  | error e => exact .report [d] s d.loc _
  | ok taken =>
    obtain ⟨slot, count, t⟩ := taken
    obtain ⟨htaken, hcount⟩ := takeSlots_eq_ok htake
    obtain ⟨-, -, rfl⟩ := take?_eq_some htaken
    obtain ⟨hlog, -, hbuffers, hbindings⟩ := recordSampler_spec d key init
      { s with free := fun r => if r = resource.register then slot + count else s.free r }
    refine ⟨hlog, hbuffers, forall_mem_nil _, fun _ => ?_, fun _ =>
      ⟨[⟨key, d.name, .resource resource, slot, count⟩], ?_, ?_⟩⟩
    · rw [hvalue]
      exact .nil
    · exact congrArg (· ++ _) hbindings
    · rw [filter_cons_of_pos hisResource]
      exact .cons ⟨type, semantic, init, resource, hkind, hresource, rfl, rfl, hkey, hcount⟩ .nil

theorem describe_describes {key : String} {semantic : Option String} {init : Option Initializer}
    {v : ValueMember × Placement} (hkind : d.kind = .var type semantic init) (hkey : key? d = .ok key)
    (h : describe structs d key type = .ok v) : Describes structs d v := by
  unfold describe at h
  cases hshape : shapeOf? structs type.name with
  | none =>
    rw [hshape] at h
    cases h
  | some shape =>
    cases hplace : placement structs type with
    | error e =>
      simp only [hshape, hplace] at h
      cases h
    | ok place =>
      simp only [hshape, hplace] at h
      cases h
      exact ⟨type, semantic, init, hkind, hkey, rfl, rfl, hshape, rfl, hplace, rfl⟩

theorem addVariable_adds (d : Decl) (s : State) :
    Adds structs [d] s (addVariable structs d s).2 (addVariable structs d s).1.toList := by
  unfold addVariable
  cases hkind : d.kind with
  | var type semantic init =>
    dsimp only
    by_cases hunlinked : d.quals.isUnlinked = true
    · rw [if_pos hunlinked]
      rcases refuseKey_cases d s with heq | ⟨message, heq⟩
      · rw [heq]
        exact .skip s (by simp [Decl.isParameter, hunlinked])
      · rw [heq]
        exact .report [d] s d.loc message
    · rw [if_neg hunlinked]
      have hparameter : d.isParameter = true := by
        simp [Decl.isParameter, Decl.isVar, hkind, hunlinked]
      cases hkey : key? d with
      | error message => exact .report [d] s d.loc message
      | ok key =>
        cases hresource : ResourceType.ofName? type.name with
        | some resource => exact bindResource_adds hkind hparameter hkey hresource s
        | none =>
          have hvalue : d.isValue = true ∧ d.isResource = false := by
            simp [Decl.isValue, Decl.isResource, hparameter, Decl.varType?, hkind, hresource]
          dsimp only
          cases hdescribe : describe structs d key type with
          | error e => exact .report [d] s d.loc _
          | ok v =>
            have hdescribes := describe_describes hkind hkey hdescribe
            refine ⟨prefix_refl _, rfl, ?_, fun _ => ?_, fun _ => ⟨[], ?_, ?_⟩⟩
            · intro w hw
              obtain rfl : w = v := by simpa using hw
              exact ⟨d, by simp [hvalue.1], hdescribes⟩
            · rw [filter_cons_of_pos hvalue.1]
              exact .cons hdescribes .nil
            · exact (append_nil _).symm
            · rw [filter_cons_of_neg (by simp [hvalue.2])]
              exact .nil
  | method | struct | buffer =>
    exact .skip s (by simp [Decl.isParameter, Decl.isVar, hkind])

theorem addVariables_adds (structs : Structs) (ds : List Decl) (s : State) :
    Adds structs ds s (addVariables structs ds s).2 (addVariables structs ds s).1 := by
  induction ds generalizing s with
  | nil => exact .skip s (forall_mem_nil _)
  | cons d ds ih => exact (addVariable_adds d s).append (ih _)

/-! ## Constant buffers -/

def DescribesGroup (structs : Structs) (group : String × List Decl) (b : Pending) : Prop :=
  b.name = group.1 ∧ List.Forall₂ (Describes structs) group.2 b.values

theorem addBuffers_adds (structs : Structs) (shader : Shader) (ds : List Decl) (s : State) :
    Adds structs ((ds.filter Decl.isBuffer).flatMap fun d => shader.select d.inner) s
        (addBuffers structs shader ds s).2 ((addBuffers structs shader ds s).1.flatMap Pending.values) ∧
      ((addBuffers structs shader ds s).2.log.hasErrors = false → List.Forall₂ (DescribesGroup structs)
          ((ds.filter Decl.isBuffer).map fun d => (d.name, (shader.select d.inner).filter Decl.isValue))
          (addBuffers structs shader ds s).1) := by
  induction ds generalizing s with
  | nil => exact ⟨.skip s (forall_mem_nil _), fun _ => .nil⟩
  | cons d ds ih =>
    rw [addBuffers]
    cases hkind : d.kind with
    | buffer kind members =>
      have hbuffer : d.isBuffer = true := by rw [Decl.isBuffer, hkind]
      have hinner : d.inner = members := by rw [Decl.inner, hkind]
      have hfirst := addVariables_adds structs (shader.select members) s
      obtain ⟨hrest, hholds⟩ := ih (addVariables structs (shader.select members) s).2
      rw [filter_cons_of_pos hbuffer, flatMap_cons, map_cons, hinner]
      refine ⟨hfirst.append hrest, fun hquiet => .cons ⟨rfl, ?_⟩ (hholds hquiet)⟩
      exact hfirst.values (Log.quiet_of_prefix hrest.log hquiet)
    | _ =>
      have hbuffer : d.isBuffer = false := by rw [Decl.isBuffer, hkind]
      rw [filter_cons_of_neg (by simp [hbuffer])]
      exact ih s

def Packs (b : Pending) (c : ConstantBuffer) : Prop :=
  c.name = b.name ∧ ∃ stop, packFrom 0 b.values = .ok (c.members, stop) ∧ align? stop = some c.size

def BindsBuffer (c : ConstantBuffer) (b : ResourceBinding) : Prop :=
  b.rawName = c.name ∧ b.key = c.name ∧ b.type = .constantBuffer ∧ b.count = 1

def BindsAll (bs : List Pending) (s t : State) : Prop :=
  s.log <+: t.log ∧ ∃ cs, t.reflection.buffers = s.reflection.buffers ++ cs ∧
    (∀ c ∈ cs, ∃ b ∈ bs, Packs b c) ∧ (t.log.hasErrors = false → List.Forall₂ Packs bs cs ∧
      ∃ bound, t.reflection.bindings = s.reflection.bindings ++ bound ∧ List.Forall₂ BindsBuffer cs bound)

theorem bindBuffer_packs (b : Pending) (s : State) : BindsAll [b] s (bindBuffer s b) := by
  have reported : ∀ (t : State) (message : Message), t.log = s.log → t.reflection = s.reflection →
      BindsAll [b] s (t.report ⟨.error, b.loc, message⟩) := by
    intro t message hlog hreflection
    refine ⟨hlog ▸ prefix_append _ _, [], ?_, forall_mem_nil _, fun hquiet => ?_⟩
    · rw [append_nil]
      exact congrArg Reflection.buffers hreflection
    · cases (hasErrors_report t b.loc message).symm.trans hquiet
  unfold bindBuffer
  cases hpack : packFrom 0 b.values with
  | error name => exact reported s _ rfl rfl
  | ok packed =>
    obtain ⟨members, stop⟩ := packed
    cases htake : s.take? .constantBuffer 1 with
    | none => exact reported s _ rfl rfl
    | some taken =>
      obtain ⟨slot, t⟩ := taken
      obtain ⟨-, -, rfl⟩ := take?_eq_some htake
      dsimp only
      cases halign : align? stop with
      | none => exact reported _ _ rfl rfl
      | some size =>
        have hpacks : Packs b ⟨b.name, size, members⟩ := ⟨rfl, stop, hpack, halign⟩
        refine ⟨prefix_refl _, [⟨b.name, size, members⟩], rfl, ?_, fun _ => ⟨.cons hpacks .nil, ?_⟩⟩
        · rintro c hc
          rw [mem_singleton.mp hc]
          exact ⟨b, mem_singleton_self b, hpacks⟩
        · exact ⟨[_], rfl, .cons ⟨rfl, rfl, rfl, rfl⟩ .nil⟩

theorem bindBuffers_packs (bs : List Pending) (s : State) : BindsAll bs s (bs.foldl bindBuffer s) := by
  induction bs generalizing s with
  | nil =>
    refine ⟨prefix_refl _, [], (append_nil _).symm, forall_mem_nil _, fun _ => ⟨.nil, [], ?_, .nil⟩⟩
    exact (append_nil _).symm
  | cons b bs ih =>
    obtain ⟨hlog, cs, hbuffers, hpacks, hall⟩ := bindBuffer_packs b s
    obtain ⟨hlog', cs', hbuffers', hpacks', hall'⟩ := ih (bindBuffer s b)
    rw [foldl_cons]
    refine ⟨hlog.trans hlog', cs ++ cs', ?_, ?_, fun hquiet => ?_⟩
    · rw [hbuffers', hbuffers, append_assoc]
    · refine forall_mem_append.mpr ⟨fun c hc => ?_, fun c hc => ?_⟩
      · obtain ⟨b', hb', hc⟩ := hpacks c hc
        rw [mem_singleton.mp hb'] at hc
        exact ⟨b, mem_cons_self, hc⟩
      · obtain ⟨b', hb', hc⟩ := hpacks' c hc
        exact ⟨b', mem_cons_of_mem _ hb', hc⟩
    · obtain ⟨hfirst, bound, hbound, hbinds⟩ := hall (Log.quiet_of_prefix hlog' hquiet)
      obtain ⟨hrest, bound', hbound', hbinds'⟩ := hall' hquiet
      refine ⟨rel_append hfirst hrest, bound ++ bound', ?_, rel_append hbinds hbinds'⟩
      rw [hbound', hbound, append_assoc]

end Link

/-! ## The whole shader -/

namespace Shader

theorem decls_eq_select (s : Shader) : s.decls = s.select s.declarations := by
  rw [decls, entries, map_filterMap]
  refine filterMap_congr fun id _ => ?_
  rw [Option.map_map]
  exact Option.map_id'

def having (s : Shader) (p : Decl → Bool) (ids : List DeclId) : List DeclId :=
  ids.filter fun id => (s.table[id]?).any p

theorem select_having (s : Shader) (p : Decl → Bool) (ids : List DeclId) :
    s.select (s.having p ids) = (s.select ids).filter p := by
  rw [select, select, having]
  induction ids with
  | nil => rfl
  | cons id ids ih =>
    cases hid : s.table[id]? with
    | none =>
      rw [filter_cons_of_neg (by simp [hid]), filterMap_cons_none hid]
      exact ih
    | some d =>
      rw [filterMap_cons_some hid]
      by_cases hp : p d = true
      · rw [filter_cons_of_pos (by simp [hid, hp]), filter_cons_of_pos hp,
          filterMap_cons_some hid, ih]
      · rw [filter_cons_of_neg (by simp [hid, hp]), filter_cons_of_neg hp, ih]

variable {s : Shader} {p : Decl → Bool}

theorem having_eq_nil {ids : List DeclId} : s.having p ids = [] ↔ (s.select ids).filter p = [] := by
  simp only [having, select, filter_eq_nil_iff, mem_filterMap, Option.any_eq_true]
  constructor
  · rintro h d ⟨id, hid, hd⟩ hp
    exact h id hid ⟨d, hd, hp⟩
  · rintro h id hid ⟨d, hd, hp⟩
    exact h d ⟨id, hid, hd⟩ hp

theorem filter_decls_order (rank : Nat) (hrank : rank ≤ 3) (hp : ∀ d, p d = true → d.kind.rank = rank) (s : Shader) :
    s.order.decls.filter p = s.decls.filter p := by
  have part : ∀ r, (s.decls.filter fun d => d.kind.rank == r).filter p =
      if r = rank then s.decls.filter p else [] := by
    intro r
    rw [filter_filter]
    split
    · next hr =>
      refine filter_congr fun d _ => ?_
      cases hd : p d with
      | false => rfl
      | true => simp [hp d hd, hr]
    · next hr =>
      refine filter_eq_nil_iff.mpr fun d _ hd => ?_
      obtain ⟨hd, hdr⟩ := by simpa using hd
      exact hr (hdr.symm.trans (hp d hd))
  have horder : s.order.decls =
      (s.decls.filter fun d => d.kind.rank == 0) ++ (s.decls.filter fun d => d.kind.rank == 1) ++
        (s.decls.filter fun d => d.kind.rank == 2) ++ (s.decls.filter fun d => d.kind.rank == 3) := by
    rw [decls_eq_select s.order, decls_eq_select s]
    simp only [← select_having, having]
    simp only [select, order, filterMap_append]
  rw [horder]
  simp only [filter_append, part]
  obtain rfl | rfl | rfl | rfl : rank = 0 ∨ rank = 1 ∨ rank = 2 ∨ rank = 3 := by omega
  all_goals simp

def linkOrder (s : Shader) : List DeclId := s.declarations ++ s.decls.flatMap Decl.inner

theorem mem_linkOrder {i : DeclId} {d : Decl} (hi : s.table[i]? = some d) : i ∈ s.linkOrder ↔ i ∈ s.listed := by
  simp only [mem_listed, linkOrder, mem_append, mem_flatMap, mem_decls]
  constructor
  · rintro (hdecl | ⟨b, ⟨id, hid, hb⟩, hinner⟩)
    · exact ⟨i, d, hdecl, hi, .inr rfl⟩
    · exact ⟨id, b, hid, hb, .inl hinner⟩
  · rintro ⟨id, b, hid, hb, hinner | rfl⟩
    · exact .inr ⟨b, ⟨id, hid, hb⟩, hinner⟩
    · exact .inl hid

theorem mem_select_linkOrder {d : Decl} : d ∈ s.select s.linkOrder ↔ d ∈ s.declared := by
  rw [mem_declared, select, mem_filterMap]
  exact exists_congr fun i => and_congr_left mem_linkOrder

def resources (s : Shader) : List DeclId := s.having Decl.isResource s.linkOrder

def buffers (s : Shader) : List (String × List DeclId) :=
  let loose := s.having Decl.isValue s.declarations
  (if loose.isEmpty then [] else [(Reflection.globalsName, loose)]) ++
    (s.decls.filter Decl.isBuffer).map fun d => (d.name, s.having Decl.isValue d.inner)

theorem filter_isVar (hp : ∀ d, p d = true → d.isVar = true) (ds : List Decl) :
    (ds.filter Decl.isVar).filter p = ds.filter p := by
  rw [filter_filter]
  refine filter_congr fun d _ => ?_
  cases hd : p d with
  | false => rfl
  | true => simp [hp d hd]

theorem filter_select_linkOrder (hp : ∀ d, p d = true → d.isVar = true) (s : Shader) :
    (s.select s.linkOrder).filter p = (s.decls.filter Decl.isVar ++
      (s.decls.filter Decl.isBuffer).flatMap fun d => s.select d.inner).filter p := by
  have houter : (s.decls.filter Decl.isVar).filter p = s.decls.filter p := filter_isVar hp _
  have hinner : ∀ ds : List Decl, ((ds.filter Decl.isBuffer).flatMap fun d => s.select d.inner) =
      s.select (ds.flatMap Decl.inner) := by
    intro ds
    induction ds with
    | nil => rfl
    | cons d ds ih =>
      cases hd : d.isBuffer with
      | true =>
        rw [filter_cons_of_pos hd, flatMap_cons, flatMap_cons, ih, select, select, select, filterMap_append]
      | false =>
        rw [filter_cons_of_neg (by simp [hd]), flatMap_cons, Decl.inner_eq_nil hd]
        exact ih
  rw [hinner, filter_append, houter, linkOrder, select, filterMap_append, filter_append, decls_eq_select]
  rfl

end Shader

namespace Link

open Layout

theorem structsOf_order (s : Shader) : structsOf s.order = structsOf s := by
  obtain ⟨fields, hfields, hnone⟩ : ∃ fields : Decl → Option (String × List Param),
      (∀ s, structsOf s = (s.decls.filterMap fields).reverse) ∧
        ∀ d, d.isStruct = false → fields d = none := by
    refine ⟨_, fun s => rfl, fun d hd => ?_⟩
    cases hkind : d.kind <;> simp_all [Decl.isStruct]
  have hstructs : ∀ ds : List Decl, ds.filterMap fields = (ds.filter Decl.isStruct).filterMap fields := by
    intro ds
    rw [filterMap_filter]
    refine filterMap_congr fun d _ => ?_
    split
    · rfl
    · next hd => exact hnone d (eq_false_of_ne_true hd)
  rw [hfields, hfields, hstructs, hstructs s.decls, Shader.filter_decls_order 0 (by decide)]
  intro d hd
  cases hkind : d.kind <;> simp_all [Decl.isStruct, DeclKind.rank]

theorem describesGroup_globals {structs : Structs} {s : Shader} {globals : List (ValueMember × Placement)}
    (h : List.Forall₂ (Describes structs) (s.select (s.having Decl.isValue s.declarations)) globals) :
    List.Forall₂ (DescribesGroup structs) ((if (s.having Decl.isValue s.declarations).isEmpty then []
        else [(Reflection.globalsName, s.having Decl.isValue s.declarations)]).map fun g => (g.1, s.select g.2))
      (if globals.isEmpty then [] else [⟨Reflection.globalsName, none, globals⟩]) := by
  cases globals with
  | nil =>
    have hnone : s.having Decl.isValue s.declarations = [] := by
      rw [Shader.having_eq_nil, ← Shader.select_having]
      exact forall₂_nil_right_iff.mp h
    rw [hnone]
    exact .nil
  | cons v vs =>
    have hne : ¬ (s.having Decl.isValue s.declarations).isEmpty = true := by
      intro hnil
      rw [List.isEmpty_iff.mp hnil] at h
      cases h
    rw [if_neg hne]
    exact .cons ⟨rfl, h⟩ .nil

theorem link_adds (s : Shader) : ∃ pending t,
    Adds (structsOf s) (s.select s.linkOrder) {} t (pending.flatMap Pending.values) ∧ (t.log.hasErrors = false →
        List.Forall₂ (DescribesGroup (structsOf s)) (s.buffers.map fun g => (g.1, s.select g.2)) pending) ∧
      (link s).2 = ((pending.foldl bindBuffer t).reflection, (pending.foldl bindBuffer t).log) := by
  have hvars : s.order.decls.filter Decl.isVar = s.decls.filter Decl.isVar :=
    Shader.filter_decls_order 1 (by decide)
      (fun d hd => by cases hkind : d.kind <;> simp_all [Decl.isVar, DeclKind.rank]) s
  have hbuffers : s.order.decls.filter Decl.isBuffer = s.decls.filter Decl.isBuffer :=
    Shader.filter_decls_order 2 (by decide)
      (fun d hd => by cases hkind : d.kind <;> simp_all [Decl.isBuffer, DeclKind.rank]) s
  obtain ⟨t₀, ht₀⟩ : ∃ t, (s.order.decls.filter Decl.isStruct).foldl (fun s d => refuseKey d s) {} = t := ⟨_, rfl⟩
  obtain ⟨globals, t₁, ht₁⟩ : ∃ globals t,
      addVariables (structsOf s) (s.decls.filter Decl.isVar) t₀ = (globals, t) := ⟨_, _, rfl⟩
  obtain ⟨buffers, t₂, ht₂⟩ : ∃ buffers t,
      addBuffers (structsOf s) s.order s.order.decls t₁ = (buffers, t) := ⟨_, _, rfl⟩
  obtain ⟨t₃, ht₃⟩ : ∃ t, s.order.methods.foldl (fun s d => refuseKey d s) t₂ = t := ⟨_, rfl⟩
  have hstructs := foldl_refuseKey (structsOf s) (s.order.decls.filter Decl.isStruct) {}
  have houter := addVariables_adds (structsOf s) (s.decls.filter Decl.isVar) t₀
  have hinner := addBuffers_adds (structsOf s) s.order s.order.decls t₁
  have hmethods := foldl_refuseKey (structsOf s) s.order.methods t₂
  rw [ht₀] at hstructs
  rw [ht₁] at houter
  rw [ht₂, hbuffers] at hinner
  rw [ht₃] at hmethods
  refine ⟨(if globals.isEmpty then [] else [⟨Reflection.globalsName, none, globals⟩]) ++ buffers, t₃,
    ?_, fun hquiet => ?_, ?_⟩
  · have hall := ((hstructs.append houter).append hinner.1).append hmethods
    have hloose : (if globals.isEmpty then [] else [(⟨Reflection.globalsName, none, globals⟩ : Pending)]).flatMap
        Pending.values = globals := by
      cases globals <;> simp
    rw [flatMap_append, hloose]
    simp only [append_nil] at hall
    exact hall.congr (Shader.filter_select_linkOrder Decl.isVar_of_isValue s).symm
      (Shader.filter_select_linkOrder Decl.isVar_of_isResource s).symm
  · have hquiet₂ := Log.quiet_of_prefix hmethods.log hquiet
    have hglobals := houter.values (Log.quiet_of_prefix hinner.1.log hquiet₂)
    have hbound := hinner.2 hquiet₂
    rw [Shader.filter_isVar Decl.isVar_of_isValue, Shader.decls_eq_select, ← Shader.select_having] at hglobals
    rw [Shader.buffers, map_append]
    refine rel_append (describesGroup_globals hglobals) ?_
    have hmap : ((fun g : String × List DeclId => (g.1, s.select g.2)) ∘
        fun d : Decl => (d.name, s.having Decl.isValue d.inner)) =
        fun d => (d.name, (s.select d.inner).filter Decl.isValue) := by
      funext d
      exact congrArg (Prod.mk d.name) (s.select_having _ _)
    rw [map_map, hmap]
    exact hbound
  · simp only [link, structsOf_order, hvars, ht₀, ht₁, ht₂, ht₃]

end Link

end ShaderCompose
