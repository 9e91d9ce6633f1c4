import ShaderCompose.Proofs.Reflect.Variables

/-!
The constant buffers of a linked shader.
-/

namespace ShaderCompose

open List Layout

namespace ConstantBuffer

def stop (b : ConstantBuffer) : Nat := b.members.getLast?.elim 0 fun m => m.offset + m.size

/-- The members do not overlap, and keep to the registers. -/
structure Packed (b : ConstantBuffer) : Prop where
  ordered : b.members.Pairwise fun m n => m.offset + m.size ≤ n.offset
  small : ∀ m ∈ b.members, m.size ≤ registerSize → m.offset % registerSize + m.size ≤ registerSize
  large : ∀ m ∈ b.members, registerSize < m.size → registerSize ∣ m.offset
  aligned : ∀ m ∈ b.members, 0 < m.elements ∨ m.shape = .struct ∨ m.shape = .matrix ∧ 1 < m.columns →
    registerSize ∣ m.offset
  size : IsLeast {n | b.stop ≤ n ∧ registerSize ∣ n} b.size

end ConstantBuffer

namespace Layout

def Moved (v : ValueMember × Placement) (m : ValueMember) : Prop :=
  m = { v.1 with offset := m.offset } ∧ ∃ offset, v.2.Placed offset m.offset

structure Row (offset : Nat) (values : List (ValueMember × Placement)) (members : List ValueMember)
    (stop : Nat) : Prop where
  moved : List.Forall₂ Moved values members
  after : ∀ m ∈ members, offset ≤ m.offset
  ordered : members.Pairwise fun m n => m.offset + m.size ≤ n.offset
  stop : stop = members.getLast?.elim offset fun m => m.offset + m.size

theorem packFrom_row {offset stop : Nat} {values : List (ValueMember × Placement)}
    {members : List ValueMember} (hsize : ∀ v ∈ values, v.1.size = v.2.size)
    (h : packFrom offset values = .ok (members, stop)) : Row offset values members stop := by
  induction values generalizing offset members with
  | nil =>
    cases h
    exact ⟨.nil, forall_mem_nil _, .nil, rfl⟩
  | cons v rest ih =>
    obtain ⟨m, p⟩ := v
    rw [packFrom] at h
    cases hrange : p.range? offset with
    | none =>
      rw [hrange] at h
      cases h
    | some range =>
      obtain ⟨start, next⟩ := range
      rw [hrange] at h
      dsimp only at h
      cases hrest : packFrom next rest with
      | error name =>
        rw [hrest] at h
        cases h
      | ok packed =>
        obtain ⟨others, last⟩ := packed
        rw [hrest] at h
        cases h
        obtain ⟨hplaced, hnext⟩ := Placement.range?_spec hrange
        have hm : m.size = p.size := hsize (m, p) mem_cons_self
        have hrow := ih (fun v hv => hsize v (mem_cons_of_mem _ hv)) hrest
        refine ⟨.cons ⟨rfl, offset, hplaced⟩ hrow.moved, ?_, ?_, ?_⟩
        · refine forall_mem_cons.mpr ⟨hplaced.after, fun n hn => ?_⟩
          have := hrow.after n hn
          have := hplaced.after
          omega
        · refine pairwise_cons.mpr ⟨fun n hn => ?_, hrow.ordered⟩
          have := hrow.after n hn
          dsimp only
          omega
        · rw [hrow.stop, hnext, ← hm]
          cases others with
          | nil => rfl
          | cons n others => rfl

theorem aligned_of_shape {structs : Structs} {t : TypeRef} {p : Placement} {shape : ValueShape}
    (hp : placement structs t = .ok p) (hshape : shapeOf? structs t.name = some shape)
    (hkind : 0 < t.arrayLength?.getD 0 ∨ shape.shape = .struct ∨
      shape.shape = .matrix ∧ 1 < shape.columns) : p.aligned = true := by
  refine aligned_of_placement hp ?_
  rcases hkind with helements | hshaped
  · cases hlength : t.arrayLength? with
    | none =>
      rw [hlength] at helements
      cases helements
    | some count =>
      rw [hlength] at helements
      exact .inl ⟨count, rfl, helements⟩
  · right
    unfold shapeOf? at hshape
    split at hshape
    · next hstruct => exact .inl hstruct
    · obtain ⟨n, hn, rfl⟩ := Option.map_eq_some_iff.mp hshape
      right
      refine ⟨n, hn, ?_⟩
      by_cases hmatrix : n.isMatrix = true
      · simp_all [NumericType.registers]
      · by_cases hcolumns : 1 < n.columns <;> simp_all

end Layout

namespace Link

theorem packs_of_mem_buffers {s : Shader} {c : ConstantBuffer} (h : c ∈ (link s).2.1.buffers) :
    ∃ b, Packs b c ∧ ∀ v ∈ b.values, ∃ d ∈ s.declared, d.isValue = true ∧ Describes (structsOf s) d v := by
  obtain ⟨pending, t, hadds, -, hlink⟩ := link_adds s
  obtain ⟨-, cs, hbuffers, hpacks, -⟩ := bindBuffers_packs pending t
  rw [hlink, hbuffers, hadds.buffers] at h
  obtain ⟨b, hb, hc⟩ := hpacks c h
  refine ⟨b, hc, fun v hv => ?_⟩
  obtain ⟨d, hd, hdv⟩ := hadds.described v (mem_flatMap.mpr ⟨b, hb, hv⟩)
  obtain ⟨hd, hvalue⟩ := mem_filter.mp hd
  exact ⟨d, Shader.mem_select_linkOrder.mp hd, hvalue, hdv⟩

/-- Constant buffers are packed with values that the shader declares. -/
theorem buffers_packed {s : Shader} {b : ConstantBuffer} (hb : b ∈ (link s).2.1.buffers) :
    b.Packed ∧ ∀ m ∈ b.members, ∃ d ∈ s.declared, d.isValue = true ∧
      ∃ p, Describes (structsOf s) d (m, p) := by
  obtain ⟨pending, ⟨-, stop, hpack, hsize⟩, hvalues⟩ := packs_of_mem_buffers hb
  have hrow : Row 0 pending.values b.members stop := by
    refine packFrom_row (fun v hv => ?_) hpack
    obtain ⟨d, -, -, hd⟩ := hvalues v hv
    exact hd.size
  have hmember : ∀ m ∈ b.members, ∃ d ∈ s.declared, d.isValue = true ∧
      ∃ p offset, Describes (structsOf s) d (m, p) ∧ p.Placed offset m.offset := by
    intro m hm
    obtain ⟨i, hi, rfl⟩ := List.getElem_of_mem hm
    have hi' : i < pending.values.length := hrow.moved.length_eq ▸ hi
    obtain ⟨hmoved, offset, hplaced⟩ := (List.forall₂_iff_get.mp hrow.moved).2 i hi' hi
    obtain ⟨d, hd, hvalue, hdescribes⟩ := hvalues pending.values[i] (List.getElem_mem hi')
    have hmoved : b.members[i] = { pending.values[i].1 with offset := b.members[i].offset } := hmoved
    rw [hmoved]
    exact ⟨d, hd, hvalue, pending.values[i].2, offset, hdescribes.move _, hplaced⟩
  refine ⟨⟨hrow.ordered, fun m hm hsmall => ?_, fun m hm hlarge => ?_, fun m hm hkind => ?_, ?_⟩,
    fun m hm => ?_⟩
  · obtain ⟨d, -, -, p, offset, hdescribes, hplaced⟩ := hmember m hm
    rw [hdescribes.size] at hsmall ⊢
    exact hplaced.small hsmall
  · obtain ⟨d, -, -, p, offset, hdescribes, hplaced⟩ := hmember m hm
    rw [hdescribes.size] at hlarge
    exact hplaced.large hlarge
  · obtain ⟨d, -, -, p, offset, hdescribes, hplaced⟩ := hmember m hm
    obtain ⟨type, _, _, _, _, _, _, hshape, helements, hplacement, _⟩ := hdescribes
    rw [helements] at hkind
    exact hplaced.aligned (aligned_of_shape hplacement hshape hkind)
  · have hstop := hrow.stop
    rw [hstop] at hsize
    exact align?_isLeast hsize
  · obtain ⟨d, hd, hvalue, p, offset, hdescribes, -⟩ := hmember m hm
    exact ⟨d, hd, hvalue, p, hdescribes⟩

def scene : Shader where
  table := #[
    { name := "Light", loc := .generated
      kind := .struct [{ name := "color", type := { name := "float3" }, loc := .generated },
        { name := "range", type := { name := "float" }, loc := .generated }] },
    { name := "Lights", loc := .generated
      kind := .var { name := "Light", array := some (.fixed (.literal .generated (.int 3))) } none none },
    { name := "Albedo", loc := .generated, kind := .var { name := "Texture2D" } none none },
    { name := "Counter", loc := .generated, quals := { static := true }
      kind := .var { name := "float" } none none },
    { name := "PerDraw", loc := .generated, kind := .buffer .constant [5, 6, 7] },
    { name := "Tint", loc := .generated, kind := .var { name := "float3" } none none },
    { name := "Gloss", loc := .generated, kind := .var { name := "float" } none none },
    { name := "World", loc := .generated, kind := .var { name := "float4x4" } none none }]
  declarations := [4, 1, 2, 0, 3]

def perDraw : ConstantBuffer where
  name := "PerDraw"
  size := 80
  members := [ ⟨"Tint", "Tint", "float3", .vector, .float, 1, 3, 0, 0, 12⟩,
    ⟨"Gloss", "Gloss", "float", .scalar, .float, 1, 1, 0, 12, 4⟩,
    ⟨"World", "World", "float4x4", .matrix, .float, 4, 4, 0, 16, 64⟩]

theorem perDraw_packed : perDraw ∈ (link scene).2.1.buffers ∧ perDraw.Packed := by
  have hmem : perDraw ∈ (link scene).2.1.buffers := by decide +kernel
  exact ⟨hmem, (buffers_packed hmem).1⟩

end Link

end ShaderCompose
