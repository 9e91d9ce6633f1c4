import ShaderCompose.Proofs.Module.Conflicts

/-!
Which implementation of a method is meant.
-/

namespace ShaderCompose

open List

def Module.Implements (m : Module) (name : String) (ref : MemberRef) : Prop :=
  ∃ a d, m.hierarchy[ref.cls]? = some a ∧ (ref.decl, d) ∈ a.cls.methods ∧ d.name = name

namespace MemberTable

theorem pairwise_along (pick : ShaderClass → List (DeclId × Decl)) (classes : List ShaderClass) :
    (along pick classes).Pairwise fun a b => a.1.cls ≤ b.1.cls := by
  refine pairwise_flatMap.mpr ⟨fun c _ => ?_, ?_⟩
  · exact pairwise_map.mpr (pairwise_of_forall fun _ _ => Nat.le_refl _)
  · have hplaces : classes.zipIdx.Pairwise fun c c' => c.2 < c'.2 := by
      rw [← pairwise_map, zipIdx_map_snd]
      exact pairwise_lt_range'
    refine hplaces.imp fun hlt a ha b hb => ?_
    obtain ⟨_, -, rfl⟩ := mem_map.mp ha
    obtain ⟨_, -, rfl⟩ := mem_map.mp hb
    exact hlt.le

variable {m : Module} {slot : MethodSlot} {name : String} {ref : MemberRef}

theorem mem_named_methods :
    ref ∈ (along ShaderClass.methods (ofModule m).classes).named name ↔ m.Implements name ref := by
  rw [Listing.mem_named, classes_ofModule]
  simp only [mem_along, getElem?_map, Option.map_eq_some_iff]
  constructor
  · rintro ⟨d, ⟨_, ⟨a, ha, rfl⟩, hd⟩, hname⟩
    exact ⟨a, d, ha, hd, hname⟩
  · rintro ⟨a, d, ha, hd, hname⟩
    exact ⟨d, ⟨_, ⟨a, ha, rfl⟩, hd⟩, hname⟩

theorem method?_isSome_iff : ((ofModule m).method? name).isSome = true ↔ ∃ ref, m.Implements name ref := by
  rw [← Option.ne_none_iff_isSome, Ne, (ofModule_lists m).method?_eq_none, eq_nil_iff_forall_not_mem]
  simp only [mem_named_methods, not_forall, not_not]

theorem mem_implementations (h : slot ∈ (ofModule m).methods) :
    ref ∈ slot.implementations ↔ m.Implements slot.name ref := by
  rw [(((ofModule_lists m).slots slot).mp h).1, mem_named_methods]

theorem pairwise_implementations (h : slot ∈ (ofModule m).methods) :
    slot.implementations.Pairwise fun a b => a.cls ≤ b.cls := by
  rw [(((ofModule_lists m).slots slot).mp h).1]
  exact pairwise_map.mpr ((pairwise_along ShaderClass.methods _).filter _)

theorem method?_of_mem (h : slot ∈ (ofModule m).methods) : (ofModule m).method? slot.name = some slot :=
  (ofModule_lists m).method?_eq_some.mpr ⟨rfl, ((ofModule_lists m).slots slot).mp h⟩

theorem latest (h : slot ∈ (ofModule m).methods) {p : MemberRef → Bool}
    (href : slot.implementations.reverse.find? p = some ref) :
    m.Implements slot.name ref ∧ p ref = true ∧
      ∀ other, m.Implements slot.name other → p other = true → other.cls ≤ ref.cls := by
  obtain ⟨hp, later, earlier, hsplit, hlater⟩ := find?_eq_some_iff_append.mp href
  refine ⟨(mem_implementations h).mp (mem_reverse.mp (mem_of_find?_eq_some href)), hp, ?_⟩
  intro other hother hpother
  have hmem := mem_reverse.mpr ((mem_implementations h).mpr hother)
  rw [hsplit, mem_append, mem_cons] at hmem
  rcases hmem with hmem | rfl | hmem
  · simpa [hpother] using hlater other hmem
  · exact Nat.le_refl _
  · have hordered := pairwise_reverse.mpr (pairwise_implementations h)
    rw [hsplit] at hordered
    exact (pairwise_cons.mp (pairwise_append.mp hordered).2.1).1 other hmem

theorem before?_eq_none {place : Nat} (h : slot ∈ (ofModule m).methods) :
    slot.before? place = none ↔ ∀ ref, m.Implements slot.name ref → place ≤ ref.cls := by
  simp only [MethodSlot.before?, find?_eq_none, mem_reverse, mem_implementations h, decide_eq_true_eq, Nat.not_lt]

theorem before?_eq_some {place : Nat} (h : slot ∈ (ofModule m).methods) (href : slot.before? place = some ref) :
    m.Implements slot.name ref ∧ ref.cls < place ∧
      ∀ other, m.Implements slot.name other → other.cls < place → other.cls ≤ ref.cls := by
  obtain ⟨himplements, hlt, hlatest⟩ := latest h href
  exact ⟨himplements, of_decide_eq_true hlt, fun other hother h => hlatest other hother (decide_eq_true h)⟩

/-- The final implementation is that of the last class that declares the name; the one before a
place, of the last before it. -/
theorem dispatch_latest (m : Module) :
    ((ofModule m).methods.map MethodSlot.name).Nodup ∧
    (∀ name, name ∈ (ofModule m).methods.map MethodSlot.name ↔ ∃ ref, m.Implements name ref) ∧
    ∀ slot ∈ (ofModule m).methods, (ofModule m).method? slot.name = some slot ∧
      (∀ ref, ref ∈ slot.implementations ↔ m.Implements slot.name ref) ∧
      (slot.implementations.Pairwise fun a b => a.cls ≤ b.cls) ∧
      (∃ ref, slot.final? = some ref ∧ m.Implements slot.name ref ∧
        ∀ other, m.Implements slot.name other → other.cls ≤ ref.cls) ∧
      ∀ place, (slot.before? place = none ↔ ∀ ref, m.Implements slot.name ref → place ≤ ref.cls) ∧
        ∀ ref, slot.before? place = some ref → m.Implements slot.name ref ∧ ref.cls < place ∧
          ∀ other, m.Implements slot.name other → other.cls < place → other.cls ≤ ref.cls := by
  refine ⟨(ofModule_lists m).nodup, fun name => ?_, fun slot hslot => ⟨method?_of_mem hslot,
    fun ref => mem_implementations hslot, pairwise_implementations hslot, ?_, fun place =>
      ⟨before?_eq_none hslot, fun ref => before?_eq_some hslot⟩⟩⟩
  · rw [← method?_isSome_iff, MemberTable.method?, List.find?_isSome, List.mem_map]
    simp only [beq_iff_eq]
  · obtain ⟨ref, href⟩ := List.exists_mem_of_ne_nil _ (((ofModule_lists m).slots slot).mp hslot).2
    obtain ⟨last, hlast⟩ : ∃ last, slot.implementations.reverse.find? (fun _ => true) = some last :=
      Option.isSome_iff_exists.mp (List.find?_isSome.mpr ⟨ref, List.mem_reverse.mpr href, rfl⟩)
    obtain ⟨himplements, -, hlatest⟩ := latest hslot hlast
    refine ⟨last, ?_, himplements, fun other hother => hlatest other hother rfl⟩
    rw [MethodSlot.final?, ← List.head?_reverse, ← hlast]
    cases slot.implementations.reverse <;> rfl

/-! ## Implementations before a class -/

variable {d c : Module}

theorem part_earlier (hnames : ∀ a b : Module, a.Part d → b.Part d → a.name = b.name → a = b) {a : Module}
    (h : a.Part c) {i : Nat} (hc : d.hierarchy[i]? = some c) : ∃ j ≤ i, d.hierarchy[j]? = some a := by
  induction h generalizing i with
  | self => exact ⟨i, Nat.le_refl i, hc⟩
  | base hb _ ih =>
    obtain ⟨j, hj, hbase⟩ := Module.bases_earlier hnames hc _ hb
    obtain ⟨k, hk, ha⟩ := ih hbase
    exact ⟨k, hk.trans hj.le, ha⟩

theorem before?_inherited (hnames : ∀ a b : Module, a.Part d → b.Part d → a.name = b.name → a = b)
    {i : Nat} (hc : d.hierarchy[i]? = some c) (hslot : (ofModule c).method? name = some slot)
    (hbefore : (slot.before? (ofModule c).ownPlace).isSome = true) :
    ∃ slot' ref, (ofModule d).method? name = some slot' ∧ slot'.before? i = some ref ∧ ref.cls < i ∧
      d.Implements name ref := by
  obtain ⟨found, hfound⟩ := Option.isSome_iff_exists.mp hbefore
  have hmem := List.mem_of_find?_eq_some hslot
  obtain ⟨rfl, -⟩ := (ofModule_lists c).method?_eq_some.mp hslot
  obtain ⟨⟨a, e, ha, he, hname⟩, hlt, -⟩ := before?_eq_some hmem hfound
  -- the class with the implementation is a part of a base of `c`, so that it stands before `c` here as well
  obtain ⟨before, hhierarchy, hparts⟩ := c.exists_hierarchy
  have hplace : found.cls < before.length := by
    simpa [ownPlace, hhierarchy] using hlt
  rw [hhierarchy, List.getElem?_append_left hplace] at ha
  obtain ⟨b, hb, hpart⟩ := hparts a (List.mem_of_getElem? ha)
  obtain ⟨j, hj, hbase⟩ := Module.bases_earlier hnames hc b hb
  obtain ⟨k, hk, hak⟩ := part_earlier hnames hpart hbase
  have himplements : d.Implements slot.name ⟨k, found.decl⟩ := ⟨a, e, hak, he, hname⟩
  obtain ⟨slot', hslot'⟩ := Option.isSome_iff_exists.mp (method?_isSome_iff.mpr ⟨_, himplements⟩)
  have hmem' := List.mem_of_find?_eq_some hslot'
  obtain ⟨hname', -⟩ := (ofModule_lists d).method?_eq_some.mp hslot'
  rw [← hname'] at himplements ⊢
  cases href : slot'.before? i with
  | none =>
    have hle : i ≤ k := (before?_eq_none hmem').mp href _ himplements
    omega
  | some ref =>
    obtain ⟨hfirst, hlt, -⟩ := before?_eq_some hmem' href
    exact ⟨slot', ref, method?_of_mem hmem', href, hlt, hfirst⟩

def porch (id : Nat) (name : String) : Module :=
  .sample id name [.wall] #[⟨"Shade", .generated, [], {}, none, .method ⟨"void", [], none⟩ [] none none⟩] [0]

def villa : Module := .sample 4 "Villa" [porch 2 "East", porch 3 "West"] #[] []

theorem villa_before?_inherited :
    (ofModule (porch 3 "West")).method? "Shade" = some ⟨"Shade", [⟨0, 3⟩, ⟨1, 0⟩]⟩ ∧
      (⟨"Shade", [⟨0, 3⟩, ⟨1, 0⟩]⟩ : MethodSlot).before? (ofModule (porch 3 "West")).ownPlace = some ⟨0, 3⟩ ∧
      ∃ slot', (ofModule villa).method? "Shade" = some slot' ∧ slot'.before? 2 = some ⟨1, 0⟩ ∧
        villa.Implements "Shade" ⟨1, 0⟩ := by
  have hnames := Module.eq_of_name_of_closed [.wall, porch 2 "East", porch 3 "West", villa]
    (by simp [Module.wall, porch, villa, Module.sample]) (by decide) (m := villa) (by simp)
  have hc : villa.hierarchy[2]? = some (porch 3 "West") := rfl
  have hslot : (ofModule (porch 3 "West")).method? "Shade" = some ⟨"Shade", [⟨0, 3⟩, ⟨1, 0⟩]⟩ := by decide +kernel
  have hbefore : (⟨"Shade", [⟨0, 3⟩, ⟨1, 0⟩]⟩ : MethodSlot).before? (ofModule (porch 3 "West")).ownPlace =
    some ⟨0, 3⟩ := by decide +kernel
  obtain ⟨slot', ref, hslot', href, -, himplements⟩ := before?_inherited hnames hc hslot (by rw [hbefore]; rfl)
  have hplace : ((ofModule villa).method? "Shade").bind (·.before? 2) = some ⟨1, 0⟩ := by decide +kernel
  rw [hslot', Option.bind_some, href] at hplace
  obtain rfl := Option.some.inj hplace
  exact ⟨hslot, hbefore, slot', hslot', href, himplements⟩

/-! ## What can be referred to -/

theorem structRef?_isSome {m : Module} {name : String} : ((ofModule m).structRef? name).isSome = true ↔
      ∃ a ∈ m.hierarchy, ∃ e ∈ a.cls.entries, e.2.isStruct = true ∧ e.2.name = name := by
  rw [(ofModule_records m).structs, Listing.first?_isSome]
  constructor
  · rintro ⟨⟨ref, d⟩, hd, hname⟩
    obtain ⟨cls, hcls, hd⟩ := mem_along.mp hd
    obtain ⟨a, ha, rfl⟩ := mem_map.mp (mem_of_getElem? hcls)
    obtain ⟨he, hstruct⟩ := mem_filter.mp hd
    exact ⟨a, ha, _, he, hstruct, hname⟩
  · rintro ⟨a, ha, ⟨id, d⟩, he, hstruct, hname⟩
    obtain ⟨place, hplace⟩ := mem_iff_getElem?.mp (mem_map_of_mem (f := Module.cls) ha)
    exact ⟨(⟨place, id⟩, d), mem_along.mpr ⟨a.cls, hplace, mem_filter.mpr ⟨he, hstruct⟩⟩, hname⟩

theorem method?_isSome {m : Module} {name : String} :
    ((ofModule m).method? name).isSome = true ↔ ∃ a ∈ m.hierarchy, ∃ e ∈ a.cls.methods, e.2.name = name := by
  rw [method?_isSome_iff]
  constructor
  · rintro ⟨ref, a, d, ha, hd, hname⟩
    exact ⟨a, mem_of_getElem? ha, _, hd, hname⟩
  · rintro ⟨a, ha, ⟨id, d⟩, hd, hname⟩
    obtain ⟨place, hplace⟩ := mem_iff_getElem?.mp ha
    exact ⟨⟨place, id⟩, a, d, hplace, hd, hname⟩

end MemberTable

namespace Tidy

variable {known : Module → Prop} {a m : Module} {name : String}

theorem hierarchy_subset (h : Tidy known) (hm : known m) (ha : a ∈ m.hierarchy) : a.hierarchy ⊆ m.hierarchy := by
  intro b hb
  have hpart := Module.part_of_mem_hierarchy ha
  refine Module.Part.mem_hierarchy ?_ ((Module.part_of_mem_hierarchy hb).trans hpart)
  exact fun x y hx hy => h.names x y (h.part hx hm) (h.part hy hm)

theorem method?_isSome (h : Tidy known) (hm : known m) (ha : a ∈ m.hierarchy)
    (hmethod : ((MemberTable.ofModule a).method? name).isSome = true) :
    ((MemberTable.ofModule m).method? name).isSome = true := by
  rw [MemberTable.method?_isSome] at hmethod ⊢
  obtain ⟨b, hb, he⟩ := hmethod
  exact ⟨b, h.hierarchy_subset hm ha hb, he⟩

theorem structRef?_isSome (h : Tidy known) (hm : known m) (ha : a ∈ m.hierarchy)
    (hstruct : ((MemberTable.ofModule a).structRef? name).isSome = true) :
    ((MemberTable.ofModule m).structRef? name).isSome = true := by
  rw [MemberTable.structRef?_isSome] at hstruct ⊢
  obtain ⟨b, hb, he⟩ := hstruct
  exact ⟨b, h.hierarchy_subset hm ha hb, he⟩

end Tidy

end ShaderCompose
