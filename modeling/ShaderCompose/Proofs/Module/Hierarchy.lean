import Mathlib.Data.List.Nodup
import ShaderCompose.Proofs.Module.Renumber

/-!
The hierarchy of a module has each class once and ends with the module.
-/

namespace ShaderCompose.Module

open List

/-- A walk goes on with classes that are new to it. -/
structure Walk.Grows (w w' : Walk) (new : List Module) : Prop where
  done : w'.done = w.done ++ new
  nodup : (new.map Module.name).Nodup
  seen : ∀ n, n ∈ w'.seen ↔ n ∈ w.seen ∨ ∃ a ∈ new, a.name = n
  fresh : ∀ a ∈ new, a.name ∉ w.seen
  bases : ∀ a ∈ new, ∀ b ∈ a.bases, b.name ∈ w'.seen

namespace Walk.Grows

theorem refl (w : Walk) : w.Grows w [] := ⟨by simp, by simp, by simp, forall_mem_nil _, forall_mem_nil _⟩

theorem trans {u v w : Walk} {new more : List Module} (h : u.Grows v new) (h' : v.Grows w more) :
    u.Grows w (new ++ more) where
  done := by rw [h'.done, h.done, append_assoc]
  nodup := by
    rw [map_append]
    refine List.Nodup.append h.nodup h'.nodup fun n hnew hmore => ?_
    obtain ⟨a, ha, hname⟩ := mem_map.mp hnew
    obtain ⟨b, hb, rfl⟩ := mem_map.mp hmore
    exact h'.fresh b hb ((h.seen _).mpr (.inr ⟨a, ha, hname⟩))
  seen n := by
    rw [h'.seen, h.seen]
    simp [or_and_right, exists_or, or_assoc]
  fresh a ha := by
    rcases mem_append.mp ha with ha | ha
    · exact h.fresh a ha
    · exact fun hseen => h'.fresh a ha ((h.seen _).mpr (.inl hseen))
  bases a ha b hb := by
    rcases mem_append.mp ha with ha | ha
    · exact (h'.seen _).mpr (.inl (h.bases a ha b hb))
    · exact h'.bases a ha b hb

theorem enter {w v : Walk} {m : Module} {new : List Module} (hfresh : m.name ∉ w.seen)
    (h : ({ w with seen := m.name :: w.seen } : Walk).Grows v new)
    (hbases : ∀ b ∈ m.bases, b.name ∈ v.seen) :
    w.Grows { v with done := v.done ++ [m] } (new ++ [m]) where
  done := by rw [h.done, append_assoc]
  nodup := by
    rw [map_append]
    refine List.Nodup.append h.nodup (nodup_singleton _) fun n hnew hm => ?_
    obtain ⟨a, ha, rfl⟩ := mem_map.mp hnew
    exact h.fresh a ha (mem_cons.mpr (.inl (mem_singleton.mp hm)))
  seen n := by
    rw [h.seen, mem_cons]
    simp only [mem_append, mem_singleton, or_and_right, exists_or, exists_eq_left, eq_comm (a := n)]
    rw [or_comm (a := m.name = n), or_assoc, or_comm (a := m.name = n)]
  fresh a ha := by
    rcases mem_append.mp ha with ha | ha
    · exact fun hseen => h.fresh a ha (mem_cons_of_mem _ hseen)
    · rwa [mem_singleton.mp ha]
  bases a ha := by
    rcases mem_append.mp ha with ha | ha
    · exact h.bases a ha
    · rwa [mem_singleton.mp ha]

end Walk.Grows

mutual

theorem visit_grows : ∀ (m : Module) (w : Walk), (∃ new, w.Grows (m.visit w) new) ∧ m.name ∈ (m.visit w).seen
  | ⟨id, key, cls, bases, digest⟩, w => by
    simp only [visit]
    split
    · next hseen => exact ⟨⟨[], .refl w⟩, contains_iff_mem.mp hseen⟩
    · next hseen =>
      obtain ⟨⟨new, hnew⟩, hbases⟩ := visitAll_grows bases { w with seen := cls.name :: w.seen }
      refine ⟨⟨_, .enter (m := ⟨id, key, cls, bases, digest⟩) ?_ hnew hbases⟩, ?_⟩
      · exact fun hmem => hseen (contains_iff_mem.mpr hmem)
      · exact (hnew.seen _).mpr (.inl mem_cons_self)

theorem visitAll_grows : ∀ (ms : List Module) (w : Walk),
    (∃ new, w.Grows (visitAll ms w) new) ∧ ∀ m ∈ ms, m.name ∈ (visitAll ms w).seen
  | [], w => ⟨⟨[], .refl w⟩, forall_mem_nil _⟩
  | m :: ms, w => by
    obtain ⟨⟨new, hnew⟩, hm⟩ := visit_grows m w
    obtain ⟨⟨more, hmore⟩, hms⟩ := visitAll_grows ms (m.visit w)
    refine ⟨⟨new ++ more, hnew.trans hmore⟩, forall_mem_cons.mpr ⟨?_, hms⟩⟩
    exact (hmore.seen _).mpr (.inl hm)

end

theorem grows_hierarchy (m : Module) : ({} : Walk).Grows (m.visit {}) m.hierarchy := by
  obtain ⟨⟨new, hnew⟩, -⟩ := visit_grows m {}
  have hsame : m.hierarchy = new := hnew.done
  rwa [hsame]

theorem nodup_hierarchy (m : Module) : (m.hierarchy.map Module.name).Nodup := m.grows_hierarchy.nodup

theorem base_inherited {m a b : Module} (ha : a ∈ m.hierarchy) (hb : b ∈ a.bases) :
    ∃ c ∈ m.hierarchy, c.name = b.name := by
  have hseen := m.grows_hierarchy.bases a ha b hb
  exact ((m.grows_hierarchy.seen _).mp hseen).resolve_left not_mem_nil

theorem exists_hierarchy (m : Module) :
    ∃ before, m.hierarchy = before ++ [m] ∧ ∀ a ∈ before, ∃ b ∈ m.bases, Part a b := by
  obtain ⟨id, key, cls, bases, digest⟩ := m
  refine ⟨(visitAll bases { seen := [cls.name] }).done, by simp [hierarchy, visit], fun a ha => ?_⟩
  exact (visitAll_done bases _ ha).resolve_left not_mem_nil

variable {m : Module}

theorem Part.mem_hierarchy
    (hnames : ∀ a b, Part a m → Part b m → a.name = b.name → a = b) {a : Module} (h : Part a m) :
    a ∈ m.hierarchy := by
  -- the bases of a module of the hierarchy are in it, so the parts of such a module are
  have parts : ∀ {a b : Module}, Part a b → b ∈ m.hierarchy → a ∈ m.hierarchy := by
    intro a b hpart
    induction hpart with
    | self => exact fun h => h
    | @base c b hc _ ih =>
      intro hb
      obtain ⟨d, hd, hname⟩ := base_inherited hb hc
      have hcm : Part c m := Part.trans (.base hc (.self c)) (part_of_mem_hierarchy hb)
      rw [← hnames d c (part_of_mem_hierarchy hd) hcm hname] at ih
      exact ih hd
  exact parts h (self_mem_hierarchy m)

/-! ## The order -/

def BasesFirst (ms : List Module) : Prop :=
  ∀ (i : Nat) (a : Module), ms[i]? = some a → ∀ b ∈ a.bases, b.name ∈ (ms.take i).map Module.name

theorem BasesFirst.snoc {ms : List Module} (h : BasesFirst ms)
    (hbases : ∀ b ∈ m.bases, b.name ∈ ms.map Module.name) : BasesFirst (ms ++ [m]) := by
  intro i a ha
  rcases Nat.lt_trichotomy i ms.length with hlt | rfl | hlt
  · rw [getElem?_append_left hlt] at ha
    rw [take_append_of_le_length hlt.le]
    exact h i a ha
  · obtain rfl : m = a := by simpa using ha
    simpa using hbases
  · simp [getElem?_append_right hlt.le, Nat.sub_ne_zero_of_lt hlt] at ha

/-- A class that was met is done or pending. -/
structure Walk.Ordered (pending : List String) (w : Walk) : Prop where
  first : BasesFirst w.done
  seen : ∀ n ∈ w.seen, n ∈ w.done.map Module.name ∨ n ∈ pending

mutual

theorem visit_ordered : ∀ (m : Module) (w : Walk) (pending : List String),
    (∀ a b, Part a m → Part b m → a.name = b.name → a = b) → (∀ a, Part a m → a.name ∉ pending) →
    w.Ordered pending → (m.visit w).Ordered pending
  | ⟨id, key, cls, bases, digest⟩, w, pending, hnames, hpending, h => by
    simp only [visit]
    split
    · exact h
    · set m : Module := ⟨id, key, cls, bases, digest⟩
      -- a part of a base is not the module itself, so it has another name
      have hbelow : ∀ b ∈ bases, ∀ a, Part a b → a.name ∉ cls.name :: pending := by
        intro b hb a ha hmem
        rcases mem_cons.mp hmem with hname | hmem
        · obtain rfl := hnames a m (.base hb ha) (.self m) hname
          exact not_part_of_base hb ha
        · exact hpending a (.base hb ha) hmem
      have hdone := visitAll_ordered bases { w with seen := cls.name :: w.seen } (cls.name :: pending)
        (by rintro a b ⟨c, hc, ha⟩ ⟨d, hd, hb⟩; exact hnames a b (.base hc ha) (.base hd hb)) hbelow ⟨h.first, ?_⟩
      · have hseen := (visitAll_grows bases { w with seen := cls.name :: w.seen }).2
        refine ⟨hdone.first.snoc fun b hb => ?_, fun n hn => ?_⟩
        · exact (hdone.seen _ (hseen b hb)).resolve_right (hbelow b hb b (.self b))
        · rw [map_append, mem_append]
          rcases hdone.seen n hn with hn | hn
          · exact .inl (.inl hn)
          · rcases mem_cons.mp hn with rfl | hn
            · exact .inl (.inr mem_cons_self)
            · exact .inr hn
      · intro n hn
        rcases mem_cons.mp hn with rfl | hn
        · exact .inr mem_cons_self
        · exact (h.seen n hn).imp_right (mem_cons_of_mem _)

theorem visitAll_ordered : ∀ (ms : List Module) (w : Walk) (pending : List String),
    (∀ a b, (∃ m ∈ ms, Part a m) → (∃ m ∈ ms, Part b m) → a.name = b.name → a = b) →
    (∀ m ∈ ms, ∀ a, Part a m → a.name ∉ pending) → w.Ordered pending → (visitAll ms w).Ordered pending
  | [], _, _, _, _, h => h
  | m :: ms, w, pending, hnames, hpending, h => by
    have hm := visit_ordered m w pending (fun a b ha hb => hnames a b ⟨m, mem_cons_self, ha⟩ ⟨m, mem_cons_self, hb⟩)
      (hpending m mem_cons_self) h
    refine visitAll_ordered ms (m.visit w) pending ?_ (fun n hn => hpending n (mem_cons_of_mem _ hn)) hm
    rintro a b ⟨c, hc, ha⟩ ⟨d, hd, hb⟩
    exact hnames a b ⟨c, mem_cons_of_mem _ hc, ha⟩ ⟨d, mem_cons_of_mem _ hd, hb⟩

end

theorem bases_earlier (hnames : ∀ a b, Part a m → Part b m → a.name = b.name → a = b) {i : Nat}
    {a : Module} (ha : m.hierarchy[i]? = some a) : ∀ b ∈ a.bases, ∃ j < i, m.hierarchy[j]? = some b := by
  intro b hb
  have hordered := visit_ordered m {} [] hnames (fun _ _ => not_mem_nil)
    ⟨fun i a ha => by simp at ha, fun n hn => absurd hn not_mem_nil⟩
  obtain ⟨c, hc, hname⟩ := mem_map.mp (hordered.first i a ha b hb)
  obtain ⟨j, hj, hc⟩ := mem_take_iff_getElem.mp hc
  have hcj : m.hierarchy[j]? = some c := hc ▸ getElem?_eq_getElem _
  have hpart := part_of_mem_hierarchy (mem_of_getElem? ha)
  refine ⟨j, by omega, hcj.trans (congrArg some (hnames c b ?_ (Part.trans (.base hb (.self b)) hpart) hname))⟩
  exact part_of_mem_hierarchy (mem_of_getElem? hcj)

/-- Every name once, bases before what inherits from them, and the module itself last. -/
theorem hierarchy_topological {m : Module}
    (hnames : ∀ a b, Part a m → Part b m → a.name = b.name → a = b) :
    (m.hierarchy.map Module.name).Nodup ∧
    (∀ name, name ∈ m.hierarchy.map Module.name ↔ ∃ a, Part a m ∧ a.name = name) ∧
    m.hierarchy.getLast? = some m ∧
    ∀ (i : Nat) (a : Module), m.hierarchy[i]? = some a → ∀ b ∈ a.bases, ∃ j < i, m.hierarchy[j]? = some b := by
  refine ⟨m.nodup_hierarchy, fun name => ?_, ?_, fun i a ha => bases_earlier hnames ha⟩
  · rw [List.mem_map]
    constructor
    · rintro ⟨a, ha, rfl⟩
      exact ⟨a, part_of_mem_hierarchy ha, rfl⟩
    · rintro ⟨a, ha, rfl⟩
      exact ⟨a, ha.mem_hierarchy hnames, rfl⟩
  · obtain ⟨before, hbefore, -⟩ := m.exists_hierarchy
    simp [hbefore]

/-! ## A hierarchy with a class that is reached on two ways -/

theorem eq_of_name_of_closed (ms : List Module) (hbases : ∀ a ∈ ms, a.bases ⊆ ms)
    (hnodup : (ms.map Module.name).Nodup) (hm : m ∈ ms) :
    ∀ a b, Part a m → Part b m → a.name = b.name → a = b := by
  have hparts : ∀ {a m}, Part a m → m ∈ ms → a ∈ ms := by
    intro a m h
    induction h with
    | self => exact fun hm => hm
    | base hb _ ih => exact fun hm => ih (hbases _ hm hb)
  exact fun a b ha hb => inj_on_of_nodup_map hnodup (hparts ha hm) (hparts hb hm)

def sample (id : Nat) (name : String) (bases : List Module) (table : Array Decl) (members : List DeclId) : Module :=
  ⟨id, ⟨name, [], []⟩, { name, loc := .generated, table, members }, bases, default⟩

def sampleVar (name : String) : Decl := { name, loc := .generated, kind := .var ⟨"float", [], none⟩ none none }

def wall : Module :=
  sample 1 "Wall" [] #[sampleVar "Color", { name := "PerDraw", loc := .generated, kind := .buffer .constant [0] },
    { name := "Brick", loc := .generated, kind := .struct [] },
    { name := "Shade", loc := .generated, kind := .method ⟨"void", [], none⟩ [] none none }] [1, 2, 3]

def gable (id : Nat) (name var : String) : Module := sample id name [wall] #[sampleVar var] [0]

def house : Module :=
  sample 4 "House" [gable 2 "Left" "Ivy", gable 3 "Right" "Moss"]
    #[{ name := "Roof", loc := .generated, kind := .struct [] }] [0]

theorem house_names : ∀ a b, Part a house → Part b house → a.name = b.name → a = b :=
  eq_of_name_of_closed [wall, gable 2 "Left" "Ivy", gable 3 "Right" "Moss", house]
    (by simp [wall, gable, house, sample]) (by decide) (by simp)

theorem house_topological : (house.hierarchy.map Module.name = ["Wall", "Left", "Right", "House"]) ∧
    ∀ (i : Nat) (a : Module), house.hierarchy[i]? = some a → ∀ b ∈ a.bases, ∃ j < i, house.hierarchy[j]? = some b :=
  ⟨by decide, (hierarchy_topological house_names).2.2.2⟩

end ShaderCompose.Module
