import ShaderCompose.Module.Copy
import ShaderCompose.Proofs.Module.Renumber
import ShaderCompose.Proofs.Pairs

/-!
What copies are.
-/

namespace ShaderCompose

open List

/-! ## Modules that are alike -/

namespace Module

def Alike (a b : Module) : Prop := a.renumber (fun _ => 0) = b.renumber fun _ => 0

variable {a b : Module}

theorem forall₂_alike {as bs : List Module} :
    List.Forall₂ Alike as bs ↔ as.map (renumber fun _ => 0) = bs.map (renumber fun _ => 0) := by
  rw [← forall₂_eq_eq_eq, forall₂_map_left_iff, forall₂_map_right_iff]
  rfl

theorem Alike.data (h : a.Alike b) : a.key = b.key ∧ a.cls = b.cls ∧ a.digest = b.digest :=
  ⟨by simpa using congrArg key h, by simpa using congrArg cls h, by simpa using congrArg digest h⟩

theorem Alike.bases (h : a.Alike b) : List.Forall₂ Alike a.bases b.bases :=
  forall₂_alike.mpr (by simpa using congrArg Module.bases h)

theorem alike_mk {id : Nat} {bases : List Module} (h : List.Forall₂ Alike bases b.bases) :
    Alike ⟨id, b.key, b.cls, bases, b.digest⟩ b := by
  cases b
  simp only [Alike, renumber, renumberAll_eq_map, forall₂_alike.mp h]

end Module

/-! ## What a scope knows -/

namespace CopyScope

variable {s : CopyScope} {ms ns late : List Module} {m : Module} {next : Nat}

@[simp] theorem find?_child (s : CopyScope) (id : Nat) : s.child.find? id = s.find? id := rfl

@[simp] theorem find?_keep (s : CopyScope) (m : Module) (n : Nat) :
    (s.keep m).find? n = if n = m.id then some m else s.find? n := by
  simp only [find?, keep, findSome?_cons]
  by_cases h : n = m.id <;> simp [h]

@[simp] theorem find?_record (s : CopyScope) (id : Nat) (copy : Module) (n : Nat) :
    (s.record id copy).find? n = if n = copy.id ∨ n = id then some copy else s.find? n := by
  simp only [find?, record, findSome?_cons]
  by_cases h : n = copy.id
  · simp [h]
  · by_cases h' : n = id <;> simp [h, h']

def number (s : CopyScope) (id : Nat) : Nat := ((s.find? id).map Module.id).getD id

theorem number_of_find {s : CopyScope} {id : Nat} {x : Module} (h : s.find? id = some x) : s.number id = x.id := by
  simp [number, h]

def Resolves (s : CopyScope) (late : List Module) (a x : Module) : Prop :=
  s.find? a.id = some x ∨ a ∈ late ∧ s.find? a.id = some a

/-- A copy is like its module, and so are its bases. -/
structure HasCopy (s : CopyScope) (ms late : List Module) (a x : Module) : Prop where
  among : x.Among ms
  alike : x.Alike a
  bases : List.Forall₂ (s.Resolves late) a.bases x.bases
  stable : s.find? x.id = some x

/-- What a scope knows about the modules of a collection. -/
structure Settled (s : CopyScope) (ms late : List Module) : Prop where
  copy : ∀ {a x : Module}, a.Among ms → s.find? a.id = some x → s.HasCopy ms late a x
  pair : ∀ {a b x : Module}, a.Among ms → b.Among ms → s.find? a.id = some x → s.find? b.id = some x →
    a = b ∨ a = x ∨ b = x

namespace Settled

theorem of_unknown (h : ∀ a : Module, a.Among ms → s.find? a.id = none) : s.Settled ms late where
  copy ha hx := by cases (h _ ha).symm.trans hx
  pair ha _ hx := by cases (h _ ha).symm.trans hx

theorem child (h : s.Settled ms late) : s.child.Settled ms late := by
  refine ⟨fun ha hx => ?_, h.pair⟩
  obtain ⟨among, alike, bases, stable⟩ := h.copy ha hx
  exact ⟨among, alike, bases, stable⟩

theorem of_among (h : s.Settled ms late) (hns : ∀ {a : Module}, a.Among ns → a.Among ms ∨ s.find? a.id = none)
    (hms : ∀ m ∈ ms, m.Among ns) {late' : List Module} (hlate : late ⊆ late') : s.Settled ns late' := by
  have known : ∀ {a x : Module}, a.Among ns → s.find? a.id = some x → a.Among ms := by
    intro a x ha hx
    exact (hns ha).resolve_right (by simp [hx])
  refine ⟨fun ha hx => ?_, fun ha hb hx hy => h.pair (known ha hx) (known hb hy) hx hy⟩
  obtain ⟨among, alike, bases, stable⟩ := h.copy (known ha hx) hx
  exact ⟨among.trans hms, alike, bases.imp fun _ _ => Or.imp_right (And.imp_left (@hlate _)), stable⟩

theorem keep (h : s.Settled ms late) (hnumbered : Module.Numbered next ms) (hm : m.Among ms)
    (hbases : m.bases = []) {late' : List Module} (hlate : late ⊆ late')
    (hknown : (s.find? m.id).isSome → m ∈ late') : (s.keep m).Settled ms late' := by
  have cases_find : ∀ {a x : Module}, a.Among ms → (s.keep m).find? a.id = some x →
      a = m ∧ x = m ∨ a.id ≠ m.id ∧ s.find? a.id = some x := by
    intro a x ha hx
    rw [find?_keep] at hx
    split at hx
    · next hid => exact .inl ⟨hnumbered.eq ha hm hid, (Option.some.inj hx).symm⟩
    · next hid => exact .inr ⟨hid, hx⟩
  have resolves : ∀ {a x : Module}, a.Among ms ∧ s.Resolves late a x → (s.keep m).Resolves late' a x := by
    rintro a x ⟨ha, hx⟩
    by_cases hid : a.id = m.id
    · obtain rfl := hnumbered.eq ha hm hid
      have hsome : (s.find? a.id).isSome := by rcases hx with hx | ⟨-, hx⟩ <;> simp [hx]
      exact .inr ⟨hknown hsome, by simp⟩
    · exact hx.imp (by simp [hid]) fun hx => ⟨hlate hx.1, by simpa [hid] using hx.2⟩
  refine ⟨fun ha hx => ?_, fun ha hb hx hy => ?_⟩
  · obtain ⟨rfl, rfl⟩ | ⟨-, hx⟩ := cases_find ha hx
    · exact ⟨hm, rfl, by simp [hbases], by simp⟩
    · obtain ⟨among, alike, hcopies, stable⟩ := h.copy ha hx
      refine ⟨among, alike, ?_, ?_⟩
      · exact ((forall₂_and_left _ _).mpr ⟨fun _ => ha.base, hcopies⟩).imp fun _ _ => resolves
      · rw [find?_keep]
        split
        · next hid => rw [hnumbered.eq among hm hid]
        · exact stable
  · obtain ⟨rfl, rfl⟩ | ⟨-, hx⟩ := cases_find ha hx
    · exact .inr (.inl rfl)
    · obtain ⟨rfl, rfl⟩ | ⟨-, hy⟩ := cases_find hb hy
      · exact .inr (.inr rfl)
      · exact h.pair ha hb hx hy

theorem record (h : s.Settled ms late) (hnumbered : Module.Numbered next ms) {bases : List Module}
    (hm : m.Among ms) (hnone : s.find? m.id = none)
    (hbases : List.Forall₂ (fun b x => s.find? b.id = some x) m.bases bases) {made : Module}
    (hmade : made = ⟨next, m.key, m.cls, bases, m.digest⟩) :
    (∀ {a x : Module}, a.Among ms → s.find? a.id = some x → (s.record m.id made).find? a.id = some x) ∧
    (∀ x ∈ bases, x.Among ms) ∧ (s.record m.id made).Settled (made :: ms) late := by
  have hid : made.id = next := by rw [hmade]
  have hsame : made.bases = bases := by rw [hmade]
  have hcopies := (forall₂_and_left _ _).mpr ⟨fun _ => hm.base, hbases⟩
  have hamong : ∀ x ∈ bases, x.Among ms := by
    intro x hx
    obtain ⟨b, -, hb, hx⟩ := mem_right_of_forall₂ hcopies hx
    exact (h.copy hb hx).among
  have kept : ∀ {a x : Module}, a.Among ms → s.find? a.id = some x → (s.record m.id made).find? a.id = some x := by
    intro a x ha hx
    have hne : ¬ (a.id = made.id ∨ a.id = m.id) := by
      rintro (hm | hm)
      · exact absurd (hnumbered.lt ha) (by omega)
      · simp [hm, hnone] at hx
    rw [find?_record, if_neg hne, hx]
  have self : ∀ {a : Module}, a = made ∨ a = m → (s.record m.id made).find? a.id = some made := by
    rintro a (rfl | rfl) <;> simp
  have cases_find : ∀ {a x : Module}, a.Among (made :: ms) → (s.record m.id made).find? a.id = some x →
      (a = made ∨ a = m) ∧ x = made ∨ a.Among ms ∧ s.find? a.id = some x := by
    intro a x ha hx
    by_cases hnew : a = made ∨ a = m
    · exact .inl ⟨hnew, (Option.some.inj ((self hnew).symm.trans hx)).symm⟩
    · obtain ⟨hne, hne'⟩ := not_or.mp hnew
      have ha := (ha.of_cons (hsame ▸ hamong)).resolve_left hne
      rw [find?_record, if_neg] at hx
      · exact .inr ⟨ha, hx⟩
      · rintro (hid' | hid')
        · exact absurd (hnumbered.lt ha) (by omega)
        · exact hne' (hnumbered.eq ha hm hid')
  refine ⟨kept, hamong, fun {a x} ha hx => ?_, fun ha' hb' hx' hy' => ?_⟩
  · obtain ⟨rfl | rfl, rfl⟩ | ⟨ha, hx⟩ := cases_find ha hx
    · refine ⟨ha, rfl, forall₂_same.mpr fun x hx => .inl ?_, hx⟩
      obtain ⟨b, -, hb, hx⟩ := mem_right_of_forall₂ hcopies (hsame ▸ hx)
      exact kept (h.copy hb hx).among (h.copy hb hx).stable
    · refine ⟨Module.among_of_mem mem_cons_self, ?_, ?_, by simp⟩
      · rw [hmade]
        exact Module.alike_mk (List.Forall₂.flip (hcopies.imp fun _ _ hx => (h.copy hx.1 hx.2).alike))
      · rw [hsame]
        exact hcopies.imp fun _ _ hx => .inl (kept hx.1 hx.2)
    · obtain ⟨among, alike, hcopies, stable⟩ := h.copy ha hx
      refine ⟨among.mono (subset_cons_self _ _), alike, ?_, kept among stable⟩
      refine ((forall₂_and_left _ _).mpr ⟨fun _ => ha.base, hcopies⟩).imp ?_
      exact fun b y hb => hb.2.imp (kept hb.1) fun hy => ⟨hy.1, kept hb.1 hy.2⟩
  · obtain ⟨ha, rfl⟩ | ⟨ha, hx⟩ := cases_find ha' hx'
    · obtain ⟨hb, -⟩ | ⟨hb, hy⟩ := cases_find hb' hy'
      · rcases ha with rfl | rfl
        · exact .inr (.inl rfl)
        · exact hb.elim (fun hb => .inr (.inr hb)) fun hb => .inl hb.symm
      · exact absurd (hnumbered.lt (h.copy hb hy).among) (by omega)
    · obtain ⟨-, rfl⟩ | ⟨hb, hy⟩ := cases_find hb' hy'
      · exact absurd (hnumbered.lt (h.copy ha hx).among) (by omega)
      · exact h.pair ha hb hx hy

variable (h : s.Settled ms [])

include h

theorem bases {a x : Module} (ha : a.Among ms) (hx : s.find? a.id = some x) :
    List.Forall₂ (fun b y => s.find? b.id = some y) a.bases x.bases :=
  (h.copy ha hx).bases.imp fun _ _ hy => hy.resolve_right (by simp)

theorem eq_renumber {a : Module} : ∀ {x}, a.Among ms → s.find? a.id = some x → x = a.renumber s.number := by
  induction a using Module.bases_induction with
  | step a ih =>
    intro x ha hx
    have hsame : x.bases = a.bases.map (Module.renumber s.number) := by
      rw [← forall₂_eq_eq_eq, forall₂_map_right_iff]
      refine List.Forall₂.flip (((forall₂_and_left _ _).mpr ⟨fun _ => id, h.bases ha hx⟩).imp ?_)
      exact fun b y hb => ih b hb.1 (ha.base hb.1) hb.2
    obtain ⟨hkey, hcls, hdigest⟩ := (h.copy ha hx).alike.data
    obtain ⟨id, key, cls, bases, digest⟩ := a
    obtain ⟨id', key', cls', bases', digest'⟩ := x
    simp_all [Module.renumber, Module.renumberAll_eq_map, number]

theorem closed {a b : Module} (ha : a.Among ms) (hsome : (s.find? a.id).isSome) (hb : b.Part a) :
    (s.find? b.id).isSome := by
  induction hb with
  | self => exact hsome
  | base hb _ ih =>
    obtain ⟨x, hx⟩ := Option.isSome_iff_exists.mp hsome
    obtain ⟨y, -, hy⟩ := mem_right_of_forall₂ (h.bases ha hx).flip hb
    exact ih (ha.base hb) (by simp [hy])

end Settled

end CopyScope

/-! ## Copying -/

namespace Copying

open CopyScope

structure Settles (ms late roots : List Module) (s : Copying) (copies : List Module) (t : Copying) : Prop where
  next : s.next ≤ t.next
  numbered : Module.Numbered t.next (copies ++ ms)
  settled : t.scope.Settled (copies ++ ms) late
  found : List.Forall₂ (fun m x => t.scope.find? m.id = some x) roots copies
  made : ∀ {a : Module}, a.Among copies → a.Among ms ∨ s.next ≤ a.id
  kept : ∀ {a x : Module}, a.Among ms → s.scope.find? a.id = some x → t.scope.find? a.id = some x
  fresh : ∀ {n : Nat} {x : Module}, t.scope.find? n = some x → s.scope.find? n = some x ∨
    (s.next ≤ x.id ∧ x.id < t.next) ∧ (s.next ≤ n ∧ n < t.next ∨ ∃ a : Module, a.id = n ∧ a.Among roots)

variable {ms late roots xs : List Module} {s t u : Copying} {m x : Module}

theorem Settles.cons (hm : m.Among ms) (h : Settles ms late [m] s [x] t)
    (h' : Settles (x :: ms) late roots t xs u) : Settles ms late (m :: roots) s (x :: xs) u := by
  have hsame : ∀ a, a ∈ xs ++ x :: ms ↔ a ∈ x :: xs ++ ms := by simp [or_left_comm]
  have hle := h.next
  have hle' := h'.next
  have first : ∀ {a : Module}, a.Part x → a.Among ms ∨ s.next ≤ a.id := fun ha => h.made ⟨x, mem_singleton_self x, ha⟩
  refine ⟨by omega, h'.numbered.subset fun a => (hsame a).mpr, h'.settled.of_among ?_ ?_ (List.Subset.refl _),
    ?_, ?_, ?_, ?_⟩
  · exact fun ha => .inl (ha.mono fun a => (hsame a).mpr)
  · exact fun a ha => Module.among_of_mem ((hsame a).mp ha)
  · refine .cons (h'.kept (hm.mono (subset_cons_self _ _)) (forall₂_cons.mp h.found).1) h'.found
  · rintro a ⟨r, hr, ha⟩
    rcases mem_cons.mp hr with rfl | hr
    · exact first ha
    · rcases h'.made ⟨r, hr, ha⟩ with ⟨n, hn, ha⟩ | hid
      · rcases mem_cons.mp hn with rfl | hn
        · exact first ha
        · exact .inl ⟨n, hn, ha⟩
      · exact .inr (by omega)
  · exact fun ha hx => h'.kept (ha.mono (subset_cons_self _ _)) (h.kept ha hx)
  · intro n y hy
    rcases h'.fresh hy with hy | ⟨hid, hn⟩
    · refine (h.fresh hy).imp_right (And.imp (fun hid => ⟨hid.1, by omega⟩) ?_)
      rintro (⟨hn, hn'⟩ | ⟨a, rfl, r, hr, ha⟩)
      · exact .inl ⟨hn, by omega⟩
      · exact .inr ⟨a, rfl, r, mem_cons.mpr (.inl (mem_singleton.mp hr)), ha⟩
    · refine .inr ⟨⟨by omega, hid.2⟩, ?_⟩
      rcases hn with ⟨hn, hn'⟩ | ⟨a, rfl, r, hr, ha⟩
      · exact .inl ⟨by omega, hn'⟩
      · exact .inr ⟨a, rfl, r, mem_cons_of_mem _ hr, ha⟩

theorem Settles.record (hnumbered : Module.Numbered s.next ms) (hm : m.Among ms)
    (hnone : s.scope.find? m.id = none) (h : Settles ms late m.bases s xs t) {made : Module}
    (hmade : made = ⟨t.next, m.key, m.cls, xs, m.digest⟩) :
    Settles ms late [m] s [made] ⟨t.scope.record m.id made, t.next + 1⟩ := by
  have hid : made.id = t.next := by rw [hmade]
  have hbases : made.bases = xs := by rw [hmade]
  have hle := h.next
  have hlt := hnumbered.lt hm
  have more : ∀ {a : Module}, a.Among ms → a.Among (xs ++ ms) := fun ha => ha.mono (subset_append_right _ _)
  have ht : t.scope.find? m.id = none := by
    refine Option.eq_none_iff_forall_ne_some.mpr fun x hx => ?_
    rcases h.fresh hx with hx | ⟨-, ⟨hn, -⟩ | ⟨a, ha, b, hb, hpart⟩⟩
    · simp [hnone] at hx
    · omega
    · obtain rfl := hnumbered.eq (hm.part (.base hb hpart)) hm ha
      exact Module.not_part_of_base hb hpart
  obtain ⟨kept, hamong, hsettled⟩ := h.settled.record h.numbered (more hm) ht h.found hmade
  have parts : ∀ a ∈ made :: (xs ++ ms), a.Among ([made] ++ ms) := by
    intro a ha
    rcases mem_cons.mp ha with rfl | ha
    · exact Module.among_of_mem mem_cons_self
    · rcases mem_append.mp ha with ha | ha
      · exact ⟨made, mem_cons_self, .base (hbases ▸ ha) (.self a)⟩
      · exact Module.among_of_mem (mem_cons_of_mem _ ha)
  have fewer : [made] ++ ms ⊆ made :: (xs ++ ms) := cons_subset_cons _ (subset_append_right _ _)
  refine ⟨by dsimp only; omega, (h.numbered.extend hid (hbases ▸ hamong)).subset fewer,
    hsettled.of_among (fun ha => .inl (ha.mono fewer)) parts (List.Subset.refl _), .cons (by simp) .nil,
    ?_, ?_, ?_⟩
  · rintro a ⟨r, hr, ha⟩
    obtain rfl := mem_singleton.mp hr
    rcases Module.part_iff.mp ha with rfl | ⟨b, hb, ha⟩
    · exact .inr (by omega)
    · exact h.made ⟨b, hbases ▸ hb, ha⟩
  · exact fun ha hx => kept (more ha) (h.kept ha hx)
  · intro n x hx
    rw [find?_record] at hx
    split at hx
    · next hn =>
      obtain rfl := Option.some.inj hx
      refine .inr ⟨⟨by omega, by dsimp only; omega⟩, hn.imp (fun hn => ⟨by omega, by dsimp only; omega⟩) fun hn => ?_⟩
      exact ⟨m, hn.symm, Module.among_of_mem (mem_singleton_self m)⟩
    · refine (h.fresh hx).imp_right (And.imp (And.imp_right Nat.lt_succ_of_lt)
        (Or.imp (And.imp_right Nat.lt_succ_of_lt) ?_))
      rintro ⟨a, rfl, b, hb, ha⟩
      exact ⟨a, rfl, m, mem_singleton_self m, .base hb ha⟩

end Copying

namespace Module

open Copying

variable {late : List Module}

mutual

theorem copy_settles : ∀ (m : Module) (s : Copying) {ms : List Module}, m.Among ms → Numbered s.next ms →
    s.scope.Settled ms late → Settles ms late [m] s [(m.copy s).1] (m.copy s).2
  | ⟨id, key, cls, bases, digest⟩, s, ms, hm, hnumbered, hs => by
    unfold copy
    cases hx : s.scope.find? id with
    | some x =>
      have hamong : ∀ a ∈ [x] ++ ms, a.Among ms := forall_mem_cons.mpr ⟨(hs.copy hm hx).among, fun _ => among_of_mem⟩
      refine ⟨Nat.le_refl _, hnumbered.of_among hamong, hs.of_among (fun ha => .inl (ha.trans hamong)) ?_
        (List.Subset.refl _), .cons hx .nil, ?_, fun _ hx => hx, .inl⟩
      · exact fun a ha => among_of_mem (mem_cons_of_mem _ ha)
      · exact fun ha => .inl (ha.trans fun a ha => hamong a (mem_append_left _ ha))
    | none => exact (copyAll_settles bases s (fun _ => hm.base) hnumbered hs).record hnumbered hm hx rfl

theorem copyAll_settles : ∀ (roots : List Module) (s : Copying) {ms : List Module},
    (∀ m ∈ roots, m.Among ms) → Numbered s.next ms → s.scope.Settled ms late →
    Settles ms late roots s (copyAll roots s).1 (copyAll roots s).2
  | [], s, _, _, hnumbered, hs =>
    ⟨Nat.le_refl _, hnumbered, hs, .nil, fun ha => .inl (ha.mono (nil_subset _)), fun _ hx => hx, .inl⟩
  | m :: roots, s, ms, hroots, hnumbered, hs => by
    obtain ⟨hm, hroots⟩ := forall_mem_cons.mp hroots
    have first := copy_settles m s hm hnumbered hs
    exact first.cons hm (copyAll_settles roots (m.copy s).2
      (fun n hn => (hroots n hn).mono (subset_cons_self _ _)) first.numbered first.settled)

end

end Module

/-! ## Copying as renumbering -/

namespace Copying

def Coherent (ms : List Module) (s : Copying) : Prop :=
  ∃ ns, (∀ m ∈ ms, m.Among ns) ∧ Module.Numbered s.next ns ∧ s.scope.Settled ns []

/-- Copies of all parts, the new ones with fresh numbers. -/
structure Copied (ms roots : List Module) (s : Copying) (copies : List Module) (t : Copying) : Prop where
  coherent : t.Coherent ms
  next : s.next ≤ t.next
  kept : ∀ (a x : Module), a.Among ms → s.scope.find? a.id = some x → t.scope.find? a.id = some x
  fresh : ∀ (a x : Module), a.Among ms → s.scope.find? a.id = none → t.scope.find? a.id = some x →
    s.next ≤ x.id ∧ x.id < t.next ∧ a.Among roots
  copies : copies = roots.map (Module.renumber t.scope.number)
  recorded : ∀ m ∈ roots, ∀ a : Module, a.Part m → (t.scope.find? a.id).isSome

variable {ms roots copies : List Module} {s t : Copying}

theorem Coherent.of_unrecorded (hnumbered : Module.Numbered s.next ms)
    (h : ∀ a : Module, a.Among ms → s.scope.find? a.id = none) : s.Coherent ms :=
  ⟨ms, fun _ => Module.among_of_mem, hnumbered, .of_unknown h⟩

theorem Coherent.child (h : s.Coherent ms) {next : Nat} (hnext : s.next ≤ next) :
    Coherent ms ⟨s.scope.child, next⟩ := by
  obtain ⟨ns, hms, hnumbered, hs⟩ := h
  exact ⟨ns, hms, hnumbered.mono hnext, hs.child⟩

theorem Settles.copied {ns : List Module} (hms : ∀ m ∈ ms, m.Among ns) (hroots : ∀ m ∈ roots, m.Among ms)
    (hnumbered : Module.Numbered s.next ns) (h : Settles ns [] roots s copies t) :
    Copied ms roots s copies t := by
  have among : ∀ {a : Module}, a.Among ms → a.Among ns := fun ha => ha.trans hms
  have more : ∀ {a : Module}, a.Among ns → a.Among (copies ++ ns) := fun ha => ha.mono (subset_append_right _ _)
  refine ⟨⟨_, fun m hm => more (hms m hm), h.numbered, h.settled⟩, h.next, ?_, ?_, ?_, ?_⟩
  · exact fun a x ha => h.kept (among ha)
  · intro a x ha hnone hx
    obtain ⟨hid, hn⟩ := (h.fresh hx).resolve_left (by simp [hnone])
    refine ⟨hid.1, hid.2, ?_⟩
    rcases hn with ⟨hn, -⟩ | ⟨b, hb, m, hm, hpart⟩
    · exact absurd (hnumbered.lt (among ha)) (by omega)
    · obtain rfl := hnumbered.eq (among ((hroots m hm).part hpart)) (among ha) hb
      exact ⟨m, hm, hpart⟩
  · rw [← forall₂_eq_eq_eq, forall₂_map_right_iff]
    refine List.Forall₂.flip (((forall₂_and_left _ _).mpr ⟨hroots, h.found⟩).imp ?_)
    exact fun a x hx => h.settled.eq_renumber (more (among hx.1)) hx.2
  · intro m hm a ha
    obtain ⟨x, -, hx⟩ := mem_right_of_forall₂ h.found.flip hm
    exact h.settled.closed (more (among (hroots m hm))) (by simp [hx]) ha

end Copying

namespace Module

open Copying

theorem copyAll_spec {ms roots : List Module} {s : Copying} (hroots : ∀ m ∈ roots, m.Among ms)
    (h : s.Coherent ms) : Copied ms roots s (copyAll roots s).1 (copyAll roots s).2 := by
  obtain ⟨ns, hms, hnumbered, hs⟩ := h
  exact (copyAll_settles roots s (fun m hm => (hroots m hm).trans hms) hnumbered hs).copied hms hroots hnumbered

theorem copy_spec {ms : List Module} {m : Module} {s : Copying} (hm : m.Among ms) (h : s.Coherent ms) :
    Copied ms [m] s [(m.copy s).1] (m.copy s).2 :=
  copyAll_spec (forall_mem_singleton.mpr hm) h

end Module

end ShaderCompose
