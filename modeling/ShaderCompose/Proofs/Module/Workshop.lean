import ShaderCompose.Proofs.Module.Copy
import ShaderCompose.Proofs.Module.Hierarchy
import ShaderCompose.Proofs.Module.Table

/-!
Modules and scopes in the course of time.
-/

namespace ShaderCompose

open List Relation

def Module.follow : List Nat → Module → Option Module
  | [], m => some m
  | i :: path, m => m.bases[i]?.bind (follow path)

/-- A scope, and the modules kept in it after they had a copy there. -/
structure OpenScope where
  scope : CopyScope := {}
  late : List Module := []

/-- All modules, the open scopes, and the next number. -/
structure Workshop where
  modules : List Module := []
  scopes : List OpenScope := []
  next : Nat

namespace Workshop

def site (w : Workshop) (i : Nat) : OpenScope := w.scopes[i]?.getD {}

def scope (w : Workshop) (i : Nat) : CopyScope := (w.site i).scope

def late (w : Workshop) (i : Nat) : List Module := (w.site i).late

def child (w : Workshop) (i : Nat) : OpenScope := ⟨(w.scope i).child, w.late i⟩

def make (w : Workshop) (m : Module) : Workshop := { w with modules := m :: w.modules, next := w.next + 1 }

def opened (w : Workshop) (s : OpenScope) : Workshop := { w with scopes := w.scopes ++ [s] }

def keep (w : Workshop) (i : Nat) (m : Module) : Workshop :=
  let late := if ((w.scope i).find? m.id).isSome then m :: w.late i else w.late i
  { w with scopes := w.scopes.set i ⟨(w.scope i).keep m, late⟩ }

def copy (w : Workshop) (i : Nat) (m : Module) : Module × Workshop :=
  let made := m.copy ⟨w.scope i, w.next⟩
  (made.1, { w with
    modules := made.1 :: w.modules, scopes := w.scopes.set i ⟨made.2.scope, w.late i⟩, next := made.2.next })

inductive Step : Workshop → Workshop → Prop
  | make {w : Workshop} {m : Module} : m.id = w.next → (∀ b ∈ m.bases, b.Among w.modules) → Step w (w.make m)
  | opens {w : Workshop} {s : OpenScope} : (s = {} ∨ ∃ i, s = w.site i ∨ s = w.child i) → Step w (w.opened s)
  | keep {w : Workshop} {i : Nat} {m : Module} : i < w.scopes.length → m.Among w.modules → m.bases = [] →
      Step w (w.keep i m)
  | copy {w : Workshop} {i : Nat} {m : Module} : i < w.scopes.length → m.Among w.modules → Step w (w.copy i m).2

def Later : Workshop → Workshop → Prop := ReflTransGen Step

def Reachable (w : Workshop) : Prop := ∃ next, Later { next } w

structure Sound (w : Workshop) : Prop where
  numbered : Module.Numbered w.next w.modules
  settled : ∀ i, (w.scope i).Settled w.modules (w.late i)
  known : ∀ {i n : Nat} {x : Module}, (w.scope i).find? n = some x → n < w.next ∧ x.id < w.next
  bare : ∀ i, ∀ m ∈ w.late i, m.bases = []

/-- A step changes one scope at most. -/
structure Change (w v : Workshop) (k : Nat) : Prop where
  next : w.next ≤ v.next
  numbered : Module.Numbered v.next v.modules
  modules : ∀ m ∈ w.modules, m.Among v.modules
  made : ∀ {a : Module}, a.Among v.modules → a.Among w.modules ∨ w.next ≤ a.id
  late : w.late k ⊆ v.late k
  bare : ∀ m ∈ v.late k, m.bases = []
  scopes : w.scopes.length ≤ v.scopes.length
  others : ∀ i, i ≠ k → v.site i = w.site i
  settled : (v.scope k).Settled v.modules (v.late k)
  known : ∀ {n : Nat} {x : Module}, (v.scope k).find? n = some x → n < v.next ∧ x.id < v.next
  kept : ∀ {a x : Module}, a.Among w.modules → (w.scope k).find? a.id = some x →
    (v.scope k).Resolves (v.late k) a x
  fresh : k < w.scopes.length → ∀ {n : Nat} {x : Module}, (v.scope k).find? n = some x →
    (w.scope k).find? n = some x ∨ w.next ≤ x.id ∨ x.id = n

variable {w v u : Workshop} {i j k : Nat} {s : OpenScope} {m n a x : Module}

theorem site_set {ms : List Module} {next : Nat} (hk : k < w.scopes.length) :
    site ⟨ms, w.scopes.set k s, next⟩ i = if i = k then s else w.site i := by
  by_cases h : i = k
  · simp [site, h, hk]
  · simp [site, h, getElem?_set_ne (Ne.symm h)]

theorem site_opened : (w.opened s).site i = if i = w.scopes.length then s else w.site i := by
  by_cases h : i = w.scopes.length
  · simp [site, opened, h]
  · rcases Nat.lt_or_gt_of_ne h with h' | h'
    · simp [site, opened, h, getElem?_append_left h']
    · have hmore : (w.scopes ++ [s]).length ≤ i := by simpa using Nat.succ_le_of_lt h'
      simp [site, opened, h, getElem?_eq_none hmore, getElem?_eq_none (Nat.le_of_lt h')]

theorem site_length (w : Workshop) : w.site w.scopes.length = {} := by simp [site]

namespace Sound

variable (hw : w.Sound)

include hw

theorem make (hid : m.id = w.next) (hbases : ∀ b ∈ m.bases, b.Among w.modules) :
    w.Change (w.make m) w.scopes.length := by
  have hempty : (w.make m).scope w.scopes.length = {} := congrArg OpenScope.scope (site_length w)
  refine ⟨Nat.le_succ _, hw.numbered.extend hid hbases, ?_, ?_, List.Subset.refl _, hw.bare _, Nat.le_refl _,
    fun i _ => rfl, ?_, ?_, ?_, fun hk => absurd hk (Nat.lt_irrefl _)⟩
  · exact fun n hn => Module.among_of_mem (mem_cons_of_mem _ hn)
  · exact fun ha => (ha.of_cons hbases).elim (fun ha => .inr (by rw [ha, hid])) .inl
  · rw [hempty]
    exact .of_unknown fun _ _ => rfl
  · rw [hempty]
    rintro _ _ ⟨⟩
  · rw [scope, site_length]
    rintro _ _ _ ⟨⟩

theorem opened (hs : s = {} ∨ ∃ i, s = w.site i ∨ s = w.child i) :
    w.Change (w.opened s) w.scopes.length := by
  have hopen : (w.opened s).site w.scopes.length = s := by simp [site_opened]
  refine ⟨Nat.le_refl _, hw.numbered, fun _ => Module.among_of_mem, .inl, ?_, ?_, by simp [Workshop.opened],
    fun i hi => by rw [site_opened, if_neg hi], ?_, ?_, ?_, fun hk => absurd hk (Nat.lt_irrefl _)⟩
  · rw [late, site_length]
    exact nil_subset _
  · rw [late, hopen]
    obtain rfl | ⟨i, rfl | rfl⟩ := hs
    · exact forall_mem_nil _
    · exact hw.bare i
    · exact hw.bare i
  · rw [scope, late, hopen]
    obtain rfl | ⟨i, rfl | rfl⟩ := hs
    · exact .of_unknown fun _ _ => rfl
    · exact hw.settled i
    · exact (hw.settled i).child
  · rw [scope, hopen]
    intro n x hx
    obtain rfl | ⟨i, rfl | rfl⟩ := hs
    · cases hx
    · exact hw.known hx
    · exact hw.known hx
  · rw [scope, site_length]
    rintro _ _ _ ⟨⟩

theorem keep (hi : i < w.scopes.length) (hm : m.Among w.modules) (hbases : m.bases = []) :
    w.Change (w.keep i m) i := by
  have hkeep : ∀ j, (w.keep i m).site j = if j = i then _ else w.site j := fun j => site_set hi
  have hscope : (w.keep i m).scope i = (w.scope i).keep m := by rw [scope, hkeep, if_pos rfl]
  have hlate : w.late i ⊆ (w.keep i m).late i ∧ (∀ a ∈ (w.keep i m).late i, a.bases = []) ∧
      (((w.scope i).find? m.id).isSome → m ∈ (w.keep i m).late i) := by
    rw [late, late, hkeep, if_pos rfl]
    dsimp only
    split
    · exact ⟨subset_cons_self _ _, forall_mem_cons.mpr ⟨hbases, hw.bare i⟩, fun _ => mem_cons_self⟩
    · next hnone => exact ⟨List.Subset.refl _, hw.bare i, fun hsome => absurd hsome hnone⟩
  obtain ⟨hlate, hbare, hknown⟩ := hlate
  refine ⟨Nat.le_refl _, hw.numbered, fun _ => Module.among_of_mem, .inl, hlate, hbare,
    by simp [Workshop.keep], fun j hj => by rw [hkeep, if_neg hj], ?_, ?_, ?_, ?_⟩
  all_goals rw [hscope]
  · exact (hw.settled i).keep hw.numbered hm hbases hlate hknown
  · intro n x hx
    rw [CopyScope.find?_keep] at hx
    split at hx
    · next hn =>
      have hlt := hw.numbered.lt hm
      exact ⟨hn ▸ hlt, Option.some.inj hx ▸ hlt⟩
    · exact hw.known hx
  · intro a x ha hx
    by_cases hid : a.id = m.id
    · obtain rfl := hw.numbered.eq ha hm hid
      exact .inr ⟨hknown (by simp [hx]), by simp⟩
    · exact .inl (by simpa [hid] using hx)
  · intro _ n x hx
    rw [CopyScope.find?_keep] at hx
    split at hx
    · next hn => exact .inr (.inr (by rw [hn, Option.some.inj hx]))
    · exact .inl hx

theorem settles (i : Nat) (hm : m.Among w.modules) :
    Copying.Settles w.modules (w.late i) [m] ⟨w.scope i, w.next⟩ [(w.copy i m).1] (m.copy ⟨w.scope i, w.next⟩).2 :=
  Module.copy_settles m _ hm hw.numbered (hw.settled i)

theorem copy (hi : i < w.scopes.length) (hm : m.Among w.modules) : w.Change (w.copy i m).2 i := by
  have h := hw.settles i hm
  have hcopy : ∀ j, (w.copy i m).2.site j = if j = i then _ else w.site j := fun j => site_set hi
  have hscope : (w.copy i m).2.scope i = (m.copy ⟨w.scope i, w.next⟩).2.scope := by rw [scope, hcopy, if_pos rfl]
  have hlate : (w.copy i m).2.late i = w.late i := by rw [late, hcopy, if_pos rfl]
  refine ⟨h.next, h.numbered, fun n hn => Module.among_of_mem (mem_cons_of_mem _ hn), ?_, hlate ▸ List.Subset.refl _,
    hlate ▸ hw.bare i, by simp [Workshop.copy], fun j hj => by rw [hcopy, if_neg hj], ?_, ?_, ?_, ?_⟩
  · rintro a ⟨r, hr, ha⟩
    rcases mem_cons.mp hr with rfl | hr
    · exact h.made ⟨_, mem_singleton_self _, ha⟩
    · exact .inl ⟨r, hr, ha⟩
  all_goals rw [hscope]
  · rw [hlate]
    exact h.settled
  · intro n x hx
    have hle := h.next
    rcases h.fresh hx with hx | ⟨hid, ⟨-, hn⟩ | ⟨a, rfl, r, hr, ha⟩⟩
    · exact (hw.known hx).imp (Nat.lt_of_lt_of_le · hle) (Nat.lt_of_lt_of_le · hle)
    · exact ⟨hn, hid.2⟩
    · rw [mem_singleton.mp hr] at ha
      exact ⟨Nat.lt_of_lt_of_le (hw.numbered.lt (hm.part ha)) hle, hid.2⟩
  · exact fun ha hx => .inl (h.kept ha hx)
  · exact fun _ {n x} hx => (h.fresh hx).imp_right fun hx => .inl hx.1.1

theorem step (h : w.Step v) : ∃ k, w.Change v k := by
  cases h with
  | make hid hbases => exact ⟨_, hw.make hid hbases⟩
  | opens hs => exact ⟨_, hw.opened hs⟩
  | keep hi hm hbases => exact ⟨_, hw.keep hi hm hbases⟩
  | copy hi hm => exact ⟨_, hw.copy hi hm⟩

end Sound

/-! ## The long run -/

theorem Change.sound (h : w.Change v k) (hw : w.Sound) : v.Sound := by
  refine ⟨h.numbered, fun i => ?_, fun {i n x} hx => ?_, fun i => ?_⟩
  all_goals by_cases hi : i = k
  · exact hi ▸ h.settled
  · rw [scope, Workshop.late, h.others i hi]
    refine (hw.settled i).of_among (fun ha => (h.made ha).imp_right fun hid => ?_) h.modules (List.Subset.refl _)
    exact Option.eq_none_iff_forall_ne_some.mpr fun x hx => absurd (hw.known hx).1 (by omega)
  · exact h.known (hi ▸ hx)
  · rw [scope, h.others i hi] at hx
    exact (hw.known hx).imp (Nat.lt_of_lt_of_le · h.next) (Nat.lt_of_lt_of_le · h.next)
  · exact hi ▸ h.bare
  · rw [Workshop.late, h.others i hi]
    exact hw.bare i

structure Extends (w v : Workshop) : Prop where
  next : w.next ≤ v.next
  modules : ∀ m ∈ w.modules, m.Among v.modules
  late : ∀ i, w.late i ⊆ v.late i
  scopes : w.scopes.length ≤ v.scopes.length
  kept : ∀ {i : Nat} {a x : Module}, a.Among w.modules → (w.scope i).find? a.id = some x →
    (v.scope i).Resolves (v.late i) a x
  fresh : ∀ {i : Nat}, i < w.scopes.length → ∀ {n : Nat} {x : Module}, (v.scope i).find? n = some x →
    (w.scope i).find? n = some x ∨ w.next ≤ x.id ∨ x.id = n

theorem Change.extends (h : w.Change v k) : w.Extends v := by
  refine ⟨h.next, h.modules, fun i => ?_, h.scopes, fun {i a x} ha hx => ?_, fun {i} hi {n x} hx => ?_⟩
  all_goals by_cases hk : i = k
  · exact hk ▸ h.late
  · rw [Workshop.late, Workshop.late, h.others i hk]
    exact List.Subset.refl _
  · exact hk ▸ h.kept ha (hk ▸ hx)
  · rw [scope, h.others i hk]
    exact .inl hx
  · exact hk ▸ h.fresh (hk ▸ hi) (hk ▸ hx)
  · rw [scope, h.others i hk] at hx
    exact .inl hx

theorem Extends.trans (h : w.Extends v) (h' : v.Extends u) : w.Extends u where
  next := Nat.le_trans h.next h'.next
  modules m hm := (h.modules m hm).trans h'.modules
  late i := List.Subset.trans (h.late i) (h'.late i)
  scopes := Nat.le_trans h.scopes h'.scopes
  kept ha hx := by
    have ha' := ha.trans h.modules
    rcases h.kept ha hx with hx | ⟨hlate, hx⟩
    · exact h'.kept ha' hx
    · exact .inr ⟨h'.late _ hlate, (h'.kept ha' hx).elim id And.right⟩
  fresh hi _ _ hx := by
    rcases h'.fresh (Nat.lt_of_lt_of_le hi h.scopes) hx with hx | hid | hid
    · exact h.fresh hi hx
    · exact .inr (.inl (Nat.le_trans h.next hid))
    · exact .inr (.inr hid)

theorem Later.spec (h : w.Later v) (hw : w.Sound) : v.Sound ∧ w.Extends v := by
  induction h with
  | refl =>
    exact ⟨hw, Nat.le_refl _, fun _ => Module.among_of_mem, fun _ => List.Subset.refl _, Nat.le_refl _, fun _ => .inl,
      fun _ _ _ => .inl⟩
  | tail _ hstep ih =>
    obtain ⟨k, hk⟩ := ih.1.step hstep
    exact ⟨hk.sound ih.1, ih.2.trans hk.extends⟩

theorem Reachable.sound (h : w.Reachable) : w.Sound := by
  obtain ⟨next, h⟩ := h
  have hnone : ∀ i n, (scope { next } i).find? n = none := fun _ _ => rfl
  refine (h.spec ⟨.nil next, fun i => .of_unknown fun a _ => hnone i a.id, fun {i n x} hx => ?_, ?_⟩).1
  · cases (hnone i n).symm.trans hx
  · exact fun i => forall_mem_nil _

/-! ## Copies last -/

structure CopyIn (w : Workshop) (i : Nat) (m c : Module) : Prop where
  again : (w.copy i m).1 = c
  own : (w.copy i c).1 = c
  data : c.key = m.key ∧ c.cls = m.cls ∧ c.digest = m.digest
  bases : c.bases = m.bases.map fun b => (w.copy i b).1
  paths : ∀ path, c.follow path = (m.follow path).map fun b => (w.copy i b).1
  apart : ∀ n : Module, n.Among w.modules → (w.copy i n).1.id = c.id → n = m ∨ n = c ∨ m = (w.copy i n).1

/-- A scope, or one inside of it, at any later time. -/
inductive Inside (w : Workshop) (i : Nat) : Workshop → Nat → Prop
  | self : Inside w i w i
  | later {v u : Workshop} {j : Nat} : Inside w i v j → v.Step u → Inside w i u j
  | child {v : Workshop} {j : Nat} : Inside w i v j → Inside w i (v.opened (v.child j)) v.scopes.length

def Isolated (w : Workshop) (n : Module) (i j : Nat) : Prop :=
  ∀ v u, w.Later v → n.Among v.modules → (v.copy i n).2.Later u →
    (v.copy i n).1.id = (u.copy j n).1.id → (v.copy i n).1 = n ∧ (u.copy j n).1 = n

theorem copy_of_find? (h : (w.scope i).find? m.id = some x) : (w.copy i m).1 = x := by
  obtain ⟨id, key, cls, bases, digest⟩ := m
  simp only [copy, Module.copy, show (w.scope i).find? id = some x from h]

theorem Sound.find?_copy (hw : w.Sound) (hi : i < w.scopes.length) (hm : m.Among w.modules) :
    ((w.copy i m).2.scope i).find? m.id = some (w.copy i m).1 := by
  have hcopy : (w.copy i m).2.site i = _ := (site_set hi).trans (if_pos rfl)
  rw [scope, hcopy]
  exact (forall₂_cons.mp (hw.settles i hm).found).1

theorem Sound.copyIn (hw : w.Sound) (hlate : w.late i = []) (hm : m.Among w.modules)
    (hx : (w.scope i).find? m.id = some x) : w.CopyIn i m x := by
  have hsettled : (w.scope i).Settled w.modules [] := hlate ▸ hw.settled i
  have hbases : ∀ {a x : Module}, a.Among w.modules → (w.scope i).find? a.id = some x →
      x.bases = a.bases.map fun b => (w.copy i b).1 := by
    intro a x ha hx
    rw [← forall₂_eq_eq_eq, forall₂_map_right_iff]
    exact List.Forall₂.flip ((hsettled.bases ha hx).imp fun _ _ hy => (copy_of_find? hy).symm)
  have hcopy := hsettled.copy hm hx
  refine ⟨copy_of_find? hx, copy_of_find? hcopy.stable, hcopy.alike.data, hbases hm hx, fun path => ?_, ?_⟩
  · induction path generalizing m x with
    | nil => simp [Module.follow, copy_of_find? hx]
    | cons k path ih =>
      simp only [Module.follow, hbases hm hx, getElem?_map]
      cases hb : m.bases[k]? with
      | none => rfl
      | some b =>
        have hmem := mem_of_getElem? hb
        obtain ⟨y, -, hy⟩ := mem_right_of_forall₂ (hsettled.bases hm hx).flip hmem
        have := ih (hm.base hmem) hy (hsettled.copy (hm.base hmem) hy)
        simpa [copy_of_find? hy] using this
  · intro n hn hid
    have h := hw.settles i hn
    have hy := (forall₂_cons.mp h.found).1
    have hx' := h.kept hm hx
    have more : ∀ {a : Module}, a.Among w.modules → a.Among ([(w.copy i n).1] ++ w.modules) :=
      fun ha => ha.mono (subset_cons_self _ _)
    have hsame := h.numbered.eq (Module.among_of_mem mem_cons_self) (more hcopy.among) hid
    rw [hsame] at hy ⊢
    exact (h.settled.pair (more hm) (more hn) hx' hy).elim (fun h => .inl h.symm) fun h => .inr h.symm

theorem Inside.find? (h : Inside w i v j) (hw : w.Sound) (hi : i < w.scopes.length) (hm : m.Among w.modules)
    (hx : (w.scope i).find? m.id = some x) :
    v.Sound ∧ j < v.scopes.length ∧ m.Among v.modules ∧ (v.late j = [] → (v.scope j).find? m.id = some x) := by
  induction h with
  | self => exact ⟨hw, hi, hm, fun _ => hx⟩
  | later _ hstep ih =>
    obtain ⟨hv, hj, hm, hfind⟩ := ih
    obtain ⟨k, hk⟩ := hv.step hstep
    have hext := hk.extends
    refine ⟨hk.sound hv, Nat.lt_of_lt_of_le hj hext.scopes, hm.trans hext.modules, fun hlate => ?_⟩
    have hnone := subset_nil.mp (hlate ▸ hext.late _)
    exact (hext.kept hm (hfind hnone)).resolve_right (by simp [hlate])
  | @child v j _ ih =>
    obtain ⟨hv, -, hm, hfind⟩ := ih
    refine ⟨(hv.opened (.inr ⟨j, .inr rfl⟩)).sound hv, by simp [opened], hm, fun hlate => ?_⟩
    rw [late, site_opened, if_pos rfl] at hlate
    rw [scope, site_opened, if_pos rfl]
    exact hfind hlate

/-! ## Scopes apart -/

def Apart (w : Workshop) (n : Module) (i j : Nat) : Prop :=
  ∀ {x y : Module}, (w.scope i).find? n.id = some x → (w.scope j).find? n.id = some y → x.id = y.id → x.id = n.id

theorem Change.apart (h : w.Change v k) (hw : w.Sound) (hi : i < w.scopes.length) (hj : j < w.scopes.length)
    (hij : i ≠ j) (hapart : w.Apart n i j) : v.Apart n i j := by
  intro x y hx hy hid
  -- the step changes one of the two scopes at most, and what it adds there is new or the module
  by_cases hik : i = k
  · subst hik
    rw [scope, h.others j hij.symm] at hy
    have hlt := (hw.known hy).2
    rcases h.fresh hi hx with hx | hnew | hsame
    · exact hapart hx hy hid
    · omega
    · exact hsame
  · rw [scope, h.others i hik] at hx
    by_cases hjk : j = k
    · subst hjk
      have hlt := (hw.known hx).2
      rcases h.fresh hj hy with hy | hnew | hsame
      · exact hapart hx hy hid
      · omega
      · omega
    · rw [scope, h.others j hjk] at hy
      exact hapart hx hy hid

theorem Later.apart (h : w.Later v) (hw : w.Sound) (hi : i < w.scopes.length) (hj : j < w.scopes.length)
    (hij : i ≠ j) (hapart : w.Apart n i j) : v.Apart n i j := by
  induction h with
  | refl => exact hapart
  | tail hlater hstep ih =>
    obtain ⟨hv, hext⟩ := Later.spec hlater hw
    obtain ⟨k, hk⟩ := hv.step hstep
    exact hk.apart hv (Nat.lt_of_lt_of_le hi hext.scopes) (Nat.lt_of_lt_of_le hj hext.scopes) hij ih

theorem Sound.isolated (hw : w.Sound) (hi : i < w.scopes.length) (hj : j < w.scopes.length) (hij : i ≠ j)
    (hapart : w.Apart n i j) : w.Isolated n i j := by
  intro v u hv hn hu hid
  obtain ⟨hsound, hext⟩ := hv.spec hw
  have hi' := Nat.lt_of_lt_of_le hi hext.scopes
  have hstep : Later w (v.copy i n).2 := hv.tail (.copy hi' hn)
  have hfirst := hsound.find?_copy hi' hn
  obtain ⟨hsound', hext'⟩ := hstep.spec hw
  have hchange := hsound.copy hi' hn
  have hj' := Nat.lt_of_lt_of_le hj hext'.scopes
  obtain ⟨husound, huext⟩ := hu.spec hsound'
  have hn' := hn.trans hchange.modules
  have hsecond := husound.find?_copy (Nat.lt_of_lt_of_le hj' huext.scopes) (hn'.trans huext.modules)
  have hall : Later (v.copy i n).2 (u.copy j n).2 :=
    hu.tail (.copy (Nat.lt_of_lt_of_le hj' huext.scopes) (hn'.trans huext.modules))
  obtain ⟨hlast, hlastext⟩ := hall.spec hsound'
  have hsame : (v.copy i n).1.id = n.id := by
    rcases hlastext.fresh hj' hsecond with hx | hnew | hsame
    · exact hstep.apart hw hi hj hij hapart hfirst hx hid
    · have := (hsound'.known hfirst).2
      omega
    · omega
  refine ⟨hsound'.numbered.eq (Module.among_of_mem mem_cons_self) hn' hsame, ?_⟩
  exact hlast.numbered.eq (Module.among_of_mem mem_cons_self) (hn'.trans hlastext.modules) (hid.symm.trans hsame)

/-- While nothing is kept late in a scope, a copy stays the copy of its module there and inside. -/
theorem copy_faithful (h : w.Reachable) (hi : i < w.scopes.length) (hm : m.Among w.modules) :
    (∀ v j, Inside (w.copy i m).2 i v j → v.late j = [] → v.CopyIn j m (w.copy i m).1) ∧
    ∀ n : Module, (w.scope i).find? n.id = none → ∀ j < w.scopes.length,
      (w.opened (w.child i)).Isolated n j w.scopes.length ∧ (w.opened (w.child i)).Isolated n w.scopes.length j := by
  have hw := h.sound
  have hcopy := hw.copy hi hm
  refine ⟨fun v j hv hlate => ?_, fun n hnone j hj => ?_⟩
  · obtain ⟨hsound, -, hamong, hfind⟩ := hv.find? (hcopy.sound hw) (Nat.lt_of_lt_of_le hi hcopy.scopes)
      (hm.trans hcopy.modules) (hw.find?_copy hi hm)
    exact hsound.copyIn hlate hamong (hfind hlate)
  · have hopen := hw.opened (Or.inr ⟨i, Or.inr rfl⟩)
    have hnone' : ((w.opened (w.child i)).scope w.scopes.length).find? n.id = none := by
      rw [scope, site_opened, if_pos rfl, child, CopyScope.find?_child, hnone]
    have hj' := Nat.lt_of_lt_of_le hj hopen.scopes
    have hlen : w.scopes.length < (w.opened (w.child i)).scopes.length := by simp [opened]
    constructor
    · refine (hopen.sound hw).isolated hj' hlen hj.ne fun _ hy => ?_
      cases hnone'.symm.trans hy
    · refine (hopen.sound hw).isolated hlen hj' hj.ne' fun hx => ?_
      cases hnone'.symm.trans hx

def yard : Workshop :=
  ((((({ next := 1 } : Workshop).make .wall).make (.gable 2 "Left" "Ivy")).make (.gable 3 "Right" "Moss")).make
    .house).opened {}

theorem yard_among : Module.wall.Among yard.modules ∧ Module.house.Among yard.modules :=
  ⟨Module.among_of_mem (by simp [yard, opened, make]), Module.among_of_mem (by simp [yard, opened, make])⟩

theorem yard_reachable : yard.Reachable := by
  refine ⟨1, .tail ?_ (.opens (.inl rfl))⟩
  refine .tail (.tail (.tail (.tail .refl (.make rfl ?_)) (.make rfl ?_)) (.make rfl ?_)) (.make rfl ?_)
  all_goals simp [Module.wall, Module.gable, Module.house, Module.sample, make, Module.among_of_mem]

theorem yard_copy_faithful : (yard.copy 0 .house).1.id ≠ Module.house.id ∧
    (∀ v j, Inside (yard.copy 0 .house).2 0 v j → v.late j = [] → v.CopyIn j .house (yard.copy 0 .house).1) ∧
    (yard.opened (yard.child 0)).Isolated .wall 0 1 :=
  have h := copy_faithful yard_reachable (i := 0) (by decide) yard_among.2
  ⟨by decide, h.1, (h.2 .wall rfl 0 (by decide)).1⟩

def twins : Workshop :=
  (((yard.opened (yard.child 0)).opened (yard.child 0)).keep 1 .wall).keep 2 .wall

theorem twins_kept : yard.Later twins ∧ (∀ i < 3, twins.late i = []) ∧ (yard.scope 0).find? Module.wall.id = none ∧
    (twins.copy 1 .wall).1.id = (twins.copy 2 .wall).1.id := by
  have hlate : ∀ i < 3, (twins.late i).length = 0 := by decide
  have hopen : yard.Later ((yard.opened (yard.child 0)).opened (yard.child 0)) :=
    .tail (.single (.opens (Or.inr ⟨0, Or.inr rfl⟩))) (.opens (Or.inr ⟨0, Or.inr rfl⟩))
  refine ⟨.tail (.tail hopen (.keep (i := 1) (by decide) ?_ rfl)) (.keep (i := 2) (by decide) ?_ rfl),
    fun i hi => eq_nil_of_length_eq_zero (hlate i hi), rfl, by decide⟩
  all_goals exact yard_among.1

/-! ## Hierarchies of copies -/

/-- The hierarchy of a copy has the copies of the hierarchy, but for modules kept late. -/
theorem hierarchy_copy (h : w.Reachable) (hi : i < w.scopes.length) (hm : m.Among w.modules) :
    let c := (w.copy i m).1
    let v := (w.copy i m).2
    c.hierarchy.length = m.hierarchy.length ∧
    c.hierarchy.map Module.name = m.hierarchy.map Module.name ∧
    (MemberTable.ofModule m).classes = c.hierarchy.map Module.cls ∧
    ∀ (k : Nat) (a y : Module), m.hierarchy[k]? = some a → c.hierarchy[k]? = some y →
      (v.copy i a).1 = y ∨ a ∈ v.late i ∧ (v.copy i a).1 = a := by
  intro c v
  have hw := h.sound
  have hcopy := hw.copy hi hm
  have hv : v.Sound := hcopy.sound hw
  have hR : Module.Corresponds fun a y => a.Among v.modules ∧ y.Alike a ∧ (v.scope i).Resolves (v.late i) a y := by
    constructor
    · rintro a y ⟨-, hlike, -⟩
      rw [Module.name, Module.name, hlike.data.2.1]
    · rintro a y ⟨ha, hlike, hy⟩
      refine (List.forall₂_and_left _ _).mpr ⟨fun _ => ha.base, ?_⟩
      rcases hy with hy | ⟨hlate, -⟩
      · exact List.Forall₂.mp (fun _ _ => And.intro) hlike.bases.flip ((hv.settled i).copy ha hy).bases
      · have hnone := hv.bare i a hlate
        rw [hnone, List.forall₂_nil_left_iff, ← List.forall₂_nil_right_iff, ← hnone]
        exact hlike.bases
  have hm' : m.Among v.modules := hm.trans hcopy.modules
  have hfound := hw.find?_copy hi hm
  have hall := hR.hierarchy ⟨hm', ((hv.settled i).copy hm' hfound).alike, Or.inl hfound⟩
  have hcls : c.hierarchy.map Module.cls = m.hierarchy.map Module.cls := by
    rw [← List.forall₂_eq_eq_eq, List.forall₂_map_left_iff, List.forall₂_map_right_iff]
    exact List.Forall₂.flip (hall.imp fun _ _ h => h.2.1.data.2.1)
  refine ⟨by simpa using congrArg List.length hcls, ?_, by rw [hcls, MemberTable.classes_ofModule], ?_⟩
  · have hnames := congrArg (List.map ShaderClass.name) hcls
    rwa [List.map_map, List.map_map] at hnames
  · intro k a y ha hy
    obtain ⟨hk, rfl⟩ := List.getElem?_eq_some_iff.mp ha
    obtain ⟨hk', rfl⟩ := List.getElem?_eq_some_iff.mp hy
    exact (hall.get hk hk').2.2.imp copy_of_find? fun h => ⟨h.1, copy_of_find? h.2⟩

theorem yard_hierarchy_copy : (yard.copy 0 .house).1.hierarchy.map Module.id = [5, 6, 7, 8] ∧
    (MemberTable.ofModule .house).classes = (yard.copy 0 .house).1.hierarchy.map Module.cls :=
  ⟨by decide, (hierarchy_copy yard_reachable (i := 0) (by decide) yard_among.2).2.2.1⟩

def restored : Workshop := (yard.copy 0 .house).2.keep 0 .wall

theorem restored_wall : yard.Later restored ∧ Module.house.hierarchy[0]? = some Module.wall ∧
    (restored.copy 0 .house).1.hierarchy.map Module.id = [5, 6, 7, 8] ∧
    ((restored.copy 0 .house).2.copy 0 .wall).1.id = 1 := by
  have hcopy := Step.copy (i := 0) (by decide) yard_among.2
  refine ⟨.tail (.single hcopy) (.keep (by decide) ?_ rfl), rfl, by decide, by decide⟩
  exact yard_among.1.mono (List.subset_cons_self _ _)

end Workshop

end ShaderCompose
