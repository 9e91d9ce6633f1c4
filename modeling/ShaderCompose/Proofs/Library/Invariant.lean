import ShaderCompose.Proofs.Library.Loading

/-!
Properties that a load keeps, from the few steps that it is made of.
-/

namespace ShaderCompose

open List Loading Relation

def InheritsBy (plan : LoadPlan) (Q : ModuleKey → ReadClass → Prop) (b key : ModuleKey) : Prop :=
  ∃ r, Q key r ∧ b ∈ baseKeysOf r.cls plan.macros

variable {plan : LoadPlan} {Q R : ModuleKey → ReadClass → Prop} {key : ModuleKey} {I : Loading → Prop}

theorem inheritsBy_mono {a b : ModuleKey} (h : ∀ key r, Q key r → R key r) (hQ : TransGen (InheritsBy plan Q) a b) :
    TransGen (InheritsBy plan R) a b := by
  refine TransGen.mono (fun b key hb => ?_) a b hQ
  obtain ⟨r, hr, hb⟩ := hb
  exact ⟨r, h key r hr, hb⟩

theorem inheritsBy_below {path : List ModuleKey} {r : ReadClass} (hQ : Q key r)
    (hbelow : ∀ k ∈ path, TransGen (InheritsBy plan Q) key k) :
    ∀ b ∈ baseKeysOf r.cls plan.macros, ∀ k ∈ key :: path, TransGen (InheritsBy plan Q) b k := by
  intro b hb
  have hinherits : TransGen (InheritsBy plan Q) b key := .single ⟨r, hQ, hb⟩
  exact forall_mem_cons.mpr ⟨hinherits, fun k hk => hinherits.trans (hbelow k hk)⟩

def FailsBy (plan : LoadPlan) (Q : ModuleKey → ReadClass → Prop) (I : Loading → Prop) (key : ModuleKey)
    (s : Loading) : Prop :=
  s.exhausted = true ∨ (∃ u, I u ∧ (u.read plan key).1 = none) ∨
    ∃ b, InheritsBy plan Q b key ∧ (b ∈ s.failed ∨ TransGen (InheritsBy plan Q) b b)

theorem FailsBy.mono {J : Loading → Prop} {s : Loading} (h : FailsBy plan Q I key s)
    (hQ : ∀ key r, Q key r → R key r) (hI : ∀ s, I s → J s) : FailsBy plan R J key s := by
  rcases h with h | ⟨u, hu, h⟩ | ⟨b, ⟨r, hr, hb⟩, h⟩
  · exact .inl h
  · exact .inr (.inl ⟨u, hI u hu, h⟩)
  · exact .inr (.inr ⟨b, ⟨r, hQ key r hr, hb⟩, h.imp_right (inheritsBy_mono hQ)⟩)

/-- An invariant `I` of loading, where `P` holds of the keys and `Q` of the classes that come up. -/
structure LoadInvariant (plan : LoadPlan) (bound : Nat) (P : ModuleKey → Prop)
    (Q : ModuleKey → ReadClass → Prop) (I : Loading → Prop) : Prop where
  cyclic : ∀ s key, P key → TransGen (InheritsBy plan Q) key key → I s →
    I (s.report (.error (.cyclicInheritance key.name)))
  giveUp : ∀ s (keys : List ModuleKey), keys.Nodup → (∀ k ∈ keys, P k) → bound < keys.length → I s → I s.giveUp
  fail : ∀ s key, P key → s.Troubled → FailsBy plan Q I key s → I s → I (s.fail key)
  take : ∀ s key c, P key → s.loaded.lookup key = none → s.library.cached? key = some c →
    I s → I ((s.await c.dependencies).add key c)
  read : ∀ s key, P key → s.loaded.lookup key = none → s.library.cached? key = none → I s →
    I (s.read plan key).2 ∧ ∀ r, (s.read plan key).1 = some r → Q key r
  base : ∀ key r, Q key r → ∀ b ∈ baseKeysOf r.cls plan.macros, P b
  finish : ∀ s key r bases, P key → Q key r → s.loaded.lookup key = none → s.library.cached? key = none →
    List.Forall₂ (fun k c => s.loaded.lookup k = some c) (baseKeysOf r.cls plan.macros) bases →
    I s → I (finishClass plan key r bases s).2

structure RequestInvariant (plan : LoadPlan) (bound : Nat) (P : ModuleKey → Prop)
    (Q : ModuleKey → ReadClass → Prop) (I : Loading → Prop) : Prop
    extends LoadInvariant plan bound P Q I where
  empty : ∀ s, I s → I (s.report (.error .emptyMixin))
  await : ∀ s keys, (∀ k ∈ keys, P k) → I s → I (s.await keys)
  mixin : ∀ s refs bases, (∀ r ∈ refs, P (r.key plan.macros)) →
    List.Forall₂ (fun k c => s.loaded.lookup k = some c) (refs.map fun r => r.key plan.macros) bases →
    I s → I (s.takeNumber.add (mixinKey refs plan.macros) (madeMixin plan.macros refs bases s.library.next))

theorem RequestInvariant.and {bound : Nat} {P : ModuleKey → Prop} {J : Loading → Prop}
    (hI : RequestInvariant plan bound P Q I) (hJ : RequestInvariant plan bound P R J) :
    RequestInvariant plan bound P (fun key r => Q key r ∧ R key r) (fun s => I s ∧ J s) where
  cyclic s key hP hcycle h :=
    ⟨hI.cyclic s key hP (inheritsBy_mono (fun _ _ hr => hr.1) hcycle) h.1,
      hJ.cyclic s key hP (inheritsBy_mono (fun _ _ hr => hr.2) hcycle) h.2⟩
  empty s h := ⟨hI.empty s h.1, hJ.empty s h.2⟩
  giveUp s keys hnodup hP hbound h := ⟨hI.giveUp s keys hnodup hP hbound h.1, hJ.giveUp s keys hnodup hP hbound h.2⟩
  fail s key hP hs hwhy h :=
    ⟨hI.fail s key hP hs (hwhy.mono (fun _ _ hr => hr.1) fun _ h => h.1) h.1,
      hJ.fail s key hP hs (hwhy.mono (fun _ _ hr => hr.2) fun _ h => h.2) h.2⟩
  await s keys hP h := ⟨hI.await s keys hP h.1, hJ.await s keys hP h.2⟩
  take s key c hP fresh hc h := ⟨hI.take s key c hP fresh hc h.1, hJ.take s key c hP fresh hc h.2⟩
  read s key hP fresh hcached h := by
    obtain ⟨hnextI, hreadI⟩ := hI.read s key hP fresh hcached h.1
    obtain ⟨hnextJ, hreadJ⟩ := hJ.read s key hP fresh hcached h.2
    exact ⟨⟨hnextI, hnextJ⟩, fun r hr => ⟨hreadI r hr, hreadJ r hr⟩⟩
  base key r hr := hI.base key r hr.1
  finish s key r bases hP hr fresh hcached hbases h :=
    ⟨hI.finish s key r bases hP hr.1 fresh hcached hbases h.1,
      hJ.finish s key r bases hP hr.2 fresh hcached hbases h.2⟩
  mixin s refs bases hP hbases h := ⟨hI.mixin s refs bases hP hbases h.1, hJ.mixin s refs bases hP hbases h.2⟩

section

variable {plan : LoadPlan} {bound : Nat} {P : ModuleKey → Prop} {Q : ModuleKey → ReadClass → Prop}
  {I : Loading → Prop} (inv : LoadInvariant plan bound P Q I)

include inv

/-! ## Loading a class -/

variable {fuel : Nat} {s t : Loading}

theorem LoadInvariant.bases  {path : List ModuleKey} {key : ModuleKey} {r : ReadClass}
    (hknown : s.known? path key = none) (hread : (s.read plan key).1 = some r)
    (hbound : bound ≤ fuel + 1 + path.length) (hnodup : path.Nodup) (hpath : ∀ k ∈ path, P k)
    (hbelow : ∀ k ∈ path, TransGen (InheritsBy plan Q) key k) (hP : P key) (hs : s.Reported) (hI : I s)
    (load : bound ≤ fuel + (key :: path).length → (key :: path).Nodup → (∀ k ∈ key :: path, P k) →
    (∀ b ∈ baseKeysOf r.cls plan.macros, ∀ k ∈ key :: path, TransGen (InheritsBy plan Q) b k) →
    (∀ b ∈ baseKeysOf r.cls plan.macros, P b) → (s.read plan key).2.Reported →
      I (s.read plan key).2 → I t) : Q key r ∧ I t := by
  obtain ⟨fresh, -, hkey, hcached⟩ := known?_eq_none hknown
  obtain ⟨hafter, hQ⟩ := inv.read s key hP fresh hcached hI
  have hQ := hQ r hread
  refine ⟨hQ, load ?_ (nodup_cons.mpr ⟨hkey, hnodup⟩) (forall_mem_cons.mpr ⟨hP, hpath⟩)
    (inheritsBy_below hQ hbelow) (inv.base key r hQ)
    (hs.of_log rfl (extends_read plan key s []).troubled) hafter⟩
  rw [length_cons]
  omega

theorem LoadsEach.invariant {path keys : List ModuleKey} {found : Option (List LoadedClass)}
    (h : LoadsEach plan fuel path keys s found t) (hbound : bound ≤ fuel + path.length) (hnodup : path.Nodup)
    (hpath : ∀ k ∈ path, P k) (hbelow : ∀ key ∈ keys, ∀ k ∈ path, TransGen (InheritsBy plan Q) key k)
    (hP : ∀ key ∈ keys, P key) (hs : s.Reported) (hI : I s) : I t := by
  induction h with
  | nil => exact hI
  | loaded _ _ ih =>
    exact ih hbound hnodup hpath (forall_mem_cons.mp hbelow).2 (forall_mem_cons.mp hP).2 hs hI
  | taken fresh _ hc _ ih =>
    obtain ⟨hkey, hP⟩ := forall_mem_cons.mp hP
    exact ih hbound hnodup hpath (forall_mem_cons.mp hbelow).2 hP (hs.of_log rfl id) (inv.take _ _ _ hkey fresh hc hI)
  | failed _ => exact hI
  | cyclic hkey =>
    exact inv.cyclic _ _ (hpath _ hkey) (hbelow _ mem_cons_self _ hkey) hI
  | @tooDeep path _ key s hknown =>
    obtain ⟨-, -, hkey, -⟩ := known?_eq_none hknown
    refine inv.giveUp s (key :: path) (nodup_cons.mpr ⟨hkey, hnodup⟩)
      (forall_mem_cons.mpr ⟨hP key mem_cons_self, hpath⟩) ?_ hI
    rw [length_cons]
    omega
  | @unread _ _ _ key s hknown hread =>
    obtain ⟨fresh, -, -, hcached⟩ := known?_eq_none hknown
    have hkey := hP key mem_cons_self
    exact inv.fail _ key hkey (.inl (read_none hread)) (.inr (.inl ⟨s, hI, hread⟩))
      (inv.read s key hkey fresh hcached hI).1
  | @baseless _ path _ key s t r hknown hread hbases ih =>
    have hkey := hP key mem_cons_self
    have hbelowKey := hbelow key mem_cons_self
    have hreported : (s.read plan key).2.Reported := hs.of_log rfl (extends_read plan key s []).troubled
    obtain ⟨hQ, hover⟩ := inv.bases hknown hread hbound hnodup hpath hbelowKey hkey hs hI ih
    refine inv.fail t key hkey (hbases.troubled (hbases.reported hreported)) ?_ hover
    obtain ⟨b, hb, hfailed | ⟨hpath, -⟩ | hgiven⟩ := hbases.missing rfl
    · exact .inr (.inr ⟨b, ⟨r, hQ, hb⟩, .inl hfailed⟩)
    · exact .inr (.inr ⟨b, ⟨r, hQ, hb⟩, .inr (inheritsBy_below hQ hbelowKey b hb b hpath)⟩)
    · exact .inl hgiven
  | @made _ _ _ key s t _ r bases _ hknown hread hbases fresh unkept hrest ihbases ih =>
    obtain ⟨hkey, hP⟩ := forall_mem_cons.mp hP
    obtain ⟨hbelowKey, hbelow⟩ := forall_mem_cons.mp hbelow
    obtain ⟨hQ, hover⟩ := inv.bases hknown hread hbound hnodup hpath hbelowKey hkey hs hI ihbases
    have hdone := LoadsEach.made hknown hread hbases fresh unkept .nil
    exact ih hbound hnodup hpath hbelow hP (hdone.reported hs)
      (inv.finish t key r bases hkey hQ fresh unkept (hbases.lookup rfl) hover)

theorem LoadsEach.invariant_top (hfuel : bound ≤ fuel) {keys : List ModuleKey}
    {found : Option (List LoadedClass)} (h : LoadsEach plan fuel [] keys s found t) (hP : ∀ key ∈ keys, P key)
    (hs : s.Reported) (hI : I s) : I t :=
  h.invariant inv hfuel nodup_nil (forall_mem_nil _) (fun _ _ => forall_mem_nil _) hP hs hI

theorem loadFrom_invariant_top (hfuel : bound ≤ fuel) (key : ModuleKey) (s : Loading) (hP : P key)
    (hs : s.Reported) (hI : I s) : I (loadFrom plan fuel [] key s).2 :=
  LoadsEach.invariant_top inv hfuel (loadFrom_loads plan fuel [] key s) (forall_mem_singleton.mpr hP) hs hI

end

/-! ## The nodes of a request -/

namespace Request

mutual

def nodes : Request → List Request
  | single cls => [single cls]
  | mixin bases slots macros => mixin bases slots macros :: slotNodes slots
  | array values => listNodes values

def slotNodes : List (String × Request) → List Request
  | [] => []
  | (_, r) :: rest => r.nodes ++ slotNodes rest

def listNodes : List Request → List Request
  | [] => []
  | r :: rest => r.nodes ++ listNodes rest

end

def classes : Request → List ClassRef
  | single cls => [cls]
  | mixin bases _ _ => bases
  | array _ => []

theorem key?_eq (node : Request) (macros : List MacroDef) : node.key? macros = match node.classes with
      | [] => none
      | [c] => some (c.key macros)
      | refs => some (mixinKey refs macros) := by
  cases node with
  | single cls => rfl
  | array values => rfl
  | mixin bases slots more =>
    match bases with
    | [] => rfl
    | [_] => rfl
    | _ :: _ :: _ => rfl

mutual

theorem mem_references {c : ClassRef} : ∀ (r : Request) {node : Request}, node ∈ r.nodes →
    c ∈ node.classes → c ∈ r.references
  | .single cls, node, hnode, hc => by
    rw [nodes, mem_singleton] at hnode
    subst hnode
    exact hc
  | .mixin bases slots macros, node, hnode, hc => by
    rcases mem_cons.mp hnode with rfl | hnode
    · exact mem_append_left _ hc
    · exact mem_append_right _ (mem_slotReferences slots hnode hc)
  | .array values, node, hnode, hc => by
    exact mem_listReferences values hnode hc

theorem mem_slotReferences {c : ClassRef} : ∀ (slots : List (String × Request)) {node : Request},
    node ∈ slotNodes slots → c ∈ node.classes → c ∈ slotReferences slots
  | [], _, hnode, _ => by
    exact absurd hnode not_mem_nil
  | (_, r) :: rest, node, hnode, hc => by
    rcases mem_append.mp hnode with hnode | hnode
    · exact mem_append_left _ (mem_references r hnode hc)
    · exact mem_append_right _ (mem_slotReferences rest hnode hc)

theorem mem_listReferences {c : ClassRef} : ∀ (values : List Request) {node : Request},
    node ∈ listNodes values → c ∈ node.classes → c ∈ listReferences values
  | [], _, hnode, _ => by
    exact absurd hnode not_mem_nil
  | r :: rest, node, hnode, hc => by
    rcases mem_append.mp hnode with hnode | hnode
    · exact mem_append_left _ (mem_references r hnode hc)
    · exact mem_append_right _ (mem_listReferences rest hnode hc)

end

end Request

mutual

theorem loadRequest_eq_foldl (plan : LoadPlan) (fuel : Nat) : ∀ (r : Request) (s : Loading),
    loadRequest plan fuel r s = r.nodes.foldl (fun s node => loadBases plan fuel node.classes s) s
  | .single cls, s => by
    rfl
  | .mixin bases slots macros, s => by
    exact loadSlots_eq_foldl plan fuel slots _
  | .array values, s => by
    exact loadValues_eq_foldl plan fuel values s

theorem loadSlots_eq_foldl (plan : LoadPlan) (fuel : Nat) :
    ∀ (slots : List (String × Request)) (s : Loading), loadSlots plan fuel slots s =
      (Request.slotNodes slots).foldl (fun s node => loadBases plan fuel node.classes s) s
  | [], s => by
    rfl
  | (_, r) :: rest, s => by
    rw [loadSlots, Request.slotNodes, foldl_append, loadRequest_eq_foldl plan fuel r s]
    exact loadSlots_eq_foldl plan fuel rest _

theorem loadValues_eq_foldl (plan : LoadPlan) (fuel : Nat) :
    ∀ (values : List Request) (s : Loading), loadValues plan fuel values s =
      (Request.listNodes values).foldl (fun s node => loadBases plan fuel node.classes s) s
  | [], s => by
    rfl
  | r :: rest, s => by
    rw [loadValues, Request.listNodes, foldl_append, loadRequest_eq_foldl plan fuel r s]
    exact loadValues_eq_foldl plan fuel rest _

end

/-! ## Loading a request -/

section

variable {plan : LoadPlan} {bound : Nat} {P : ModuleKey → Prop} {Q : ModuleKey → ReadClass → Prop}
  {I : Loading → Prop} (inv : RequestInvariant plan bound P Q I)

include inv

theorem loadMixin_invariant {fuel : Nat} (hfuel : bound ≤ fuel) {refs : List ClassRef} {s : Loading}
    (hP : ∀ r ∈ refs, P (r.key plan.macros)) (hs : s.Reported) (hI : I s) :
    (loadMixin plan fuel refs s).Reported ∧ I (loadMixin plan fuel refs s) := by
  rcases loadMixin_cases plan fuel refs s with ⟨-, heq⟩ | ⟨-, found, t, hbases, hrun⟩
  · rw [heq]
    exact ⟨hs, hI⟩
  · have hkeys : ∀ k ∈ refs.map fun r => r.key plan.macros, P k := by
      intro k hk
      obtain ⟨r, hr, rfl⟩ := mem_map.mp hk
      exact hP r hr
    have hreported := hbases.reported hs
    have hover := LoadsEach.invariant_top inv.toLoadInvariant hfuel hbases hkeys hs hI
    rcases hrun with ⟨-, heq⟩ | ⟨bases, rfl, heq⟩
    · rw [heq]
      exact ⟨hreported, hover⟩
    · rw [heq]
      exact ⟨hreported, inv.mixin t refs bases hP (hbases.lookup rfl) hover⟩

theorem loadBases_invariant {fuel : Nat} (hfuel : bound ≤ fuel) {bases : List ClassRef} {s : Loading}
    (hP : ∀ r ∈ bases, P (r.key plan.macros)) (hs : s.Reported) (hI : I s) :
    (loadBases plan fuel bases s).Reported ∧ I (loadBases plan fuel bases s) := by
  unfold loadBases
  split
  · exact ⟨hs.of_log rfl (extends_report [] s _).troubled, inv.empty s hI⟩
  · refine ⟨hs, inv.await s _ (fun k hk => ?_) hI⟩
    rw [mem_singleton.mp hk]
    exact hP _ mem_cons_self
  · exact loadMixin_invariant inv hfuel hP hs hI

theorem loadRequest_invariant {fuel : Nat} (hfuel : bound ≤ fuel) (r : Request) (s : Loading)
    (hP : ∀ c ∈ r.references, P (c.key plan.macros)) (hs : s.Reported) (hI : I s) :
    (loadRequest plan fuel r s).Reported ∧ I (loadRequest plan fuel r s) := by
  rw [loadRequest_eq_foldl]
  refine List.foldlRecOn (motive := fun s => s.Reported ∧ I s) r.nodes _ ⟨hs, hI⟩ ?_
  intro s hs node hnode
  exact loadBases_invariant inv hfuel (fun c hc => hP c (Request.mem_references r hnode hc)) hs.1 hs.2

end

/-! ## Loading what waits -/

theorem isSettled_of_dropWhile {s : Loading} {rest : List ModuleKey}
    (h : s.waiting.dropWhile s.isSettled = key :: rest) : s.isSettled key = false := by
  have hne : s.waiting.dropWhile s.isSettled ≠ [] := by simp [h]
  have hhead := head_dropWhile_not s.isSettled hne
  simpa only [h, head_cons] using hhead

theorem loadWaiting_invariant {plan : LoadPlan} {fuel bound : Nat} {P : ModuleKey → Prop} {I : Loading → Prop}
    (next : ∀ s key rest, s.waiting.dropWhile s.isSettled = key :: rest → s.Reported → I s →
      P key ∧ I (loadFrom plan fuel [] key { s with waiting := rest }).2)
    (done : ∀ s, s.waiting.dropWhile s.isSettled = [] → s.Reported → I s → I { s with waiting := [] })
    (giveUp : ∀ s (keys : List ModuleKey), keys.Nodup → (∀ k ∈ keys, P k) → bound < keys.length → I s → I s.giveUp) :
    ∀ (steps : Nat) (s : Loading) (taken : List ModuleKey), s.Reported →
      (s.exhausted = true ∨ taken.Nodup ∧ (∀ k ∈ taken, P k) ∧
        (∀ k ∈ taken, s.isSettled k = true) ∧ bound ≤ steps + taken.length) → I s →
      I (loadWaiting plan fuel steps s) := by
  intro steps
  induction steps with
  | zero =>
    intro s taken hs htaken hI
    rw [loadWaiting]
    split
    · next hempty => exact done s hempty hs hI
    · next key rest hnext =>
      rcases htaken with hexhausted | ⟨hnodup, hP, hsettled, hbound⟩
      · have same : s.giveUp = s := by
          rw [Loading.giveUp, ← hexhausted]
        exact same.symm ▸ hI
      · have hkey := isSettled_of_dropWhile hnext
        have hfresh : key ∉ taken := by
          intro hmem
          simp [hsettled key hmem] at hkey
        refine giveUp s (key :: taken) (nodup_cons.mpr ⟨hfresh, hnodup⟩)
          (forall_mem_cons.mpr ⟨(next s key rest hnext hs hI).1, hP⟩) ?_ hI
        rw [length_cons]
        omega
  | succ steps ih =>
    intro s taken hs htaken hI
    rw [loadWaiting]
    split
    · next hempty => exact done s hempty hs hI
    · next key rest hnext =>
      obtain ⟨hPkey, hone⟩ := next s key rest hnext hs hI
      have hloads := loadFrom_loads plan fuel [] key { s with waiting := rest }
      refine ih _ (key :: taken) (hloads.reported hs) ?_ hone
      rcases htaken with hexhausted | ⟨hnodup, hP, hsettled, hbound⟩
      · exact .inl (hloads.frame.exhausted hexhausted)
      · rcases hloads.isSettled with hexhausted | hdone
        · exact .inl hexhausted
        · have hfresh : key ∉ taken := by
            intro hmem
            simpa [isSettled_of_dropWhile hnext] using hsettled key hmem
          refine .inr ⟨nodup_cons.mpr ⟨hfresh, hnodup⟩,
            forall_mem_cons.mpr ⟨hPkey, hP⟩, forall_mem_cons.mpr ⟨hdone, ?_⟩, ?_⟩
          · exact fun k hk => hloads.frame.isSettled (hsettled k hk)
          · rw [length_cons]
            omega

theorem loadWithin_invariant {bound : Nat} {P : ModuleKey → Prop} (inv : RequestInvariant plan bound P Q I)
    (waiting : ∀ s, I s → ∀ k ∈ s.waiting, P k)
    (drop : ∀ s rest, rest ⊆ s.waiting → I s → I { s with waiting := rest }) {l : Library} {r : Request}
    (hrefs : ∀ c ∈ r.references, P (c.key plan.macros)) (start : I { library := l }) :
    I (l.loadWithin plan bound r) := by
  obtain ⟨hs, hI⟩ := loadRequest_invariant inv (Nat.le_refl bound) r { library := l } hrefs
    (fun hne => absurd rfl hne) start
  refine loadWaiting_invariant ?_ ?_ inv.giveUp bound _ [] hs (.inr ⟨nodup_nil, nofun, nofun, Nat.le_refl _⟩) hI
  · intro s key rest hnext hs hI
    have hsub : key :: rest ⊆ s.waiting := hnext ▸ dropWhile_subset _
    have hkey := waiting s hI key (hsub mem_cons_self)
    refine ⟨hkey, loadFrom_invariant_top inv.toLoadInvariant (Nat.le_refl bound) key _ hkey hs ?_⟩
    exact drop s rest (fun k hk => hsub (mem_cons_of_mem _ hk)) hI
  · intro s _ _ hI
    exact drop s [] (nil_subset _) hI

theorem Library.exists_loadWithin (l : Library) (plan : LoadPlan) (r : Request) :
    ∃ bound, l.loadBy plan r = l.loadWithin plan bound r := by
  unfold Library.loadBy
  dsimp only
  split
  · exact ⟨_, rfl⟩
  · exact ⟨_, rfl⟩

end ShaderCompose
