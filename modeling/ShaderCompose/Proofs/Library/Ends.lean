import ShaderCompose.Proofs.Library.Closed

/-!
How a load ends, within whatever bound.
-/

namespace ShaderCompose

open List Loading

/-! ## Larger bounds -/

section

variable {plan : LoadPlan} {fuel fuel' : Nat}

theorem exhausted_before {s t : Loading} (h : s.exhausted = true → t.exhausted = true)
    (ht : t.exhausted = false) : s.exhausted = false := by
  rw [← Bool.not_eq_true] at ht ⊢
  exact mt h ht

theorem loadFrom_known {path : List ModuleKey} {key : ModuleKey} {s : Loading}
    {result : Option LoadedClass × Loading} (h : s.known? path key = some result) :
    loadFrom plan fuel path key s = result := by
  cases fuel <;> rw [loadFrom, h]

theorem loadEach_mono {path : List ModuleKey} (hload : ∀ key s, (loadFrom plan fuel path key s).2.exhausted = false →
      loadFrom plan fuel' path key s = loadFrom plan fuel path key s) :
    ∀ (keys : List ModuleKey) (s : Loading), (loadEach (loadFrom plan fuel path) keys s).2.exhausted = false →
      loadEach (loadFrom plan fuel' path) keys s = loadEach (loadFrom plan fuel path) keys s := by
  intro keys
  induction keys with
  | nil => exact fun s _ => rfl
  | cons key keys ih =>
    intro s hfine
    rw [loadEach] at hfine
    rw [loadEach, loadEach]
    rcases hone : loadFrom plan fuel path key s with ⟨_ | c, t⟩ <;> rw [hone] at hfine
    · rw [hload key s (by rw [hone]; exact hfine), hone]
    · have ht := exhausted_before (loadEach_loads plan fuel path keys t).frame.exhausted hfine
      rw [hload key s (by rw [hone]; exact ht), hone]
      dsimp only
      rw [ih t hfine]

theorem loadFrom_mono (hfuel : fuel ≤ fuel') (path : List ModuleKey) (key : ModuleKey) (s : Loading)
    (hfine : (loadFrom plan fuel path key s).2.exhausted = false) :
    loadFrom plan fuel' path key s = loadFrom plan fuel path key s := by
  induction fuel generalizing fuel' path key s with
  | zero =>
    cases hknown : s.known? path key with
    | some result => rw [loadFrom_known hknown, loadFrom_known hknown]
    | none =>
      rw [loadFrom, hknown] at hfine
      cases hfine
  | succ fuel ih =>
    obtain ⟨fuel', rfl⟩ := Nat.exists_eq_add_of_le' (Nat.le_of_add_left_le hfuel)
    cases hknown : s.known? path key with
    | some result => rw [loadFrom_known hknown, loadFrom_known hknown]
    | none =>
      rw [loadFrom, hknown] at hfine
      rw [loadFrom, loadFrom]
      generalize s.read plan key = one at hfine ⊢
      obtain ⟨_ | r, t⟩ := one
      · rfl
      · dsimp only at hfine ⊢
        rw [loadEach_mono (ih (Nat.le_of_succ_le_succ hfuel) (key :: path)) _ t ?_]
        generalize loadEach (loadFrom plan fuel (key :: path)) (baseKeysOf r.cls plan.macros) t = all at hfine ⊢
        obtain ⟨_ | bases, u⟩ := all
        · exact hfine
        · obtain ⟨_, hsnd⟩ := finishClass_snd plan key r bases u
          rw [hsnd] at hfine
          exact hfine

theorem loadBases_mono (hfuel : fuel ≤ fuel') (refs : List ClassRef) (s : Loading)
    (hfine : (loadBases plan fuel refs s).exhausted = false) :
    loadBases plan fuel' refs s = loadBases plan fuel refs s := by
  match refs with
  | [] => rfl
  | [_] => rfl
  | cls :: other :: rest =>
    rw [loadBases, loadMixin] at hfine
    rw [loadBases, loadBases, loadMixin, loadMixin]
    split
    · rfl
    · next hloaded =>
      rw [if_neg hloaded] at hfine
      rw [loadEach_mono (loadFrom_mono hfuel []) _ s ?_]
      generalize loadEach _ _ s = all at hfine ⊢
      obtain ⟨_ | bases, t⟩ := all
      · exact hfine
      · exact hfine

theorem loadNodes_mono (hfuel : fuel ≤ fuel') : ∀ (nodes : List Request) (s : Loading),
    (nodes.foldl (fun s node => loadBases plan fuel node.classes s) s).exhausted = false →
    nodes.foldl (fun s node => loadBases plan fuel' node.classes s) s =
      nodes.foldl (fun s node => loadBases plan fuel node.classes s) s := by
  intro nodes
  induction nodes with
  | nil => exact fun s _ => rfl
  | cons node nodes ih =>
    intro s hfine
    have hkeep : (loadBases plan fuel node.classes s).exhausted = true → _ := fun h =>
      List.foldlRecOn (motive := fun s => s.exhausted = true) nodes
        (fun s node => loadBases plan fuel node.classes s) h
        fun s h node _ => (loadBases_follows plan fuel node.classes s).exhausted h
    rw [foldl_cons, foldl_cons, loadBases_mono hfuel node.classes s (exhausted_before hkeep hfine), ih _ hfine]

theorem loadWaiting_exhausted (plan : LoadPlan) (fuel : Nat) : ∀ (steps : Nat) (s : Loading),
    s.exhausted = true → (loadWaiting plan fuel steps s).exhausted = true := by
  intro steps
  induction steps with
  | zero =>
    intro s h
    rw [loadWaiting]
    split
    · exact h
    · rfl
  | succ steps ih =>
    intro s h
    rw [loadWaiting]
    split
    · exact h
    · next key rest _ =>
      exact ih _ ((loadFrom_loads plan fuel [] key { s with waiting := rest }).frame.exhausted h)

theorem loadWaiting_mono (hfuel : fuel ≤ fuel') {steps steps' : Nat} (hsteps : steps ≤ steps')
    (s : Loading) (hfine : (loadWaiting plan fuel steps s).exhausted = false) :
    loadWaiting plan fuel' steps' s = loadWaiting plan fuel steps s := by
  induction steps generalizing steps' s with
  | zero =>
    cases hnext : s.waiting.dropWhile s.isSettled with
    | nil => cases steps' <;> rw [loadWaiting, loadWaiting, hnext]
    | cons key rest =>
      rw [loadWaiting, hnext] at hfine
      cases hfine
  | succ steps ih =>
    obtain ⟨steps', rfl⟩ := Nat.exists_eq_add_of_le' (Nat.le_of_add_left_le hsteps)
    rw [loadWaiting] at hfine
    rw [loadWaiting, loadWaiting]
    cases hnext : s.waiting.dropWhile s.isSettled with
    | nil => rfl
    | cons key rest =>
      rw [hnext] at hfine
      dsimp only at hfine ⊢
      have hone := exhausted_before (loadWaiting_exhausted plan fuel steps _) hfine
      rw [loadFrom_mono hfuel [] key _ hone, ih (Nat.le_of_succ_le_succ hsteps) _ hfine]

end

namespace Library

variable {l : Library} {plan : LoadPlan} {r : Request}

theorem loadWithin_mono {bound bound' : Nat} (hbound : bound ≤ bound')
    (hfine : (l.loadWithin plan bound r).exhausted = false) :
    l.loadWithin plan bound' r = l.loadWithin plan bound r := by
  have hrequest := exhausted_before (loadWaiting_exhausted plan bound bound _) hfine
  rw [loadRequest_eq_foldl] at hrequest
  rw [loadWithin, loadWithin, loadRequest_eq_foldl, loadRequest_eq_foldl, loadNodes_mono hbound _ _ hrequest,
    loadWaiting_mono hbound hbound]
  rw [← loadRequest_eq_foldl]
  exact hfine

theorem loadWithin_eq_loadBy (h : l.Grounded) {bound : Nat} (hbound : l.reach plan.macros r ≤ bound) :
    l.loadWithin plan bound r = l.loadBy plan r := by
  have hfine := (loadWithin_inReach h plan bound r).2 hbound
  have hend := loadBy_exhausted h plan r
  obtain ⟨bound', hbound'⟩ := l.exists_loadWithin plan r
  rw [hbound'] at hend ⊢
  rw [← loadWithin_mono (Nat.le_max_left bound bound') hfine, loadWithin_mono (Nat.le_max_right bound bound') hend]

end Library

/-! ## What is read -/

/-- No key is read twice; each is settled or on the path. -/
structure Loading.Tracked (path : List ModuleKey) (s : Loading) : Prop where
  nodup : s.parsed.Nodup
  settled : ∀ k ∈ s.parsed, s.isSettled k = true ∨ k ∈ path

namespace Loading.Tracked

variable {plan : LoadPlan} {path : List ModuleKey} {key : ModuleKey} {s t : Loading}

theorem of_follows (h : s.Tracked path) (hparsed : t.parsed = s.parsed) (hfollows : Follows s t) :
    t.Tracked path := by
  refine ⟨hparsed ▸ h.nodup, fun k hk => ?_⟩
  exact (h.settled k (hparsed ▸ hk)).imp_left (hfollows.settled k)

theorem of_done (h : s.Tracked (key :: path)) (hparsed : t.parsed = s.parsed) (hfollows : Follows s t)
    (hkey : t.isSettled key = true) : t.Tracked path := by
  obtain ⟨hnodup, hsettled⟩ := h.of_follows hparsed hfollows
  refine ⟨hnodup, fun k hk => ?_⟩
  rcases hsettled k hk with hk | hk
  · exact .inl hk
  · rcases mem_cons.mp hk with rfl | hk
    · exact .inl hkey
    · exact .inr hk

theorem fail (h : s.Tracked (key :: path)) : (s.fail key).Tracked path :=
  h.of_done rfl (extends_fail [] s key).follows (by simp [isSettled, Loading.fail])

theorem read (h : s.Tracked path) (hknown : s.known? path key = none) :
    (s.read plan key).2.Tracked (key :: path) := by
  obtain ⟨fresh, hfailed, hpath, -⟩ := known?_eq_none hknown
  have hunread : key ∉ s.parsed := by
    intro hkey
    rcases h.settled key hkey with hsettled | hkey
    · simp [isSettled, fresh, hfailed] at hsettled
    · exact hpath hkey
  refine ⟨nodup_cons.mpr ⟨hunread, h.nodup⟩, fun k hk => ?_⟩
  rcases mem_cons.mp hk with rfl | hk
  · exact .inr mem_cons_self
  · exact (h.settled k hk).imp_right (mem_cons_of_mem key)

end Loading.Tracked

theorem LoadsEach.tracked {plan : LoadPlan} {fuel : Nat} {path keys : List ModuleKey} {s t : Loading}
    {found : Option (List LoadedClass)} (h : LoadsEach plan fuel path keys s found t)
    (hs : s.Tracked path) : t.Tracked path := by
  induction h with
  | nil | failed _ => exact hs
  | loaded _ _ ih => exact ih hs
  | taken _ _ _ _ ih => exact ih (hs.of_follows rfl ((extends_await [] _ _).follows.trans (.add ..)))
  | cyclic _ | tooDeep _ => exact ⟨hs.nodup, hs.settled⟩
  | unread hknown _ => exact (hs.read hknown).fail
  | baseless hknown _ _ ih => exact (ih (hs.read hknown)).fail
  | @made _ _ _ key _ t _ r bases _ hknown _ _ fresh _ _ ihbases ih =>
    obtain ⟨hframe, hkey⟩ := finishClass_spec plan r bases fresh not_mem_nil
    refine ih ((ihbases (hs.read hknown)).of_done ?_ hframe.follows (isSettled_of_loaded ?_))
    · obtain ⟨_, hsnd⟩ := finishClass_snd plan key r bases t
      rw [hsnd]
      rfl
    · rw [hkey, Option.isSome_some]

theorem loadBases_tracked (plan : LoadPlan) (fuel : Nat) (refs : List ClassRef) {s : Loading}
    (hs : s.Tracked []) : (loadBases plan fuel refs s).Tracked [] := by
  unfold loadBases
  split
  · exact ⟨hs.nodup, hs.settled⟩
  · exact ⟨hs.nodup, hs.settled⟩
  · next cls other rest =>
    rcases loadMixin_cases plan fuel (cls :: other :: rest) s with
      ⟨-, heq⟩ | ⟨-, _, t, hbases, ⟨-, heq⟩ | ⟨_, -, heq⟩⟩ <;> rw [heq]
    · exact hs
    · exact hbases.tracked hs
    · exact (hbases.tracked hs).of_follows rfl ((extends_takeNumber [] t).follows.trans (.add ..))

namespace Library

variable {l : Library} {plan : LoadPlan} {r : Request}

theorem loadWithin_induction {I : Loading → Prop} {bound : Nat} (start : I { library := l })
    (node : ∀ node ∈ r.nodes, ∀ s, s.Reported → I s → I (loadBases plan bound node.classes s))
    (next : ∀ s key rest, key :: rest ⊆ s.waiting → s.Reported → I s →
      I (loadFrom plan bound [] key { s with waiting := rest }).2)
    (done : ∀ s, I s → I { s with waiting := [] }) (giveUp : ∀ s, I s → I s.giveUp) :
    I (l.loadWithin plan bound r) := by
  have hnodes : (loadRequest plan bound r { library := l }).Reported ∧
      I (loadRequest plan bound r { library := l }) := by
    rw [loadRequest_eq_foldl]
    refine List.foldlRecOn (motive := fun s => s.Reported ∧ I s) r.nodes _
      ⟨fun hne => absurd rfl hne, start⟩ fun s hs n hn => ?_
    exact ⟨(loadBases_noted plan bound n hs.1).1, node n hn s hs.1 hs.2⟩
  refine @loadWaiting_invariant plan bound 0 (fun _ => True) I ?_ (fun s _ _ => done s)
    (fun s _ _ _ _ => giveUp s) bound _ [] hnodes.1
    (.inr ⟨nodup_nil, forall_mem_nil _, forall_mem_nil _, Nat.zero_le _⟩) hnodes.2
  exact fun s key rest hnext hs hI => ⟨trivial, next s key rest (hnext ▸ dropWhile_subset _) hs hI⟩

theorem loadBy_tracked (l : Library) (plan : LoadPlan) (r : Request) : (l.loadBy plan r).Tracked [] := by
  obtain ⟨bound, hbound⟩ := l.exists_loadWithin plan r
  rw [hbound]
  exact loadWithin_induction ⟨nodup_nil, forall_mem_nil _⟩ (fun _ _ _ _ hs => loadBases_tracked plan bound _ hs)
    (fun s key rest _ _ hs => (loadFrom_loads plan bound [] key { s with waiting := rest }).tracked
      ⟨hs.nodup, hs.settled⟩)
    (fun s hs => ⟨hs.nodup, hs.settled⟩) (fun s hs => ⟨hs.nodup, hs.settled⟩)

/-- A load ends within every bound that is not below the keys that can be formed, and always in the
same way. -/
theorem loadBy_ends (h : l.Reachable) (plan : LoadPlan) (r : Request) :
    (∀ bound, l.reach plan.macros r ≤ bound → l.loadWithin plan bound r = l.loadBy plan r) ∧
    (l.loadBy plan r).exhausted = false ∧ (l.loadBy plan r).waiting = [] ∧
    (l.loadBy plan r).parsed.Nodup ∧ (l.loadBy plan r).parsed.length ≤ l.reach plan.macros r := by
  have hgrounded := h.sound.1
  have hfine := loadBy_exhausted hgrounded plan r
  have hnodup := (l.loadBy_tracked plan r).nodup
  obtain ⟨bound, hbound⟩ := l.exists_loadWithin plan r
  have hwaiting : (l.loadBy plan r).waiting = [] := by
    rw [hbound] at hfine ⊢
    exact (loadWaiting_waiting plan bound bound _).resolve_right (Bool.eq_false_iff.mp hfine)
  have hformed := (loadWithin_inReach hgrounded plan bound r).1.parsed
  rw [← hbound] at hformed
  exact ⟨fun _ henough => loadWithin_eq_loadBy hgrounded henough, hfine, hwaiting, hnodup,
    length_le_countKeys hnodup hformed⟩

def entangledLibrary : Library where
  store :=
    { inMemory :=
        [("A", "shader A<int N> : B<N> { };"), ("B", "shader B<int N> : A<N> { };"),
         ("X", "shader X { compose Y other; };"), ("Y", "shader Y { compose X other; };")] }

def entangledLoad (bound : Nat) : Loading :=
  entangledLibrary.loadWithin ⟨[], false, fun _ _ => []⟩ bound
    (.mixin [⟨"X", []⟩] [("other", .single ⟨"A", ["1"]⟩)] [])

theorem loadBy_entangled_ends :
    ∃ t : Loading, (∃ reach, ∀ bound, reach ≤ bound → entangledLoad bound = t) ∧ t.exhausted = false ∧
      t.waiting = [] ∧ t.parsed.Nodup ∧ t.parsed.length = 4 := by
  obtain ⟨hsame, hfine, hwaiting, hnodup, -⟩ := loadBy_ends (l := entangledLibrary) (.new _ 0)
    ⟨[], false, fun _ _ => []⟩ (.mixin [⟨"X", []⟩] [("other", .single ⟨"A", ["1"]⟩)] [])
  exact ⟨_, ⟨_, hsame⟩, hfine, hwaiting, hnodup, by decide +kernel⟩

end Library

end ShaderCompose
