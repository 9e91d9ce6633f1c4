import ShaderCompose.Proofs.Library.Reach

/-!
Nothing that a request needs is forgotten.
-/

namespace ShaderCompose

open List

namespace Loading

def Pending (s : Loading) (key : ModuleKey) : Prop :=
  s.isSettled key = true ∨ key ∈ s.waiting ∨ s.exhausted = true

theorem isSettled_of_loaded {s : Loading} {key : ModuleKey} (h : (s.loaded.lookup key).isSome = true) :
    s.isSettled key = true := by
  rw [isSettled, h, Bool.true_or]

structure Follows (s t : Loading) : Prop where
  settled : ∀ key, s.isSettled key = true → t.isSettled key = true
  waiting : s.waiting ⊆ t.waiting
  exhausted : s.exhausted = true → t.exhausted = true
  troubled : s.Troubled → t.Troubled

theorem Extends.follows {path : List ModuleKey} {s t : Loading} (h : Extends path s t) :
    Follows s t :=
  ⟨fun _ => h.isSettled, h.waiting, h.exhausted, h.troubled⟩

namespace Follows

variable {s t u : Loading}

theorem trans (h : Follows s t) (h' : Follows t u) : Follows s u :=
  ⟨fun key hs => h'.settled key (h.settled key hs), fun _ hk => h'.waiting (h.waiting hk),
    fun hs => h'.exhausted (h.exhausted hs), fun hs => h'.troubled (h.troubled hs)⟩

theorem pending (h : Follows s t) {key : ModuleKey} (hs : s.Pending key) : t.Pending key :=
  hs.imp (h.settled key) (Or.imp (fun hk => h.waiting hk) h.exhausted)

theorem add (s : Loading) (key : ModuleKey) (c : LoadedClass) : Follows s (s.add key c) where
  settled k hk := by
    rw [isSettled, Loading.add, lookup_setKey]
    split
    · rfl
    · exact hk
  waiting _ h := h
  exhausted h := h
  troubled h := h

end Follows

def Closed (wanted extra : ModuleKey → Prop) (s : Loading) : Prop :=
  ∀ d, (wanted d ∨ ∃ e ∈ s.loaded, d ∈ e.2.dependencies) → s.Pending d ∨ extra d

theorem Closed.step {wanted extra : ModuleKey → Prop} {s t : Loading} (h : s.Closed wanted extra)
    (hfollows : Follows s t)
    (hloaded : ∀ e ∈ t.loaded, e ∈ s.loaded ∨ ∀ d ∈ e.2.dependencies, t.Pending d) :
    t.Closed wanted extra := by
  rintro d (hd | ⟨e, he, hd⟩)
  · exact (h d (.inl hd)).imp_left hfollows.pending
  · rcases hloaded e he with he | hnew
    · exact (h d (.inr ⟨e, he, hd⟩)).imp_left hfollows.pending
    · exact .inl (hnew d hd)

end Loading

open Loading

theorem isSome_of_loadedBases {loaded : Cache} {keys : List ModuleKey} {bases : List LoadedClass}
    (h : List.Forall₂ (fun k c => loaded.lookup k = some c) keys bases) :
    ∀ k ∈ keys, (loaded.lookup k).isSome = true := by
  induction h with
  | nil => exact forall_mem_nil _
  | cons hk _ ih => exact forall_mem_cons.mpr ⟨by rw [hk, Option.isSome_some], ih⟩

theorem closed_invariant (plan : LoadPlan) (bound : Nat) (wanted extra : ModuleKey → Prop) :
    RequestInvariant plan bound (fun _ => True) (fun _ _ => True) (Closed wanted extra) where
  cyclic s _ _ _ h := h.step (extends_report [] s _).follows fun _ he => .inl he
  empty s h := h.step (extends_report [] s _).follows fun _ he => .inl he
  giveUp s _ _ _ _ h := h.step (extends_giveUp [] s).follows fun _ he => .inl he
  fail s key _ _ _ h := h.step (extends_fail [] s key).follows fun _ he => .inl he
  await s keys _ h := h.step (extends_await [] s keys).follows fun _ he => .inl he
  take s key c _ _ _ h := by
    refine h.step ((extends_await [] s c.dependencies).follows.trans (.add _ key c)) ?_
    intro e he
    rcases mem_setKey he with rfl | he
    · refine .inr fun d hd => .inr (.inl ?_)
      exact mem_append_left _ (mem_reverse.mpr hd)
    · exact .inl he
  read s key _ _ _ h := ⟨h.step (extends_read plan key s []).follows fun _ he => .inl he, fun _ _ => trivial⟩
  base _ _ _ _ _ := trivial
  finish s key read bases _ _ fresh unkept hbases h := by
    have hfollows := (finishClass_spec plan read bases fresh not_mem_nil).1.follows
    refine h.step hfollows fun e he => ?_
    obtain ⟨hloaded, hwaiting⟩ := finishClass_made plan read bases unkept
    rw [hloaded] at he
    rcases mem_setKey he with rfl | he
    · refine .inr fun d hd => ?_
      rcases mem_append.mp hd with hd | hd
      · exact hfollows.pending (.inl (isSettled_of_loaded (isSome_of_loadedBases hbases d hd)))
      · refine .inr (.inl ?_)
        rw [hwaiting]
        exact mem_append_left _ (mem_reverse.mpr hd)
    · exact .inl he
  mixin s refs bases _ hbases h := by
    have hfollows := (extends_takeNumber [] s).follows.trans (.add s.takeNumber (mixinKey refs plan.macros)
        (madeMixin plan.macros refs bases s.library.next))
    refine h.step hfollows fun e he => ?_
    rcases mem_setKey he with rfl | he
    · refine .inr fun d hd => ?_
      rw [LoadedClass.dependencies, madeMixin, append_nil] at hd
      exact hfollows.pending (.inl (isSettled_of_loaded (isSome_of_loadedBases hbases d hd)))
    · exact .inl he

/-! ## The classes of a request -/

def Loading.Noted (macros : List MacroDef) (s : Loading) (node : Request) : Prop :=
  (s.Troubled ∧ node.classes.length ≠ 1) ∨ ∃ key, node.key? macros = some key ∧ s.Pending key

theorem Loading.Follows.noted {macros : List MacroDef} {s t : Loading} (h : Follows s t)
    {node : Request} (hs : s.Noted macros node) : t.Noted macros node := by
  rcases hs with ⟨hs, hnode⟩ | ⟨key, hkey, hs⟩
  · exact .inl ⟨h.troubled hs, hnode⟩
  · exact .inr ⟨key, hkey, h.pending hs⟩

theorem loadBases_follows (plan : LoadPlan) (fuel : Nat) (refs : List ClassRef) (s : Loading) :
    Follows s (loadBases plan fuel refs s) := by
  unfold loadBases
  split
  · exact (extends_report [] s _).follows
  · exact (extends_await [] s _).follows
  · next cls other rest =>
    rcases loadMixin_cases plan fuel (cls :: other :: rest) s with
      ⟨-, heq⟩ | ⟨-, _, t, hbases, ⟨-, heq⟩ | ⟨_, -, heq⟩⟩ <;> rw [heq]
    · exact (Extends.refl [] s).follows
    · exact hbases.frame.follows
    · exact hbases.frame.follows.trans ((extends_takeNumber [] t).follows.trans (.add ..))

theorem loadBases_noted (plan : LoadPlan) (fuel : Nat) (node : Request) {s : Loading} (hs : s.Reported) :
    (loadBases plan fuel node.classes s).Reported ∧
      (loadBases plan fuel node.classes s).Noted plan.macros node := by
  have hkey := node.key?_eq plan.macros
  unfold Loading.Noted
  match hclasses : node.classes with
  | [] =>
    refine ⟨hs.of_log rfl (extends_report [] s _).troubled, .inl ⟨.inl ?_, Nat.zero_ne_one⟩⟩
    simp [loadBases, Loading.report, Log.hasErrors, Diagnostic.error]
  | [cls] =>
    rw [hclasses] at hkey
    refine ⟨hs, .inr ⟨_, hkey, .inr (.inl ?_)⟩⟩
    exact mem_append_left _ (mem_singleton_self _)
  | cls :: other :: rest =>
    rw [hclasses] at hkey
    rw [loadBases]
    rcases loadMixin_cases plan fuel (cls :: other :: rest) s with
      ⟨hloaded, heq⟩ | ⟨-, _, t, hbases, ⟨rfl, heq⟩ | ⟨bases, rfl, heq⟩⟩ <;> rw [heq]
    · exact ⟨hs, .inr ⟨_, hkey, .inl (isSettled_of_loaded hloaded)⟩⟩
    · have hreported := hbases.reported hs
      exact ⟨hreported, .inl ⟨hbases.troubled hreported, by simp⟩⟩
    · refine ⟨hbases.reported hs, .inr ⟨_, hkey, .inl (isSettled_of_loaded ?_)⟩⟩
      simp [Loading.add]

theorem loadRequest_noted (plan : LoadPlan) (fuel : Nat) (r : Request) (s : Loading) (hs : s.Reported) :
    (loadRequest plan fuel r s).Reported ∧
      ∀ node ∈ r.nodes, (loadRequest plan fuel r s).Noted plan.macros node := by
  suffices hall : ∀ (nodes : List Request) (s : Loading), s.Reported →
      Follows s (nodes.foldl (fun s node => loadBases plan fuel node.classes s) s) ∧
      (nodes.foldl (fun s node => loadBases plan fuel node.classes s) s).Reported ∧
      ∀ node ∈ nodes, (nodes.foldl (fun s node => loadBases plan fuel node.classes s) s).Noted
        plan.macros node by
    rw [loadRequest_eq_foldl]
    exact (hall r.nodes s hs).2
  intro nodes
  induction nodes with
  | nil => exact fun s hs => ⟨(Extends.refl [] s).follows, hs, forall_mem_nil _⟩
  | cons node nodes ih =>
    intro s hs
    obtain ⟨hs, hnoted⟩ := loadBases_noted plan fuel node hs
    obtain ⟨hrest, hs, hmore⟩ := ih _ hs
    exact ⟨(loadBases_follows ..).trans hrest, hs, forall_mem_cons.mpr ⟨hrest.noted hnoted, hmore⟩⟩

/-! ## The whole load -/

theorem loadWaiting_waiting (plan : LoadPlan) (fuel : Nat) : ∀ (steps : Nat) (s : Loading),
    (loadWaiting plan fuel steps s).waiting = [] ∨
      (loadWaiting plan fuel steps s).exhausted = true := by
  intro steps
  induction steps with
  | zero =>
    intro s
    rw [loadWaiting]
    split
    · exact .inl rfl
    · exact .inr rfl
  | succ steps ih =>
    intro s
    rw [loadWaiting]
    split
    · exact .inl rfl
    · exact ih _

theorem loaded_of_isSettled {s : Loading} (hs : s.Reported) {key : ModuleKey}
    (h : s.isSettled key = true) : (s.loaded.lookup key).isSome = true ∨ s.Troubled := by
  rw [Loading.isSettled, Bool.or_eq_true] at h
  refine h.imp_right fun hfailed => hs ?_
  exact ne_nil_of_mem (show key ∈ s.failed by simpa using hfailed)

theorem pending_of_dropWhile {s : Loading} {d : ModuleKey} (hd : s.Pending d) :
    s.isSettled d = true ∨ d ∈ s.waiting.dropWhile s.isSettled ∨ s.exhausted = true := by
  rcases hd with hd | hd | hd
  · exact .inl hd
  · have hsplit : s.waiting.takeWhile s.isSettled ++ s.waiting.dropWhile s.isSettled = s.waiting :=
      takeWhile_append_dropWhile
    rw [← hsplit] at hd
    rcases mem_append.mp hd with hd | hd
    · exact .inl (mem_takeWhile_imp hd)
    · exact .inr (.inl hd)
  · exact .inr (.inr hd)

theorem loadWaiting_closed (plan : LoadPlan) (fuel : Nat) {wanted : ModuleKey → Prop} (steps : Nat)
    {s : Loading} (hs : s.Reported) (h : s.Closed wanted fun _ => False) :
    (loadWaiting plan fuel steps s).Reported ∧ (s.Troubled → (loadWaiting plan fuel steps s).Troubled) ∧
      (loadWaiting plan fuel steps s).Closed wanted fun _ => False := by
  refine @loadWaiting_invariant plan fuel 0 (fun _ => True)
    (fun u => u.Reported ∧ (s.Troubled → u.Troubled) ∧ u.Closed wanted fun _ => False) ?_ ?_ ?_ steps s [] hs
    (.inr ⟨nodup_nil, forall_mem_nil _, forall_mem_nil _, Nat.zero_le _⟩) ⟨hs, id, h⟩
  · intro u key rest hnext hu h
    have hloads := loadFrom_loads plan fuel [] key { u with waiting := rest }
    refine ⟨trivial, hloads.reported hu, fun htrouble => hloads.frame.troubled (h.2.1 htrouble), ?_⟩
    -- while the key is being loaded it is the one that is not taken care of
    have hbefore : ({ u with waiting := rest } : Loading).Closed wanted (· = key) := by
      intro d hd
      rcases pending_of_dropWhile ((h.2.2 d hd).resolve_right id) with hd | hd | hd
      · exact .inl (.inl hd)
      · rw [hnext] at hd
        rcases mem_cons.mp hd with rfl | hd
        · exact .inr rfl
        · exact .inl (.inr (.inl hd))
      · exact .inl (.inr (.inr hd))
    have hafter := loadFrom_invariant_top (closed_invariant plan 0 wanted (· = key)).toLoadInvariant
      (Nat.zero_le fuel) key { u with waiting := rest } trivial hu hbefore
    intro d hd
    refine .inl ((hafter d hd).elim id ?_)
    rintro rfl
    exact hloads.isSettled.symm.imp_right .inr
  · intro u hempty hu h
    refine ⟨hu, h.2.1, fun d hd => ?_⟩
    rcases pending_of_dropWhile ((h.2.2 d hd).resolve_right id) with hd | hd | hd
    · exact .inl (.inl hd)
    · rw [hempty] at hd
      exact absurd hd not_mem_nil
    · exact .inl (.inr (.inr hd))
  · exact fun u keys hnodup hkeys hlong h => ⟨fun _ => .inr rfl, fun _ => .inr rfl,
      (closed_invariant plan 0 wanted fun _ => False).giveUp u keys hnodup hkeys hlong h.2.2⟩

namespace Library

theorem loadBy_settled {l : Library} (hl : l.Grounded) (plan : LoadPlan) (r : Request) : (l.loadBy plan r).Reported ∧
    (∀ node ∈ r.nodes, ((l.loadBy plan r).log.hasErrors = true ∧ node.classes.length ≠ 1) ∨
      ∃ key, node.key? plan.macros = some key ∧ (l.loadBy plan r).isSettled key = true) ∧
    ∀ e ∈ (l.loadBy plan r).loaded, ∀ d ∈ e.2.dependencies, (l.loadBy plan r).isSettled d = true := by
  have hfine := loadBy_exhausted hl plan r
  obtain ⟨bound, hbound⟩ := l.exists_loadWithin plan r
  rw [hbound] at hfine ⊢
  have hstart : ({ library := l } : Loading).Reported := fun hne => absurd rfl hne
  obtain ⟨hs, hnoted⟩ := loadRequest_noted plan bound r { library := l } hstart
  have hclosed := (loadRequest_invariant (closed_invariant plan 0 (fun _ => False) fun _ => False)
    (Nat.zero_le bound) r { library := l } (fun _ _ => trivial) hstart
    (by rintro d (⟨⟨⟩⟩ | ⟨e, he, -⟩); exact absurd he not_mem_nil)).2
  set s := loadRequest plan bound r { library := l }
  -- whatever is taken care of after the request is wanted from then on
  have hwanted : s.Closed s.Pending fun _ => False := fun d hd => hd.elim .inl fun hd => hclosed d (.inr hd)
  obtain ⟨hreported, htroubled, hfinal⟩ := loadWaiting_closed plan bound bound hs hwanted
  have hsettled : ∀ d, (loadWaiting plan bound bound s).Pending d →
      (loadWaiting plan bound bound s).isSettled d = true := by
    rintro d (hd | hd | hd)
    · exact hd
    · rcases loadWaiting_waiting plan bound bound s with hempty | hexhausted
      · rw [hempty] at hd
        exact absurd hd not_mem_nil
      · exact absurd (hfine.symm.trans hexhausted) Bool.false_ne_true
    · exact absurd (hfine.symm.trans hd) Bool.false_ne_true
  refine ⟨hreported, fun node hnode => ?_, fun e he d hd => ?_⟩
  · rcases hnoted node hnode with ⟨htrouble, hclasses⟩ | ⟨key, hkey, hpending⟩
    · refine .inl ⟨(htroubled htrouble).resolve_right fun hgiven => ?_, hclasses⟩
      exact absurd (hfine.symm.trans hgiven) Bool.false_ne_true
    · exact .inr ⟨key, hkey, hsettled key ((hfinal key (.inl hpending)).resolve_right id)⟩
  · exact hsettled d ((hfinal d (.inr ⟨e, he, hd⟩)).resolve_right id)

theorem loadBy_closed {l : Library} (hl : l.Grounded) {plan : LoadPlan} {r : Request}
    (h : (l.loadBy plan r).log.hasErrors = false) :
    (∀ node ∈ r.nodes, ∃ key, node.key? plan.macros = some key ∧
      ((l.loadBy plan r).loaded.lookup key).isSome = true) ∧
    ∀ e ∈ (l.loadBy plan r).loaded, ∀ d ∈ e.2.dependencies,
      ((l.loadBy plan r).loaded.lookup d).isSome = true := by
  obtain ⟨hreported, hnodes, hdependencies⟩ := loadBy_settled hl plan r
  have hloaded : ∀ d, (l.loadBy plan r).isSettled d = true → ((l.loadBy plan r).loaded.lookup d).isSome = true := by
    intro d hd
    refine (loaded_of_isSettled hreported hd).resolve_right ?_
    rintro (herrors | hgiven)
    · exact absurd (h.symm.trans herrors) Bool.false_ne_true
    · exact absurd ((loadBy_exhausted hl plan r).symm.trans hgiven) Bool.false_ne_true
  refine ⟨fun node hnode => ?_, fun e he d hd => hloaded d (hdependencies e he d hd)⟩
  rcases hnodes node hnode with ⟨herrors, -⟩ | ⟨key, hkey, hsettled⟩
  · exact absurd (h.symm.trans herrors) Bool.false_ne_true
  · exact ⟨key, hkey, hloaded key hsettled⟩

end Library

end ShaderCompose
