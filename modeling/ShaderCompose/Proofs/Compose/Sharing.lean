import ShaderCompose.Proofs.Compose.Instances

/-!
Which modules two sites of a request share.
-/

namespace ShaderCompose

namespace Context

variable {c : Context} {scope : CopyScope}

variable {lo hi : Nat} {ms : List Module}

theorem Sites.get (h : c.Sites scope lo hi ms) :
    ∀ {j : Nat} {n : Module}, ms[j]? = some n → ∃ d e, lo ≤ d ∧ c.Instance scope d e n := by
  induction h with
  | nil => intro j n hn; simp at hn
  | @cons lo mid hi m ms hm hle _ ih =>
    intro j n hn
    cases j with
    | zero => exact ⟨lo, mid, Nat.le_refl _, Option.some.inj hn ▸ hm⟩
    | succ j =>
      obtain ⟨d, e, hd, hn⟩ := ih (by simpa using hn)
      exact ⟨d, e, hle.trans hd, hn⟩

theorem Sites.pair (h : c.Sites scope lo hi ms) :
    ∀ {i j : Nat} {m n : Module}, i < j → ms[i]? = some m → ms[j]? = some n →
      ∃ a b d e, lo ≤ a ∧ lo ≤ d ∧ c.Instance scope a b m ∧ c.Instance scope d e n ∧ b ≤ d := by
  induction h with
  | nil => intro i j m n _ hm; simp at hm
  | @cons lo mid hi k ms hk hle hms ih =>
    intro i j m n hij hm hn
    obtain ⟨j, rfl⟩ := Nat.exists_eq_succ_of_ne_zero (Nat.ne_zero_of_lt hij)
    cases i with
    | zero =>
      obtain rfl : k = m := by simpa using hm
      obtain ⟨d, e, hd, hn⟩ := hms.get hn
      exact ⟨lo, mid, d, e, Nat.le_refl _, hle.trans hd, hk, hn, hd⟩
    | succ i =>
      obtain ⟨a, b, d, e, ha, hd, h⟩ := ih (Nat.lt_of_succ_lt_succ hij) (by simpa using hm) hn
      exact ⟨a, b, d, e, hle.trans ha, hle.trans hd, h⟩

theorem Sites.apart (h : c.Sites scope lo hi ms) {i j : Nat} {m n : Module} (hij : i ≠ j)
    (hm : ms[i]? = some m) (hn : ms[j]? = some n) :
    ∃ a b d e, lo ≤ a ∧ lo ≤ d ∧ c.Instance scope a b m ∧ c.Instance scope d e n ∧
      (b ≤ d ∨ e ≤ a) := by
  rcases Nat.lt_or_gt_of_ne hij with hlt | hlt
  · obtain ⟨a, b, d, e, ha, hd, him, hin, h⟩ := h.pair hlt hm hn
    exact ⟨a, b, d, e, ha, hd, him, hin, .inl h⟩
  · obtain ⟨d, e, a, b, hd, ha, hin, him, h⟩ := h.pair hlt hn hm
    exact ⟨a, b, d, e, ha, hd, him, hin, .inr h⟩

def SharedAt (made : List Module) (x : Module) : Prop :=
  ∃ (i j : Nat) (m n : Module), i ≠ j ∧ made[i]? = some m ∧ made[j]? = some n ∧
    x ∈ m.hierarchy ∧ ∃ y ∈ n.hierarchy, x.id = y.id

theorem Sites.shared (h : c.Sites scope lo hi ms) (hscope : ∀ id, c.IsShared scope id → id < lo) {x : Module}
    (hx : SharedAt ms x) :
    ∃ k ∈ c.classes, ∃ a ∈ k.loaded.module.hierarchy, x.cls = a.cls ∧
      ∃ y, scope.find? a.id = some y := by
  obtain ⟨i, j, m, n, hij, hm, hn, hxm, y, hyn, hid⟩ := hx
  obtain ⟨a, b, d, e, ha, hd, hm, hn, hapart⟩ := h.apart hij hm hn
  -- a number of one range is neither shared nor in the other range
  have hlo : x.id < lo := by
    rcases hm.id_of_mem hxm with hx | hx
    · exact hscope _ hx
    · rcases hn.id_of_mem hyn with hy | hy
      · exact hscope _ (hid ▸ hy)
      · omega
  obtain ⟨k, hk, hcopy⟩ := hm
  obtain ⟨o, ho, hcls, ⟨z, hz, -⟩ | ⟨-, hrange, -⟩⟩ := hcopy.mem_hierarchy hxm
  · exact ⟨k, hk, o, ho, hcls, z, hz⟩
  · omega

/-! ## The sites of a request -/

def sites (c : Context) (o : Options) (start : Copying) (r : Request) : List Module :=
  let shared := c.shareStageModules start
  (c.compose o shared.scope r { next := shared.next }).2.made

section

variable {start : Copying} (hnumbered : Module.Numbered start.next c.modules)
  (hstart : ∀ a : Module, a.Among c.modules → start.scope.find? a.id = none)

include hnumbered hstart

theorem sites_spec (o : Options) (r : Request) :
    ∃ hi, c.Sites (c.shareStageModules start).scope (c.shareStageModules start).next hi
      (c.sites o start r) := by
  have hshare := shareStageModules_spec (.of_unrecorded hnumbered hstart)
  obtain ⟨hcomposed, -⟩ := compose_spec hshare.coherent o r
    { next := (c.shareStageModules start).next } (Nat.le_refl _)
  obtain ⟨sites, hmade, hsites⟩ := hcomposed.made
  exact ⟨_, by rw [Context.sites, hmade]; exact hsites⟩

theorem stage_part_of_sharedAt {o : Options} {r : Request} {x : Module} (hx : SharedAt (c.sites o start r) x) :
    ∃ k ∈ c.classes, ∃ a ∈ k.loaded.module.hierarchy, x.cls = a.cls ∧ a.Among c.stageModules := by
  have hshare := shareStageModules_spec (.of_unrecorded hnumbered hstart)
  obtain ⟨hi, hsites⟩ := sites_spec hnumbered hstart o r
  obtain ⟨k, hk, a, ha, hcls, y, hy⟩ := hsites.shared (fun id hid => by
    obtain ⟨b, hb, y, hy, rfl⟩ := hid
    exact (hshare.fresh b y hb (hstart b hb) hy).2.1) hx
  have hmem : k.loaded.module ∈ c.modules := List.mem_map_of_mem hk
  have hamong : a.Among c.modules := ⟨_, hmem, Module.part_of_mem_hierarchy ha⟩
  exact ⟨k, hk, a, ha, hcls, (hshare.fresh a y hamong (hstart a hamong) hy).2.2⟩

theorem sharedAt_of_stage_part (o : Options) {cls : ClassRef} {k : KnownClass}
    (hk : c.find? (cls.key c.macros) = some k) {a : Module} (ha : a ∈ k.loaded.module.hierarchy)
    (hstage : a.Among c.stageModules) :
    ∃ x, SharedAt (c.sites o start (.array [.single cls, .single cls])) x ∧ x.cls = a.cls := by
  have hshare := shareStageModules_spec (.of_unrecorded hnumbered hstart)
  set shared := c.shareStageModules start with hshared
  obtain ⟨y, hy⟩ : ∃ y, shared.scope.find? a.id = some y := by
    obtain ⟨m, hm, hpart⟩ := hstage
    exact Option.isSome_iff_exists.mp (hshare.recorded m hm a hpart)
  -- every instance of the class has the copy in its hierarchy
  have made : ∀ s : Composing, shared.next ≤ s.next → ∃ m t,
      c.instance? shared.scope (.single cls) s = (some m, t) ∧ t.made = s.made ++ [m] ∧
      shared.next ≤ t.next ∧ ∃ x ∈ m.hierarchy, x.cls = a.cls ∧ x.id = y.id := by
    intro s hs
    obtain ⟨hcomposed, hmade⟩ := instance?_spec hshare.coherent (.single cls) hs
    obtain ⟨m, hm⟩ : ∃ m, (c.instance? shared.scope (.single cls) s).1 = some m := by
      simp [instance?, Request.key?, hk]
    obtain ⟨k', hk', hmade, hcopy⟩ := hmade m hm
    obtain rfl : k = k' := by simpa [Request.key?, hk] using hk'
    exact ⟨m, _, Prod.ext hm rfl, hmade, hs.trans hcomposed.next, hcopy.shared_mem_hierarchy ha hy⟩
  obtain ⟨m, t, hm, htmade, htnext, x, hx, hxcls, hxid⟩ := made { next := shared.next } (Nat.le_refl _)
  obtain ⟨n, u, hn, humade, -, z, hz, -, hzid⟩ := made t htnext
  have hsites : c.sites o start (.array [.single cls, .single cls]) = [m, n] := by
    simp [Context.sites, compose, composeValues, ← hshared, hm, hn, humade, htmade]
  refine ⟨x, ⟨0, 1, m, n, by decide, by simp [hsites], by simp [hsites], hx, z, hz, ?_⟩, hxcls⟩
  rw [hxid, hzid]

end

end Context

def Library.contextOf (l : Library) (plan : LoadPlan) (r : Request) (builtins : List Module) :
    Context :=
  .make (l.loadBy plan r).loaded builtins plan.macros

namespace Context

/-- Two sites share the classes with stage members only and all that these inherit from. -/
theorem stage_only_shared_iff {l : Library} (h : l.Reachable) (plan : LoadPlan) (r₀ : Request)
    (builtins : List Module) {start : Copying} (hnext : (l.loadBy plan r₀).library.next ≤ start.next)
    (hstart : ∀ a : Module, a.Among (l.contextOf plan r₀ builtins).modules →
      start.scope.find? a.id = none) :
    (∀ o r x, SharedAt ((l.contextOf plan r₀ builtins).sites o start r) x →
      ∃ a : Module, a.Among (l.contextOf plan r₀ builtins).stageModules ∧ x.cls = a.cls) ∧
    ((∀ o r x, SharedAt ((l.contextOf plan r₀ builtins).sites o start r) x → x.isStageOnly) ↔
      ∀ k ∈ (l.contextOf plan r₀ builtins).classes, ∀ a ∈ k.loaded.module.hierarchy,
        a.Among (l.contextOf plan r₀ builtins).stageModules → a.isStageOnly) := by
  have hsound := @loadBy_sound [] l h.sound.1 h.sound.2 plan r₀
  set c := l.contextOf plan r₀ builtins with hc
  have hnumbered : Module.Numbered start.next c.modules :=
    (hsound.numbered.subset fun m hm => List.mem_append_right _
      (List.mem_append_right _ (modules_make_subset hm))).mono hnext
  refine ⟨fun o r x hx => ?_, fun hall k hk a ha hstage => ?_, fun hall o r x hx => ?_⟩
  · obtain ⟨k, hk, a, ha, hcls, hstage⟩ := stage_part_of_sharedAt hnumbered hstart hx
    exact ⟨a, hstage, hcls⟩
  · obtain ⟨e, he, rfl⟩ := mem_classes_make.mp hk
    have hkey : ClassRef.key ⟨e.1.name, e.1.generics⟩ c.macros = e.1 :=
      congrArg (ModuleKey.mk e.1.name e.1.generics) (hsound.under e he).symm
    have hfind : c.find? (ClassRef.key ⟨e.1.name, e.1.generics⟩ c.macros) = some e.2.known := by
      rw [hkey, hc, Library.contextOf, find?_make hsound.nodup hsound.key,
        lookup_of_mem hsound.nodup he, Option.map_some]
    obtain ⟨x, hx, hcls⟩ := sharedAt_of_stage_part hnumbered hstart {} hfind ha hstage
    have := hall {} _ x hx
    rwa [Module.isStageOnly, hcls] at this
  · obtain ⟨k, hk, a, ha, hcls, hstage⟩ := stage_part_of_sharedAt hnumbered hstart hx
    have := hall k hk a ha hstage
    rwa [Module.isStageOnly, hcls]

def timerLibrary : Library where
  store := {
    inMemory :=
      [("Frame", "shader Frame { stage float Count; };"), ("Timer", "shader Timer : Frame { stage float Time; };")] }

def timerLoad : Loading :=
  timerLibrary.loadBy ⟨[], false, fun _ _ => []⟩ (.single ⟨"Timer", []⟩)

theorem stage_base_is_shared : timerLoad.library.next ≤ 2 ∧
    ∀ o r x, SharedAt ((make timerLoad.loaded [] []).sites o ⟨{}, 2⟩ r) x → x.isStageOnly := by
  have hreachable : timerLibrary.Reachable := by
    unfold timerLibrary
    exact .new _ 0
  have hnext : timerLoad.library.next ≤ 2 := by decide +kernel
  have hstage : (timerLoad.loaded.all fun e => e.2.module.hierarchy.all (·.isStageOnly)) = true := by
    decide +kernel
  have happly := @stage_only_shared_iff timerLibrary hreachable ⟨[], false, fun _ _ => []⟩
    (.single ⟨"Timer", []⟩) [] ⟨{}, 2⟩
  -- from here on the load is known only by the two facts about it
  rw [Library.contextOf, ← timerLoad] at happly
  generalize timerLoad = load at hnext hstage happly ⊢
  refine ⟨hnext, (happly hnext fun _ _ => rfl).2.mpr fun k hk a ha _ => ?_⟩
  obtain ⟨e, he, rfl⟩ := mem_classes_make.mp hk
  exact List.all_eq_true.mp (List.all_eq_true.mp hstage e he) a ha

def clockLibrary : Library where
  store := {
    inMemory :=
      [("Tint", "shader Tint { float4 Color; };"), ("Clock", "shader Clock : Tint { stage float Time; };")] }

def clockLoad : Loading :=
  clockLibrary.loadBy ⟨[], false, fun _ _ => []⟩ (.single ⟨"Clock", []⟩)

theorem ordinary_base_is_shared :
    ∃ x, SharedAt ((make clockLoad.loaded [] []).sites {} ⟨{}, 2⟩
      (.array [.single ⟨"Clock", []⟩, .single ⟨"Clock", []⟩])) x ∧ x.isStageOnly = false := by
  have hsound : clockLoad.Sound [] [] :=
    @loadBy_sound [] clockLibrary (.empty rfl) (.nil 0) ⟨[], false, fun _ _ => []⟩ _
  have hnext : clockLoad.library.next ≤ 2 := by decide +kernel
  have hclock : ((clockLoad.loaded.lookup ⟨"Clock", [], []⟩).any fun c => c.module.isStageOnly &&
      c.module.hierarchy.any fun a => !a.isStageOnly) = true := by decide +kernel
  generalize clockLoad = load at hsound hnext hclock ⊢
  obtain ⟨c, hlookup, hmixed⟩ := (Option.any_eq_true _ _).mp hclock
  obtain ⟨hstage, a, ha, hordinary⟩ : c.module.isStageOnly ∧
      ∃ a ∈ c.module.hierarchy, a.isStageOnly = false := by simpa using hmixed
  have hfind : (make load.loaded [] []).find? (ClassRef.key ⟨"Clock", []⟩ []) = some c.known := by
    rw [find?_make hsound.nodup hsound.key, ClassRef.key, hlookup, Option.map_some]
  have hmem : c.module ∈ (make load.loaded [] []).stageModules :=
    List.mem_filter.mpr ⟨List.mem_map.mpr ⟨c.known, mem_classes_make.mpr ⟨_, mem_of_lookup hlookup, rfl⟩,
      rfl⟩, hstage⟩
  have hnumbered : Module.Numbered 2 (make load.loaded [] []).modules :=
    (hsound.loaded_numbered.subset modules_make_subset).mono hnext
  have hstart : ∀ a : Module, a.Among (make load.loaded [] []).modules →
      (⟨{}, 2⟩ : Copying).scope.find? a.id = none := fun _ _ => rfl
  obtain ⟨x, hx, hcls⟩ := sharedAt_of_stage_part hnumbered hstart {} hfind ha
    ⟨_, hmem, Module.part_of_mem_hierarchy ha⟩
  exact ⟨x, hx, by rw [Module.isStageOnly, hcls]; exact hordinary⟩

end Context

end ShaderCompose
