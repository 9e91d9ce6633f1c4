import ShaderCompose.Proofs.Compose.Loops
import ShaderCompose.Proofs.Engine.Reachable

/-!
A request fails in silence only where instances have no end.
-/

namespace ShaderCompose

open List Relation

/-! ## Whole outcomes -/

def Outcome.Whole (o : Outcome) : Prop :=
  (o.shader.isSome = true ↔ o.log.hasErrors = false) ∧ (o.reflection.isSome = true ↔ o.log.hasErrors = false) ∧
    (o.log.hasErrors = true → o.shader = none ∧ o.reflection = none ∧ o.entryPoints = [])

theorem Outcome.Whole.of_errors {o : Outcome} (herrors : o.log.hasErrors = true) (hshader : o.shader = none)
    (hreflection : o.reflection = none) (hentry : o.entryPoints = []) : o.Whole := by
  refine ⟨?_, ?_, fun _ => ⟨hshader, hreflection, hentry⟩⟩
  · simp [hshader, herrors]
  · simp [hreflection, herrors]

/-! ## The scope of a request -/

theorem CopyScope.find?_foldl_keep {id : Nat} : ∀ (ms : List Module) (s : CopyScope),
    id ∉ ms.map Module.id → (ms.foldl CopyScope.keep s).find? id = s.find? id := by
  intro ms
  induction ms with
  | nil => exact fun _ _ => rfl
  | cons m ms ih =>
    intro s h
    rw [map_cons, mem_cons, not_or] at h
    rw [foldl_cons, ih _ h.2]
    simp [CopyScope.find?, CopyScope.keep, findSome?_cons, h.1]

namespace Engine

variable {e : Engine} {r : Request} {macros : List MacroDef}

theorem Sound.coherent (h : e.Sound) (r : Request) (macros : List MacroDef) :
    (∀ a : Module, a.Among (e.contextOf r macros).modules →
      (e.builtins.foldl CopyScope.keep {}).child.find? a.id = none) ∧
    Copying.Coherent (e.contextOf r macros).modules
      ⟨(e.builtins.foldl CopyScope.keep {}).child, (e.loading r macros).library.next⟩ := by
  have hsub : (e.contextOf r macros).modules ⊆ (e.loading r macros).modules :=
    fun m hm => mem_append_right _ (Context.modules_make_subset hm)
  have hnone : ∀ a : Module, a.Among (e.contextOf r macros).modules →
      (e.builtins.foldl CopyScope.keep {}).child.find? a.id = none := by
    rintro a ⟨m, hm, hpart⟩
    have hfree := (loadBy_avoids h.avoids (e.plan r macros) r).free a ⟨m, hsub hm, hpart⟩
    rw [CopyScope.find?_child, CopyScope.find?_foldl_keep _ _ hfree]
    rfl
  exact ⟨hnone, .of_unrecorded ((h.loading r macros).numbered.subset hsub) hnone⟩

theorem Sound.requestScope (h : e.Sound) (r : Request) (macros : List MacroDef) :
    Copying.Copied (e.contextOf r macros).modules (e.contextOf r macros).stageModules
      ⟨(e.builtins.foldl CopyScope.keep {}).child, (e.loading r macros).library.next⟩
      (Module.copyAll (e.contextOf r macros).stageModules
        ⟨(e.builtins.foldl CopyScope.keep {}).child, (e.loading r macros).library.next⟩).1
      ((e.loaded r macros).requestScope (e.contextOf r macros)) :=
  Context.shareStageModules_spec (h.coherent r macros).2

/-! ## Composition and mixing -/

def StageLoop (e : Engine) (context : Context) (r : Request) : Prop :=
  ∃ a : Module, a.Among context.stageModules ∧ ∃ copy, (e.requestScope context).scope.find? a.id = some copy ∧
      TransGen (Composition.Holds (e.composed context r).2.filled) copy.id copy.id

theorem Sound.composed_spec (h : e.Sound) (r : Request) (macros : List MacroDef) :
    let c := e.contextOf r macros
    let scope := ((e.loaded r macros).requestScope c).scope
    (∀ entry ∈ ((e.loaded r macros).composed c r).2.filled, c.Fills scope entry) ∧
      ∀ ms, ((e.loaded r macros).composed c r).1 = some ms →
        ∀ m ∈ ms, ∃ lo hi, c.Instance scope lo hi m := by
  intro c scope
  obtain ⟨hcomposed, hmade⟩ := Context.compose_spec (h.requestScope r macros).coherent e.options r
    { next := ((e.loaded r macros).requestScope c).next } (Nat.le_refl _)
  refine ⟨?_, fun ms hms m hm => ⟨_, _, hmade ms hms m hm⟩⟩
  obtain ⟨entries, hfilled, hentries⟩ := hcomposed.filled
  rw [nil_append] at hfilled
  intro entry hentry
  exact hentries entry (hfilled ▸ hentry)

theorem table?_of_instance {c : Context} {scope : CopyScope} {lo hi : Nat} {m : Module}
    (h : c.Instance scope lo hi m) : (c.table? m.key).isSome = true := by
  obtain ⟨k, hk, hcopy⟩ := h
  rw [Context.table?, Option.isSome_map, hcopy.key]
  exact find?_isSome.mpr ⟨k, hk, by simp [LoadedClass.key]⟩

theorem Sound.acyclic (h : e.Sound) (hloop : ¬ (e.loaded r macros).StageLoop (e.contextOf r macros) r) (a : Nat) :
    ¬ TransGen (Composition.Holds
      ((e.loaded r macros).composed (e.contextOf r macros) r).2.filled) a a := by
  refine Context.acyclic_of_shared (h.composed_spec r macros).1 ?_ a
  rintro i ⟨b, hb, copy, hcopy, rfl⟩ hholds
  have hstage := (h.requestScope r macros).fresh b copy hb ((h.coherent r macros).1 b hb) hcopy
  exact hloop ⟨b, hstage.2.2, copy, hcopy, hholds⟩

theorem mix_none {c : Context} {filled : Composition} {root : Module}
    (hinstances : (Mix.instancesOf c filled root).1.isSome = true)
    (h : (mix c filled root).1 = none) : (mix c filled root).2.hasErrors = true := by
  unfold mix at h ⊢
  generalize Mix.instancesOf c filled root = one at hinstances h ⊢
  obtain ⟨instances, log⟩ := one
  cases instances with
  | none => cases hinstances
  | some instances =>
    dsimp only at h ⊢
    split at h
    · next herrors =>
      rw [if_pos herrors]
      exact herrors
    · next hfine =>
      rw [if_neg hfine]
      split at h
      · next herrors =>
        rw [if_pos herrors]
        exact herrors
      · cases h

theorem Sound.compose_none (h : e.Sound) (hknows : ∀ node ∈ r.nodes, (e.contextOf r macros).Knows node)
    (hloop : ¬ (e.loaded r macros).StageLoop (e.contextOf r macros) r)
    (hnone : ((e.loaded r macros).compose (e.contextOf r macros) r).1 = none) :
    ((e.loaded r macros).compose (e.contextOf r macros) r).2.hasErrors = true := by
  obtain ⟨hfills, hroots⟩ := h.composed_spec r macros
  have hacyclic := h.acyclic hloop
  have hsome : ((e.loaded r macros).composed (e.contextOf r macros) r).1.isSome = true :=
    Context.compose_isSome _ _ _ r _ hknows
  unfold Engine.compose at hnone ⊢
  generalize (e.loaded r macros).composed (e.contextOf r macros) r = one at hfills hroots hacyclic hsome hnone ⊢
  obtain ⟨roots, s⟩ := one
  dsimp only at hnone ⊢
  split at hnone
  · next herrors =>
    rw [if_pos herrors]
    exact herrors
  · next hfine =>
    rw [if_neg hfine]
    match roots with
    | none => cases hsome
    | some [] => simp [Log.hasErrors, Diagnostic.error]
    | some [root] =>
      obtain ⟨_, _, hroot⟩ := hroots [root] rfl root (mem_singleton_self root)
      have hknown : ∀ entry ∈ s.filled, ∀ v ∈ entry.2, ((e.contextOf r macros).table? v.key).isSome = true := by
        intro entry hentry v hv
        obtain ⟨_, -, hvalues⟩ := hfills entry hentry
        obtain ⟨_, hinstance⟩ := hvalues v hv
        exact table?_of_instance hinstance
      have hmix := mix_none (Mix.instancesOf_isSome hacyclic hknown (table?_of_instance hroot)) hnone
      simp [hmix]
    | some (_ :: _ :: _) => simp [Log.hasErrors, Diagnostic.error]

theorem check_some {context : Context} {outcome : Outcome} {e' : Engine}
    (h : e.check r macros = (some context, outcome, e')) :
    (e.loading r macros).log.hasErrors = false ∧ context = e.contextOf r macros ∧
      outcome.log.hasErrors = false ∧ outcome.shader = none ∧ outcome.reflection = none ∧
      outcome.entryPoints = [] := by
  unfold check at h
  dsimp only at h
  split at h
  · cases h
  · next hload =>
    obtain ⟨hcontext, houtcome⟩ := Prod.mk.inj h
    split at hcontext
    · cases hcontext
    · next hfine =>
      cases hcontext
      cases houtcome
      exact ⟨eq_false_of_ne_true hload, rfl, by simpa using hfine, rfl, rfl, rfl⟩

theorem check_none {outcome : Outcome} {e' : Engine} (h : e.check r macros = (none, outcome, e')) :
    outcome.log.hasErrors = true ∧ outcome.shader = none ∧ outcome.reflection = none ∧
      outcome.entryPoints = [] := by
  unfold check at h
  dsimp only at h
  split at h
  · next hload =>
    cases h
    exact ⟨hload, rfl, rfl, rfl⟩
  · obtain ⟨hcontext, houtcome⟩ := Prod.mk.inj h
    split at hcontext
    · next herrors =>
      cases houtcome
      exact ⟨herrors, rfl, rfl, rfl⟩
    · cases hcontext

theorem check_of_quiet (hload : (e.loading r macros).log.hasErrors = false)
    (hcontext : (e.contextOf r macros).log.hasErrors = false) :
    ∃ outcome, e.check r macros = (some (e.contextOf r macros), outcome, e.loaded r macros) := by
  have hload' : (e.library.load ⟨macros ++ r.collectMacros, e.options.fillGenerics, fun _ => []⟩
      r).log.hasErrors = false := hload
  have hboth : ((e.loading r macros).log ++ (e.contextOf r macros).log).hasErrors = false := by
    rw [Log.hasErrors_append, hload, hcontext]
    rfl
  unfold check
  rw [if_neg (by rw [hload']; exact Bool.false_ne_true)]
  refine ⟨_, Prod.ext ?_ rfl⟩
  exact if_neg fun herrors => Bool.false_ne_true (hboth.symm.trans herrors)

def checksSorted (e : Engine) (r : Request) : Bool :=
  !(e.loading r []).log.hasErrors && decide (e.loading r []).loaded.Sorted && !(e.orderedContext r).log.hasErrors

theorem check_of_sorted (h : e.checksSorted r = true) : (e.loading r []).log.hasErrors = false ∧
    (e.contextOf r []).log.hasErrors = false ∧
    ∃ outcome, e.check r [] = (some (e.contextOf r []), outcome, e.loaded r []) := by
  simp only [checksSorted, Bool.and_eq_true, Bool.not_eq_true', decide_eq_true_eq] at h
  obtain ⟨⟨hload, hsorted⟩, hlog⟩ := h
  rw [← contextOf_sorted hsorted] at hlog
  exact ⟨hload, hlog, check_of_quiet hload hlog⟩

theorem compile_of_loaded (h : (e.loading r macros).log.hasErrors = false) : (e.compile r macros).1 =
      let checked : Outcome :=
        { log := (e.loading r macros).log ++ (e.contextOf r macros).log
          digests := (e.loading r macros).loaded.digests }
      if checked.log.hasErrors then checked
      else
        let (shader, log) := (e.loaded r macros).compose (e.contextOf r macros) r
        let mixed := { checked with log := checked.log ++ log }
        match shader with
        | none => mixed
        | some shader => finish e.options shader mixed := by
  have hcheck : e.check r macros = (if ((e.loading r macros).log ++ (e.contextOf r macros).log).hasErrors then none
        else some (e.contextOf r macros),
        { log := (e.loading r macros).log ++ (e.contextOf r macros).log
          digests := (e.loading r macros).loaded.digests }, e.loaded r macros) := by
    exact if_neg (by rw [Bool.not_eq_true]; exact h)
  rw [compile, hcheck]
  by_cases herrors : ((e.loading r macros).log ++ (e.contextOf r macros).log).hasErrors = true
  · simp only [if_pos herrors]
  · simp only [if_neg herrors]
    generalize (e.loaded r macros).compose (e.contextOf r macros) r = one
    obtain ⟨shader, log⟩ := one
    cases shader with
    | none => rfl
    | some shader => rfl

theorem finish_whole (options : Options) (shader : Shader) {o : Outcome} (hshader : o.shader = none)
    (hreflection : o.reflection = none) (hentry : o.entryPoints = []) :
    (finish options shader o).Whole := by
  unfold finish
  dsimp only
  split
  · next herrors => exact .of_errors herrors hshader hreflection hentry
  · split
    · next herrors => exact .of_errors herrors hshader hreflection hentry
    · split
      · next herrors => exact .of_errors herrors hshader hreflection hentry
      · next hfine =>
        refine ⟨iff_of_true rfl ?_, iff_of_true rfl ?_, fun herrors => absurd herrors hfine⟩
        · exact eq_false_of_ne_true hfine
        · exact eq_false_of_ne_true hfine

/-- The outcome of a request is whole, unless a shared module is composed into itself. -/
theorem compile_never_silent {e : Engine} (h : e.Reachable) (r : Request) (macros : List MacroDef)
    (hloop : ∀ context, (e.check r macros).1 = some context →
      ¬ (e.check r macros).2.2.StageLoop context r) :
    (e.compile r macros).1.Whole := by
  have hsound := h.sound
  have hengine := check_engine e r macros
  unfold compile
  cases hcheck : e.check r macros with
  | mk found rest =>
    obtain ⟨outcome, e'⟩ := rest
    rw [hcheck] at hloop hengine
    cases found with
    | none =>
      obtain ⟨herrors, hshader, hreflection, hentry⟩ := check_none hcheck
      exact .of_errors herrors hshader hreflection hentry
    | some context =>
      obtain ⟨hload, rfl, -, hshader, hreflection, hentry⟩ := check_some hcheck
      have hknows : ∀ node ∈ r.nodes, (e.contextOf r macros).Knows node := by
        intro node hnode
        obtain ⟨key, hkey, hloaded⟩ := (Library.loadBy_closed hsound.grounded hload).1 node hnode
        refine ⟨key, hkey, ?_⟩
        rw [contextOf, Context.find?_make (hsound.loading r macros).nodup
          (hsound.loading r macros).key, Option.isSome_map]
        exact hloaded
      obtain rfl : e' = e.loaded r macros := hengine
      have hnone := hsound.compose_none hknows (hloop _ rfl)
      dsimp only
      generalize (e.loaded r macros).compose (e.contextOf r macros) r = one at hnone ⊢
      obtain ⟨shader, log⟩ := one
      cases shader with
      | none =>
        refine .of_errors ?_ hshader hreflection hentry
        simp [show log.hasErrors = true from hnone rfl]
      | some shader => exact finish_whole _ shader hshader hreflection hentry

def sceneEngine : Engine where
  library := {
    store := {
      inMemory :=
        [("Scene", "shader Scene { compose Lamp light; float Gain; };"),
         ("Lamp", "shader Lamp { float Power; };")] } }

def sceneRequest : Request := .mixin [⟨"Scene", []⟩] [("light", .single ⟨"Lamp", []⟩)] []

theorem scene_never_silent : (sceneEngine.compile sceneRequest []).1.Whole := by
  have hreachable : sceneEngine.Reachable := by
    unfold sceneEngine
    exact .new _ {}
  have hordinary : ((sceneEngine.loading sceneRequest []).loaded.all fun entry =>
      !entry.2.module.isStageOnly) = true := by decide +kernel
  refine compile_never_silent hreachable sceneRequest [] ?_
  -- no class of the scene has stage members only, so nothing is shared
  rintro context hcontext ⟨a, ⟨m, hm, -⟩, -⟩
  cases hcheck : sceneEngine.check sceneRequest [] with
  | mk found rest =>
    rw [hcheck] at hcontext
    obtain rfl : found = some context := hcontext
    obtain ⟨-, rfl, -⟩ := check_some hcheck
    obtain ⟨hm, hstage⟩ := List.mem_filter.mp hm
    obtain ⟨entry, hentry, rfl⟩ := List.mem_map.mp (Context.modules_make_subset hm)
    have := List.all_eq_true.mp hordinary entry hentry
    simp [hstage] at this

def tintedEngine : Engine where
  library := {
    store := {
      inMemory :=
        [("Clock", "shader Clock : Tint { stage float Time; };"),
         ("Tint", "shader Tint { compose Tint inner; float4 Color; };")] } }

def tintedRequest : Request := .mixin [⟨"Clock", []⟩] [("inner", .single ⟨"Tint", []⟩)] []

/-- A stage-only class shares its ordinary base, which is then composed into itself without end. -/
theorem shared_base_fails_silently : tintedEngine.Reachable ∧
    ∃ context root, (tintedEngine.check tintedRequest []).1 = some context ∧
      let composed := (tintedEngine.check tintedRequest []).2.2.composed context tintedRequest
      composed.1 = some [root] ∧ (∀ entry ∈ composed.2.filled, ∀ m ∈ entry.2, m.isStageOnly = false) ∧
      (∀ depth, (Mix.collect context composed.2.filled depth root "" "" {}).1 = none) ∧
      (tintedEngine.compile tintedRequest []).1.log.hasErrors = false ∧
      (tintedEngine.compile tintedRequest []).1.shader = none := by
  obtain ⟨hchecks, hsorted, hordinary, hroots, hnone, hquiet⟩ :
      let context := tintedEngine.orderedContext tintedRequest
      let composed := (tintedEngine.loaded tintedRequest []).composed context tintedRequest
      let mixed := (tintedEngine.loaded tintedRequest []).compose context tintedRequest
      tintedEngine.checksSorted tintedRequest = true ∧ (tintedEngine.loading tintedRequest []).loaded.Sorted ∧
      (∀ entry ∈ composed.2.filled, ∀ m ∈ entry.2, m.isStageOnly = false) ∧
      (composed.1.any fun roots => decide (roots.length = 1 ∧ ∀ root ∈ roots, Mix.Endless composed.2.filled root)) ∧
      mixed.1.isNone = true ∧ mixed.2.hasErrors = false := by decide +kernel
  rw [← contextOf_sorted hsorted] at hordinary hroots hnone hquiet
  obtain ⟨hload, hcontext, outcome, hcheck⟩ := check_of_sorted hchecks
  obtain ⟨roots, hcomposed, hroots⟩ := (Option.any_eq_true _ _).mp hroots
  obtain ⟨hone, hendless⟩ := of_decide_eq_true hroots
  obtain ⟨root, rfl⟩ := List.length_eq_one_iff.mp hone
  rw [hcheck]
  refine ⟨.new _ {}, _, root, rfl, hcomposed, hordinary, fun depth => ?_, ?_⟩
  · exact (hendless root (List.mem_singleton_self root)).collect_eq_none depth "" "" {}
  · rw [compile_of_loaded hload]
    simp [hcontext, hload, Option.isNone_iff_eq_none.mp hnone, hquiet]

end Engine

end ShaderCompose
