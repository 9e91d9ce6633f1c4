import ShaderCompose.Proofs.Engine.Calls
import ShaderCompose.Proofs.Library.Canonical
import ShaderCompose.Proofs.Mix.Renumber

/-!
The cache is transparent, up to clashes of made-up names.
-/

namespace ShaderCompose

open List

/-! ## The scope of the builtins -/

theorem CopyScope.foldl_keep_renumber {f : Nat → Nat} (hf : Function.Injective f) :
    ∀ (ms : List Module) (s : CopyScope),
      (ms.foldl keep s).renumber f = (ms.map (Module.renumber f)).foldl keep (s.renumber f) := by
  intro ms
  induction ms with
  | nil => exact fun _ => rfl
  | cons m ms ih =>
    intro s
    rw [foldl_cons, ih, map_cons, foldl_cons, keep_renumber hf]

namespace Engine

variable {e e' : Engine} {r : Request} {macros : List MacroDef}

def task (e : Engine) (r : Request) (macros : List MacroDef) : LoadTask :=
  ⟨e.library.store, e.options.fillGenerics, macros ++ r.collectMacros, r⟩

/-! ## The numbers of builtins -/

theorem Sound.builtin_part (h : e.Sound) {a b : Module} (hb : b ∈ e.builtins) (ha : a.Part b) : a = b := by
  rcases Module.part_iff.mp ha with rfl | ⟨c, hc, -⟩
  · rfl
  · rw [h.builtins b hb] at hc
    exact absurd hc not_mem_nil

theorem Sound.numberBy_builtin (h : e.Sound) (r : Request) (macros : List MacroDef)
    {keys : List ModuleKey} {top : Nat} {b : Module} (hb : b ∈ e.builtins) :
    (e.loading r macros).loaded.numberBy keys (e.loading r macros).library.next top b.id =
      keys.length + b.id := by
  have havoids : (e.loading r macros).Avoids (e.builtins.map Module.id) := loadBy_avoids h.avoids (e.plan r macros) r
  have hid := mem_map_of_mem (f := Module.id) hb
  rw [Cache.numberBy_of_not_mem, if_pos (havoids.taken b.id hid)]
  intro d hd hsame
  refine havoids.free d.2.module ⟨_, mem_append_right _ (Cache.mem_modules hd), .self _⟩ ?_
  rw [hsame]
  exact hid

/-! ## The phases after the load -/

theorem compile_of_not_loaded (h : (e.loading r macros).log.hasErrors = true) :
    (e.compile r macros).1.log.hasErrors = true := by
  have hcheck : e.check r macros = (none,
      { log := (e.loading r macros).log, digests := (e.loading r macros).loaded.digests }, e.loaded r macros) := by
    exact if_pos h
  rw [compile, hcheck]
  exact h

theorem compose_congr {c c' : Context} {f f' : Nat → Nat}
    (hoptions : e'.options = e.options) (hbuiltins : e'.builtins = e.builtins)
    (hf : Renumbers f e.library.next) (hf' : Renumbers f' e'.library.next)
    (hnext : f e.library.next = f' e'.library.next)
    (hkept : e.builtins.map (Module.renumber f) = e.builtins.map (Module.renumber f'))
    (hcontext : c.renumber f = c'.renumber f') : e.compose c r = e'.compose c' r := by
  have hscope : (e.requestScope c).renumber f = (e'.requestScope c').renumber f' := by
    have hstart : (Copying.renumber f ⟨(e.builtins.foldl CopyScope.keep {}).child, e.library.next⟩) =
        Copying.renumber f' ⟨(e'.builtins.foldl CopyScope.keep {}).child, e'.library.next⟩ := by
      unfold Copying.renumber
      rw [hnext, ← CopyScope.child_renumber, ← CopyScope.child_renumber, hbuiltins,
        CopyScope.foldl_keep_renumber hf.injective, CopyScope.foldl_keep_renumber hf'.injective,
        hkept]
      rfl
    have hshare := (c.shareStageModules_renumber
      (s := ⟨(e.builtins.foldl CopyScope.keep {}).child, e.library.next⟩) hf).2
    have hshare' := (c'.shareStageModules_renumber
      (s := ⟨(e'.builtins.foldl CopyScope.keep {}).child, e'.library.next⟩) hf').2
    rw [hstart, hcontext] at hshare
    exact hshare.symm.trans hshare'
  have hle : e.library.next ≤ (e.requestScope c).next :=
    (c.shareStageModules_renumber (s := ⟨(e.builtins.foldl CopyScope.keep {}).child, e.library.next⟩) hf).1
  have hle' : e'.library.next ≤ (e'.requestScope c').next :=
    (c'.shareStageModules_renumber (s := ⟨(e'.builtins.foldl CopyScope.keep {}).child, e'.library.next⟩) hf').1
  have hcomposed := (c.compose_renumber e.options (e.requestScope c).scope r
    { next := (e.requestScope c).next } (hf.mono hle)).2
  have hcomposed' := (c'.compose_renumber e'.options (e'.requestScope c').scope r
    { next := (e'.requestScope c').next } (hf'.mono hle')).2
  have hsame : (c.renumber f).compose e.options ((e.requestScope c).scope.renumber f) r
        (Composing.renumber f { next := (e.requestScope c).next }) =
      (c'.renumber f').compose e'.options ((e'.requestScope c').scope.renumber f') r
        (Composing.renumber f' { next := (e'.requestScope c').next }) := by
    have hinner : (e.requestScope c).scope.renumber f = (e'.requestScope c').scope.renumber f' :=
      congrArg Copying.scope hscope
    have hcount : f (e.requestScope c).next = f' (e'.requestScope c').next := congrArg Copying.next hscope
    rw [hcontext, hoptions, hinner, Composing.renumber, hcount]
    rfl
  rw [hcomposed, hcomposed'] at hsame
  change ((e.composed c r).1.map _, (e.composed c r).2.renumber f) =
    ((e'.composed c' r).1.map _, (e'.composed c' r).2.renumber f') at hsame
  unfold compose
  generalize e.composed c r = one at hsame ⊢
  generalize e'.composed c' r = other at hsame ⊢
  obtain ⟨roots, s⟩ := one
  obtain ⟨roots', s'⟩ := other
  obtain ⟨hroots, hs⟩ := Prod.mk.inj hsame
  have hlog : s.log = s'.log := (congrArg Composing.log hs :)
  have hfilled : Composition.renumber f s.filled = Composition.renumber f' s'.filled := congrArg Composing.filled hs
  dsimp only at hroots ⊢
  rw [hlog]
  split
  · rfl
  · cases roots with
    | none =>
      cases roots' with
      | none => rfl
      | some others => cases hroots
    | some roots =>
      cases roots' with
      | none => cases hroots
      | some others =>
        have hlists := Option.some.inj hroots
        cases roots with
        | nil => rw [map_eq_nil_iff.mp hlists.symm]
        | cons root more =>
          cases others with
          | nil => cases hlists
          | cons root' more' =>
            obtain ⟨hroot, hmore⟩ := List.cons.inj hlists
            cases more with
            | nil =>
              rw [map_eq_nil_iff.mp hmore.symm]
              have hmix : mix c s.filled root = mix c' s'.filled root' := by
                rw [← mix_renumber hf.injective c, ← mix_renumber hf'.injective c', hcontext, hfilled, hroot]
              simp only [hmix]
            | cons second rest =>
              cases more' with
              | nil => cases hmore
              | cons second' rest' => rfl

theorem compile_eq_of_solved (h : e.Sound) (h' : e'.Sound) (hoptions : e'.options = e.options)
    (hbuiltins : e'.builtins = e.builtins) {t : LoadTask} (hclash : t.NoClash)
    (hlog : (e.loading r macros).log = []) (hlog' : (e'.loading r macros).log = [])
    (hsolved : t.Solved (e.loading r macros).loaded)
    (hsolved' : t.Solved (e'.loading r macros).loaded) :
    (e.compile r macros).1 = (e'.compile r macros).1 := by
  set keys := (e.loading r macros).loaded.map (·.1) with hkeys
  set top := max (e.loading r macros).library.next (e'.loading r macros).library.next
  set f := (e.loading r macros).loaded.numberBy keys (e.loading r macros).library.next top with hf
  set f' := (e'.loading r macros).loaded.numberBy keys (e'.loading r macros).library.next top with hf'
  have hnumbered := (h.loading r macros).loaded_numbered
  have hnumbered' := (h'.loading r macros).loaded_numbered
  have hrenumbers : Renumbers f (e.loading r macros).library.next :=
    Cache.renumbers_numberBy hnumbered hsolved.nodup hsolved.key (fun _ hd => mem_map_of_mem hd) (Nat.le_max_left _ _)
  have hrenumbers' : Renumbers f' (e'.loading r macros).library.next := by
    refine Cache.renumbers_numberBy hnumbered' hsolved'.nodup hsolved'.key (fun d hd => ?_) (Nat.le_max_right _ _)
    obtain ⟨c, hc⟩ := Option.isSome_iff_exists.mp ((hsolved'.isSome_iff hsolved d.1).mp
      (lookup_isSome_of_mem_keys (mem_map_of_mem hd)))
    exact mem_keys_of_lookup hc
  have hnext : f (e.loading r macros).library.next = f' (e'.loading r macros).library.next :=
    (Cache.numberBy_next hnumbered 0).trans (Cache.numberBy_next hnumbered' 0).symm
  have hcontext : (e.contextOf r macros).renumber f = (e'.contextOf r macros).renumber f' := by
    unfold contextOf
    rw [hbuiltins]
    exact hsolved.make_renumber_eq hsolved' hclash hnumbered hnumbered' _ _
  have hkept : e.builtins.map (Module.renumber f) = e.builtins.map (Module.renumber f') := by
    refine map_congr_left fun b hb => Module.renumber_congr fun a ha => ?_
    rw [h.builtin_part hb ha, hf, hf', h.numberBy_builtin r macros hb, h'.numberBy_builtin r macros (hbuiltins ▸ hb)]
  have hcompose : (e.loaded r macros).compose (e.contextOf r macros) r =
      (e'.loaded r macros).compose (e'.contextOf r macros) r :=
    compose_congr hoptions hbuiltins hrenumbers hrenumbers' hnext hkept hcontext
  have hchecks : (e.contextOf r macros).log = (e'.contextOf r macros).log := by
    rw [← Context.log_renumber f, hcontext, Context.log_renumber]
  rw [compile_of_loaded (by rw [hlog]; rfl), compile_of_loaded (by rw [hlog']; rfl), hlog, hlog',
    hchecks, hcompose, hoptions, hsolved.digests_eq hsolved' hclash]

theorem compile_congr (h : e.Sound) (h' : e'.Sound) (hfaithful : e.library.Faithful e.options.fillGenerics [])
    (hfaithful' : e'.library.Faithful e.options.fillGenerics [])
    (hoptions : e'.options = e.options) (hbuiltins : e'.builtins = e.builtins)
    (hstore : e.library.store.SameExcept [] e'.library.store)
    (hclash : (e.task r macros).NoClash) :
    ((e.compile r macros).1.log.hasErrors = true ∧ (e'.compile r macros).1.log.hasErrors = true) ∨
      (e.compile r macros).1 = (e'.compile r macros).1 := by
  have hload := @LoadTask.loadBy_meaning (e.task r macros) _ (.refl _) h.grounded h.numbered hfaithful hclash
  have hload' := @LoadTask.loadBy_meaning (e.task r macros) _ hstore h'.grounded h'.numbered hfaithful' hclash
  have hplan : e'.library.loadBy (e.task r macros).plan (e.task r macros).request = e'.loading r macros := by
    unfold loading plan
    rw [hoptions]
    rfl
  rw [hplan] at hload'
  rcases hload with ⟨herrors, hbroken⟩ | ⟨hlog, hfine, hsolved⟩ <;>
    rcases hload' with ⟨herrors', hbroken'⟩ | ⟨hlog', hfine', hsolved'⟩
  · exact .inl ⟨compile_of_not_loaded herrors, compile_of_not_loaded herrors'⟩
  · exact absurd hbroken hfine'
  · exact absurd hbroken' hfine
  · exact .inr (compile_eq_of_solved h h' hoptions hbuiltins hclash hlog hlog' hsolved hsolved')

/-! ## New engines -/

def withSources (e : Engine) (store : SourceStore) : Engine :=
  { e with library := { e.library with store } }

def ofSources (store : SourceStore) (options : Options) (builtins : List String) :
    Except BuiltinError Engine :=
  builtins.foldlM addBuiltin { library := { store := { store with read := [] } }, options }

theorem addBuiltin_eq_ok {source : String} (h : e.addBuiltin source = .ok e') :
    e'.library.cache = e.library.cache ∧ e'.library.store = e.library.store ∧ e'.options = e.options ∧
      ∀ store, (e.withSources store).addBuiltin source = .ok (e'.withSources store) := by
  unfold addBuiltin at h ⊢
  split at h
  · cases h
  · dsimp only at h ⊢
    split at h
    · cases h
    · next hlog =>
      split at h
      · cases h
      · next hclasses =>
        cases h
        exact ⟨rfl, rfl, rfl, fun store => by rw [if_neg hlog, if_neg hclasses]; rfl⟩

theorem addBuiltins_eq_ok {builtins : List String} (h : builtins.foldlM addBuiltin e = .ok e')
    (hreachable : e.Reachable) :
    e'.Reachable ∧ e'.library.cache = e.library.cache ∧ e'.library.store = e.library.store ∧ e'.options = e.options ∧
      ∀ store, builtins.foldlM addBuiltin (e.withSources store) = .ok (e'.withSources store) := by
  induction builtins generalizing e with
  | nil =>
    cases h
    exact ⟨hreachable, rfl, rfl, rfl, fun _ => rfl⟩
  | cons source rest ih =>
    rw [foldlM_cons] at h
    cases hadd : e.addBuiltin source with
    | error cause =>
      rw [hadd] at h
      cases h
    | ok next =>
      rw [hadd] at h
      obtain ⟨hcache, hstore, hoptions, hother⟩ := addBuiltin_eq_ok hadd
      obtain ⟨hreach, hcache', hstore', hoptions', hother'⟩ := ih h (hreachable.addBuiltin _ hadd)
      refine ⟨hreach, hcache'.trans hcache, hstore'.trans hstore, hoptions'.trans hoptions, ?_⟩
      intro store
      rw [foldlM_cons, hother store]
      exact hother' store

/-! ## Runs -/

/-- The runs of an engine, with the changed classes that are not evicted yet. -/
inductive Run (start : Engine) : List String → Engine → Prop
  | start : Run start [] start
  | compile {e : Engine} (r : Request) (macros : List MacroDef) : Run start [] e → Run start [] (e.compile r macros).2
  | analyze {e : Engine} (r : Request) (macros : List MacroDef) : Run start [] e → Run start [] (e.analyze r macros).2
  | evict {stale : List String} {e : Engine} (names : List String) :
      Run start stale e → Run start (stale.filter fun name => !names.contains name) (e.evict names)
  | edit {stale : List String} {e : Engine} (names : List String) {store : SourceStore} :
      e.library.store.SameExcept names store → Run start stale e →
      Run start (names ++ stale) (e.withSources { store with read := e.library.store.read })

variable {start : Engine} {stale : List String}

theorem Run.setText (h : Run start stale e) (name text : String) :
    Run start (name :: stale) (e.withSources (e.library.store.setText name text)) :=
  h.edit [name] (.setText _ name text)

theorem Run.evict_stale (h : Run start stale e) : Run start [] (e.evict stale) := by
  have hnone : stale.filter (fun name => !stale.contains name) = [] := by simp
  exact hnone ▸ h.evict stale

structure Kept (start : Engine) (stale : List String) (e : Engine) : Prop where
  reachable : e.Reachable
  faithful : e.library.Faithful start.options.fillGenerics stale
  options : e.options = start.options
  builtins : e.builtins = start.builtins

theorem Kept.loaded (h : Kept start [] e) {after : Engine} (hafter : after = e.loaded r macros)
    (hreachable : after.Reachable) : Kept start [] after := by
  subst hafter
  have hsound := h.reachable.sound
  refine ⟨hreachable, ?_, h.options, h.builtins⟩
  have hfaithful := h.faithful
  rw [← h.options] at hfaithful ⊢
  exact (@Library.Faithful.loadBy (e.plan r macros) _ hfaithful hsound.grounded hsound.numbered r).library

theorem Run.kept (hreachable : start.Reachable)
    (hfaithful : start.library.Faithful start.options.fillGenerics []) (h : Run start stale e) :
    Kept start stale e := by
  induction h with
  | start => exact ⟨hreachable, hfaithful, rfl, rfl⟩
  | compile r macros _ ih => exact ih.loaded (compile_engine _ r macros) (ih.reachable.compile r macros)
  | analyze r macros _ ih => exact ih.loaded (check_engine _ r macros) (ih.reachable.analyze r macros)
  | evict names _ ih =>
    exact ⟨ih.reachable.evict names, ih.faithful.evict names, ih.options, ih.builtins⟩
  | edit names hsame _ ih =>
    exact ⟨ih.reachable.edit _, ih.faithful.edit hsame, ih.options, ih.builtins⟩

/-- A request whose names do not clash compiles as on a new engine, if changed classes were evicted
before. -/
theorem compile_transparent {store : SourceStore} {options : Options} {builtins : List String}
    {start : Engine} (hstart : ofSources store options builtins = .ok start) (h : Run start [] e)
    (r : Request) (macros : List MacroDef) (hclash : (e.task r macros).NoClash) :
    ∃ fresh, ofSources e.library.store options builtins = .ok fresh ∧
      (e.compile r macros).1.log.hasErrors = (fresh.compile r macros).1.log.hasErrors ∧
      ((e.compile r macros).1.log.hasErrors = false →
        (e.compile r macros).1 = (fresh.compile r macros).1) := by
  obtain ⟨hreachable, hcache, hstore, hoptions, hother⟩ := addBuiltins_eq_ok hstart (.new _ _)
  have hkept := h.kept hreachable (.empty hcache (by rw [hstore]))
  set fresh := start.withSources { e.library.store with read := [] } with hfresh
  have hfaithful : fresh.library.Faithful e.options.fillGenerics [] := .empty hcache rfl
  have hcongr := compile_congr hkept.reachable.sound (hreachable.edit _).sound
    (hkept.options ▸ hkept.faithful) hfaithful hkept.options.symm hkept.builtins.symm
    ⟨rfl, rfl, fun _ _ => rfl⟩ hclash
  refine ⟨fresh, hother _, ?_⟩
  rcases hcongr with ⟨herrors, herrors'⟩ | hsame
  · refine ⟨herrors.trans herrors'.symm, fun hnone => ?_⟩
    rw [herrors] at hnone
    cases hnone
  · exact ⟨congrArg (fun o => o.log.hasErrors) hsame, fun _ => hsame⟩

def lightEngine : Engine where
  library := {
    store := {
      inMemory :=
        [("Light", "shader Light { float Power; };"), ("Glow", "shader Glow : Light { float Range; };")] } }

def lightRequest : Request := .mixin [⟨"Light", []⟩, ⟨"Glow", []⟩] [] []

def relitEngine : Engine :=
  ((lightEngine.loaded lightRequest []).withSources
    ((lightEngine.loaded lightRequest []).library.store.setText "Light"
      "shader Light { float Flux; };")).evict ["Light"]

theorem relit_transparent : (relitEngine.loading lightRequest []).log = [] ∧
    ∃ fresh, ofSources relitEngine.library.store {} [] = .ok fresh ∧
      (relitEngine.compile lightRequest []).1.log.hasErrors =
        (fresh.compile lightRequest []).1.log.hasErrors ∧
      ((relitEngine.compile lightRequest []).1.log.hasErrors = false →
        (relitEngine.compile lightRequest []).1 = (fresh.compile lightRequest []).1) := by
  have hload : (relitEngine.loading lightRequest []).log.isEmpty = true := by decide +kernel
  have hclash : (relitEngine.task lightRequest []).NoClash :=
    .of_closed [⟨"Light", [], []⟩, ⟨"Glow", [], []⟩] (by decide +kernel) (by decide +kernel)
      (by decide +kernel)
  have hused : Run lightEngine [] (lightEngine.loaded lightRequest []) := by
    rw [← compile_engine]
    exact .compile _ _ .start
  have hrelit : Run lightEngine [] relitEngine := (hused.setText _ _).evict_stale
  refine ⟨List.isEmpty_iff.mp hload, ?_⟩
  exact @compile_transparent relitEngine lightEngine.library.store {} [] lightEngine rfl hrelit
    lightRequest [] hclash

/-! ## Clashes of names -/

theorem quiet_of_shader {shader : Shader} (h : (e.compile r macros).1.shader = some shader) :
    (e.compile r macros).1.log.hasErrors = false := by
  obtain ⟨outcome, mixed, start, -, -, hnone, heq⟩ := compile_eq_some h
  rw [heq] at h ⊢
  have hcontra : start.shader ≠ some shader := by simp [hnone]
  revert h
  unfold finish
  dsimp only
  split
  · exact fun h => absurd h hcontra
  · split
    · exact fun h => absurd h hcontra
    · split
      · exact fun h => absurd h hcontra
      · next hfine => exact fun _ => eq_false_of_ne_true hfine

def clashEngine : Engine where
  library := {
    store := {
      inMemory :=
        [("Cabin", "shader Cabin { compose Oak wood; compose Chair chair; };"),
         ("Oak", "shader Oak { float Grain; };"), ("Nut", "shader Nut {};"),
         ("Mixin_964000c7", "shader Mixin_964000c7 {};"),
         ("Chair", "shader Chair : Mixin_964000c7 {};")] } }

def clashRequest : Request :=
  .mixin [⟨"Cabin", []⟩]
    [("wood", .mixin [⟨"Oak", []⟩, ⟨"Nut", []⟩] [] []), ("chair", .single ⟨"Chair", []⟩)] []

def seatedEngine : Engine := clashEngine.loaded (.single ⟨"Chair", []⟩) []

def emptiedEngine : Engine := clashEngine.withSources { seatedEngine.library.store with read := [] }

theorem clash_shows_cache : ∃ e fresh, Run clashEngine [] e ∧
    ofSources e.library.store {} [] = .ok fresh ∧
    (e.compile clashRequest []).1.log.hasErrors = false ∧
    (fresh.compile clashRequest []).1.log.hasErrors = false ∧
    (e.compile clashRequest []).1.shader ≠ (fresh.compile clashRequest []).1.shader := by
  have hseated : Run clashEngine [] seatedEngine := by
    rw [seatedEngine, ← compile_engine]
    exact .compile _ _ .start
  have hone : (seatedEngine.compilesSorted clashRequest fun s => decide (s.decls.length = 1)) = true := by
    decide +kernel
  have htwo : (emptiedEngine.compilesSorted clashRequest fun s => decide (s.decls.length = 2)) = true := by
    decide +kernel
  obtain ⟨shader, hshader, hone⟩ := compiles_of_sorted hone
  obtain ⟨shader', hshader', htwo⟩ := compiles_of_sorted htwo
  refine ⟨seatedEngine, emptiedEngine, hseated, rfl, quiet_of_shader hshader, quiet_of_shader hshader', ?_⟩
  rw [hshader, hshader']
  rintro ⟨rfl⟩
  simp only [decide_eq_true_eq] at hone htwo
  omega

end Engine

end ShaderCompose
