import ShaderCompose.Proofs.Library.Ends
import ShaderCompose.Proofs.Library.Faithful

/-!
A load fetches no more than it needs.
-/

namespace ShaderCompose

open List Loading

/-! ## Reached keys -/

/-- The least set that contains the wanted keys and what loaded classes depend on. -/
inductive Cache.Reached (wanted : ModuleKey → Prop) (loaded : Cache) : ModuleKey → Prop
  | wanted {key : ModuleKey} : wanted key → Cache.Reached wanted loaded key
  | dependency {key d : ModuleKey} {c : LoadedClass} : Cache.Reached wanted loaded key →
      loaded.lookup key = some c → d ∈ c.dependencies → Cache.Reached wanted loaded d

def Request.Names (r : Request) (macros : List MacroDef) (key : ModuleKey) : Prop :=
  ∃ node ∈ r.nodes, node.key? macros = some key

namespace Cache.Reached

variable {wanted wanted' : ModuleKey → Prop} {loaded loaded' : Cache} {key : ModuleKey}

theorem mono (h : Reached wanted loaded key) (hloaded : ∀ k c, loaded.lookup k = some c → loaded'.lookup k = some c)
    (hwanted : ∀ k, wanted k → Reached wanted' loaded' k) : Reached wanted' loaded' key := by
  induction h with
  | wanted hkey => exact hwanted _ hkey
  | dependency _ hc hd ih => exact .dependency ih (hloaded _ _ hc) hd

theorem tail {k : ModuleKey} {keys : List ModuleKey} (h : Reached (· ∈ keys) loaded key) :
    Reached (· ∈ k :: keys) loaded key :=
  h.mono (fun _ _ hc => hc) fun _ hk => .wanted (mem_cons_of_mem k hk)

theorem least {S : ModuleKey → Prop} (h : Reached wanted loaded key) (hwanted : ∀ k, wanted k → S k)
    (hclosed : ∀ e ∈ loaded, S e.1 → ∀ d ∈ e.2.dependencies, S d) : S key := by
  induction h with
  | wanted hkey => exact hwanted _ hkey
  | dependency _ hc hd ih => exact hclosed _ (mem_of_lookup hc) ih _ hd

end Cache.Reached

def Loading.AtHand (s : Loading) (key : ModuleKey) : Prop :=
  (s.loaded.lookup key).isSome = true ∨ key ∈ s.waiting

section

variable {plan : LoadPlan} {fuel : Nat} {path keys : List ModuleKey} {s t : Loading}
  {found : Option (List LoadedClass)}

theorem LoadsEach.reached (h : LoadsEach plan fuel path keys s found t) (hfound : found ≠ none)
    {k : ModuleKey} (hk : t.AtHand k) : s.AtHand k ∨ t.loaded.Reached (· ∈ keys) k := by
  induction h with
  | nil => exact .inl hk
  | loaded _ _ ih => exact (ih (mt (congrArg _) hfound) hk).imp_right .tail
  | @taken _ _ keys key s t c _ fresh _ _ hrest ih =>
    have hself : t.loaded.Reached (· ∈ key :: keys) key := .wanted mem_cons_self
    have hkey : t.loaded.lookup key = some c := hrest.frame.loaded _ _ (by simp [add])
    rcases ih (mt (congrArg _) hfound) hk with (hk | hk) | hk
    · rw [add, lookup_setKey] at hk
      split at hk
      · next heq => exact .inr (heq ▸ hself)
      · exact .inl (.inl hk)
    · rcases mem_append.mp hk with hk | hk
      · exact .inr (.dependency hself hkey (mem_reverse.mp hk))
      · exact .inl (.inr hk)
    · exact .inr hk.tail
  | @made _ _ keys key s t u r bases _ _ _ _ fresh unkept hrest ihbases ih =>
    obtain ⟨hloaded, hwaiting⟩ := finishClass_made plan r bases unkept
    have hself : u.loaded.Reached (· ∈ key :: keys) key := .wanted mem_cons_self
    have hkey : u.loaded.lookup key = some (madeClass plan key r bases t.library.next) := by
      refine hrest.frame.loaded _ _ ?_
      rw [hloaded, lookup_setKey, if_pos rfl]
    -- what comes up below the class is reached from its bases, and these from the class
    have hbelow : t.AtHand k → s.AtHand k ∨ u.loaded.Reached (· ∈ key :: keys) k := by
      intro hk
      have hframe := (finishClass_spec plan r bases fresh not_mem_nil).1
      refine (ihbases (Option.some_ne_none bases) hk).imp_right fun hk =>
        hk.mono (fun k c hc => hrest.frame.loaded k c (hframe.loaded k c hc)) fun b hb => ?_
      exact .dependency hself hkey (mem_append_left _ hb)
    rcases ih (mt (congrArg _) hfound) hk with (hk | hk) | hk
    · rw [hloaded, lookup_setKey] at hk
      split at hk
      · next heq => exact .inr (heq ▸ hself)
      · exact hbelow (.inl hk)
    · rw [hwaiting] at hk
      rcases mem_append.mp hk with hk | hk
      · exact .inr (.dependency hself hkey (mem_append_right _ (mem_reverse.mp hk)))
      · exact hbelow (.inr hk)
    · exact .inr hk.tail
  | _ => exact absurd rfl hfound

/-! ## Where loaded classes come from -/

/-- What is at hand was there before or read since. -/
structure Loading.Brought (l : Library) (before : Cache) (s : Loading) : Prop where
  cached : ∀ k, (s.library.cached? k).isSome = true → (l.cached? k).isSome = true ∨ k ∈ s.parsed
  loaded : ∀ k, (s.loaded.lookup k).isSome = true →
    (before.lookup k).isSome = true ∨ (l.cached? k).isSome = true ∨ k ∈ s.parsed

namespace Loading.Brought

variable {l : Library} {before : Cache} {key : ModuleKey}

theorem take (h : s.Brought l before) {c : LoadedClass} (hc : s.library.cached? key = some c)
    (keys : List ModuleKey) : ((s.await keys).add key c).Brought l before where
  cached := h.cached
  loaded k hk := by
    rw [Loading.add, lookup_setKey] at hk
    split at hk
    · next heq => exact .inr (h.cached k (by rw [heq, hc, Option.isSome_some]))
    · exact h.loaded k hk

theorem read (h : s.Brought l before) (plan : LoadPlan) : (s.read plan key).2.Brought l before where
  cached k hk := by
    cases hc : s.library.cached? k with
    | some c => exact (h.cached k (by rw [hc, Option.isSome_some])).imp_right (mem_cons_of_mem _)
    | none =>
      rw [(extends_read plan key s [k]).unkept k (mem_singleton_self k) hc] at hk
      cases hk
  loaded k hk := (h.loaded k hk).imp_right (Or.imp_right (mem_cons_of_mem _))

theorem finish (h : s.Brought l before) {r : ReadClass} {bases : List LoadedClass}
    (unkept : s.library.cached? key = none) (hkey : key ∈ s.parsed) :
    (finishClass plan key r bases s).2.Brought l before := by
  have hset : ∀ {c : LoadedClass} {classes : Cache} {k : ModuleKey},
      ((setKey key c classes).lookup k).isSome = true → (classes.lookup k).isSome = true ∨ k ∈ s.parsed := by
    intro c classes k hk
    rw [lookup_setKey] at hk
    split at hk
    · next heq => exact .inr (heq ▸ hkey)
    · exact .inl hk
  have hloaded : ∀ {c : LoadedClass} (k : ModuleKey), ((setKey key c s.loaded).lookup k).isSome = true →
      (before.lookup k).isSome = true ∨ (l.cached? k).isSome = true ∨ k ∈ s.parsed :=
    fun k hk => (hset hk).elim (h.loaded k) fun hk => .inr (.inr hk)
  rcases finishClass_cases plan r bases unkept rfl with heq | ⟨-, heq⟩ <;> rw [heq]
  · exact ⟨h.cached, hloaded⟩
  · exact ⟨fun k hk => (hset hk).elim (h.cached k) .inr, hloaded⟩

end Loading.Brought

theorem LoadsEach.brought {l : Library} {before : Cache} (h : LoadsEach plan fuel path keys s found t)
    (hs : s.Brought l before) : t.Brought l before := by
  induction h with
  | nil | failed _ => exact hs
  | loaded _ _ ih => exact ih hs
  | taken _ _ hc _ ih => exact ih (hs.take hc _)
  | cyclic _ | tooDeep _ => exact ⟨hs.cached, hs.loaded⟩
  | unread _ _ => exact ⟨(hs.read plan).cached, (hs.read plan).loaded⟩
  | baseless _ _ _ ih => exact ⟨(ih (hs.read plan)).cached, (ih (hs.read plan)).loaded⟩
  | made _ _ hbases _ unkept _ ihbases ih =>
    exact ih ((ihbases (hs.read plan)).finish unkept (hbases.frame.parsed mem_cons_self))

end

/-! ## Whole loads -/

def Loading.Displaced (l : Library) (s : Loading) : Prop :=
  ∃ key c, s.loaded.lookup key = some c ∧ c.isMixin = true ∧ (key ∈ s.parsed ∨ (l.cached? key).isSome = true)

theorem Loading.Displaced.mono {l : Library} {s t : Loading} (h : s.Displaced l)
    (hloaded : ∀ k c, s.loaded.lookup k = some c → t.loaded.lookup k = some c)
    (hparsed : s.parsed ⊆ t.parsed) : t.Displaced l := by
  obtain ⟨key, c, hc, hmixin, hkey⟩ := h
  exact ⟨key, c, hloaded key c hc, hmixin, hkey.imp_left fun hkey => hparsed hkey⟩

structure Loading.Fetched (l : Library) (wanted : ModuleKey → Prop) (s : Loading) : Prop where
  cached : ∀ k, (s.library.cached? k).isSome = true → (l.cached? k).isSome = true ∨ k ∈ s.parsed
  reached : s.Troubled ∨ s.Displaced l ∨ ∀ k, s.AtHand k → s.loaded.Reached wanted k

namespace Loading.Fetched

variable {l : Library} {plan : LoadPlan} {fuel : Nat} {wanted : ModuleKey → Prop} {s t : Loading}

theorem brought (h : s.Fetched l wanted) : s.Brought l s.loaded := ⟨h.cached, fun _ hk => .inl hk⟩

theorem mixin {refs : List ClassRef} {bases : List LoadedClass} (h : s.Fetched l wanted)
    (hwanted : wanted (mixinKey refs plan.macros))
    (hfresh : s.loaded.lookup (mixinKey refs plan.macros) = none)
    (hbases : LoadsEach plan fuel [] (refs.map fun r => r.key plan.macros) s (some bases) t) :
    (t.takeNumber.add (mixinKey refs plan.macros)
      (madeMixin plan.macros refs bases t.library.next)).Fetched l wanted := by
  have hbrought := hbases.brought h.brought
  set key := mixinKey refs plan.macros
  set u := t.takeNumber.add key (madeMixin plan.macros refs bases t.library.next) with hu
  have hkey : u.loaded.lookup key = some (madeMixin plan.macros refs bases t.library.next) := by
    rw [hu, Loading.add, lookup_setKey, if_pos rfl]
  refine ⟨hbrought.cached, ?_⟩
  cases hplace : t.loaded.lookup key with
  | some c =>
    refine .inr (.inl ⟨key, _, hkey, rfl, ?_⟩)
    rcases hbrought.loaded key (by rw [hplace, Option.isSome_some]) with hk | hk | hk
    · rw [hfresh] at hk
      cases hk
    · exact .inr hk
    · exact .inl hk
  | none =>
    have hframe : Extends [] t u := (extends_takeNumber [] t).trans (extends_add _ hplace not_mem_nil)
    have hbefore := hbases.frame.trans hframe
    rcases h.reached with htrouble | hdisplaced | hreached
    · exact .inl (hbefore.troubled htrouble)
    · exact .inr (.inl (hdisplaced.mono hbefore.loaded hbefore.parsed))
    · have hbelow : ∀ k, t.AtHand k → u.loaded.Reached wanted k := by
        intro k hk
        rcases hbases.reached (Option.some_ne_none bases) hk with hk | hk
        · exact (hreached k hk).mono hbefore.loaded fun _ => .wanted
        · exact hk.mono hframe.loaded fun b hb =>
            .dependency (.wanted hwanted) hkey (mem_append_left _ hb)
      refine .inr (.inr fun k hk => ?_)
      rcases hk with hk | hk
      · rw [hu, Loading.add, lookup_setKey] at hk
        split at hk
        · next heq => exact .wanted (heq ▸ hwanted)
        · exact hbelow k (.inl hk)
      · exact hbelow k (.inr hk)

theorem node {r node : Request} (h : s.Fetched l (r.Names plan.macros)) (hnode : node ∈ r.nodes)
    (hs : s.Reported) : (loadBases plan fuel node.classes s).Fetched l (r.Names plan.macros) := by
  have hkey := node.key?_eq plan.macros
  match hclasses : node.classes with
  | [] =>
    refine ⟨h.cached, .inl (.inl ?_)⟩
    simp [loadBases, Loading.report, Log.hasErrors, Diagnostic.error]
  | [c] =>
    rw [hclasses] at hkey
    refine ⟨h.cached, h.reached.imp_right (Or.imp_right fun hreached k hk => ?_)⟩
    rcases hk with hk | hk
    · exact hreached k (.inl hk)
    · rcases mem_append.mp hk with hk | hk
      · rw [mem_singleton.mp (mem_reverse.mp hk)]
        exact .wanted ⟨node, hnode, hkey⟩
      · exact hreached k (.inr hk)
  | cls :: other :: rest =>
    rw [hclasses] at hkey
    rw [loadBases]
    rcases loadMixin_cases plan fuel (cls :: other :: rest) s with
      ⟨-, heq⟩ | ⟨hfresh, _, t, hbases, ⟨rfl, heq⟩ | ⟨bases, rfl, heq⟩⟩ <;> rw [heq]
    · exact h
    · exact ⟨(hbases.brought h.brought).cached, .inl (hbases.troubled (hbases.reported hs))⟩
    · exact h.mixin ⟨node, hnode, hkey⟩ hfresh hbases

theorem next (h : s.Fetched l wanted) (hs : s.Reported) {key : ModuleKey} {rest : List ModuleKey}
    (hnext : key :: rest ⊆ s.waiting) :
    (loadFrom plan fuel [] key { s with waiting := rest }).2.Fetched l wanted := by
  have hone := loadFrom_loads plan fuel [] key { s with waiting := rest }
  generalize (loadFrom plan fuel [] key { s with waiting := rest }).2 = t at hone ⊢
  generalize Option.map _ _ = found at hone
  have hbrought : t.Brought l s.loaded := hone.brought ⟨h.cached, h.brought.loaded⟩
  refine ⟨hbrought.cached, ?_⟩
  rcases h.reached with htrouble | hdisplaced | hreached
  · exact .inl (hone.frame.troubled htrouble)
  · exact .inr (.inl (hdisplaced.mono hone.frame.loaded hone.frame.parsed))
  · cases found with
    | none => exact .inl (hone.troubled (hone.reported hs))
    | some cs =>
      have hkeep : ∀ k, s.AtHand k → t.loaded.Reached wanted k :=
        fun k hk => (hreached k hk).mono hone.frame.loaded fun _ => .wanted
      refine .inr (.inr fun k hk => ?_)
      rcases hone.reached (Option.some_ne_none cs) hk with (hk | hk) | hk
      · exact hkeep k (.inl hk)
      · exact hkeep k (.inr (hnext (mem_cons_of_mem _ hk)))
      · refine hk.mono (fun _ _ hc => hc) fun k hk => hkeep k (.inr (hnext ?_))
        rw [mem_singleton.mp hk]
        exact mem_cons_self

end Loading.Fetched

namespace Library

/-- Without errors exactly the reached keys are loaded, if no class has the key of a mixin. -/
theorem loaded_iff_reached {l : Library} (h : l.Reachable) {plan : LoadPlan} {r : Request}
    (hlog : (l.loadBy plan r).log.hasErrors = false)
    (hplace : ∀ e ∈ (l.loadBy plan r).loaded, e.2.isMixin = true →
      e.1 ∉ (l.loadBy plan r).parsed ∧ (l.cached? e.1).isSome = false) (key : ModuleKey) :
    ((l.loadBy plan r).loaded.lookup key).isSome = true ↔
      (l.loadBy plan r).loaded.Reached (r.Names plan.macros) key := by
  have hgrounded := h.sound.1
  constructor
  · intro hkey
    have hfetched : (l.loadBy plan r).Fetched l (r.Names plan.macros) := by
      obtain ⟨bound, hbound⟩ := l.exists_loadWithin plan r
      rw [hbound]
      refine loadWithin_induction ⟨fun _ hk => Or.inl hk, Or.inr (Or.inr fun k hk => ?_)⟩
        (fun _ hnode _ hs hf => hf.node hnode hs) (fun _ _ _ hnext hs hf => hf.next hs hnext)
        (fun s hf => ⟨hf.cached, hf.reached.imp_right (Or.imp_right fun hreached k hk =>
          hreached k (Or.inl (hk.resolve_right List.not_mem_nil)))⟩)
        fun s hf => ⟨hf.cached, Or.inl (Or.inr rfl)⟩
      rcases hk with hk | hk <;> cases hk
    rcases hfetched.reached with htrouble | ⟨k, c, hc, hmixin, hk⟩ | hreached
    · rcases htrouble with herrors | hgiven
      · rw [hlog] at herrors
        cases herrors
      · rw [loadBy_exhausted hgrounded plan r] at hgiven
        cases hgiven
    · obtain ⟨hunread, hunkept⟩ := hplace _ (mem_of_lookup hc) hmixin
      rcases hk with hk | hk
      · exact absurd hk hunread
      · rw [hunkept] at hk
        cases hk
    · exact hreached key (Or.inl hkey)
  · intro hkey
    obtain ⟨hnodes, hclosed⟩ := loadBy_closed hgrounded hlog
    refine hkey.least ?_ fun e he _ d hd => hclosed e he d hd
    rintro k ⟨node, hnode, hk⟩
    obtain ⟨k', hk', hloaded⟩ := hnodes node hnode
    cases hk.symm.trans hk'
    exact hloaded

def wholeSources : SourceStore where
  inMemory :=
    [("Base", "shader Base { };"), ("Other", "shader Other { };"),
     ("Part", "shader Part : Base { compose Whole whole; };"),
     ("Whole", "shader Whole : Base { compose Part part; };")]

def wholeLibrary : Library :=
  (({ store := wholeSources } : Library).loadBy (.quiet [] false) (.single ⟨"Part", []⟩)).library

def wholeLoad : Loading :=
  wholeLibrary.loadBy (.quiet [] false) (.mixin [⟨"Whole", []⟩, ⟨"Other", []⟩] [] [])

theorem loaded_iff_reached_whole :
    wholeLoad.loaded.length = 5 ∧ wholeLoad.parsed.length = 1 ∧
      ∀ key, (wholeLoad.loaded.lookup key).isSome = true ↔
        wholeLoad.loaded.Reached
          ((Request.mixin [⟨"Whole", []⟩, ⟨"Other", []⟩] [] []).Names []) key := by
  have hreachable : wholeLibrary.Reachable := by
    unfold wholeLibrary
    exact .load _ _ (.new wholeSources 0)
  obtain ⟨hloaded, hparsed, hlog, hplace⟩ : wholeLoad.loaded.length = 5 ∧ wholeLoad.parsed.length = 1 ∧
      wholeLoad.log.hasErrors = false ∧ ∀ e ∈ wholeLoad.loaded, e.2.isMixin = true →
        e.1 ∉ wholeLoad.parsed ∧ (wholeLibrary.cached? e.1).isSome = false := by
    decide +kernel
  exact ⟨hloaded, hparsed, loaded_iff_reached hreachable hlog hplace⟩

def displacedSources : SourceStore where
  inMemory :=
    [("D", "shader D : Mixin_4b01f935 { };"), ("Mixin_4b01f935", "shader Mixin_4b01f935 : Y { };"),
     ("X", "shader X { };"), ("Y", "shader Y { };")]

def displacedLoad : Loading :=
  ({ store := displacedSources } : Library).loadBy (.quiet [] false) (.mixin [⟨"D", []⟩, ⟨"X", []⟩] [] [])

def reachedKeys : List ModuleKey := [⟨"Mixin_4b01f935", [], []⟩, ⟨"D", [], []⟩, ⟨"X", [], []⟩]

theorem displaced_class_leaves_base :
    displacedLoad.log.hasErrors = false ∧
      (displacedLoad.loaded.lookup ⟨"Y", [], []⟩).isSome = true ∧
      ¬ displacedLoad.loaded.Reached ((Request.mixin [⟨"D", []⟩, ⟨"X", []⟩] [] []).Names [])
        ⟨"Y", [], []⟩ := by
  obtain ⟨hlog, hloaded, hclosed⟩ : displacedLoad.log.hasErrors = false ∧
      (displacedLoad.loaded.lookup ⟨"Y", [], []⟩).isSome = true ∧
      ∀ e ∈ displacedLoad.loaded, e.1 ∈ reachedKeys → ∀ d ∈ e.2.dependencies, d ∈ reachedKeys := by
    decide +kernel
  refine ⟨hlog, hloaded, fun hreached => ?_⟩
  have hmem : (⟨"Y", [], []⟩ : ModuleKey) ∈ reachedKeys := by
    refine hreached.least ?_ hclosed
    rintro k ⟨node, hnode, hk⟩
    cases List.mem_singleton.mp hnode
    have hname : Request.key? (.mixin [⟨"D", []⟩, ⟨"X", []⟩] [] []) [] =
        some ⟨"Mixin_4b01f935", [], []⟩ := by decide +kernel
    cases hk.symm.trans hname
    exact List.mem_cons_self
  exact absurd hmem (by decide)

end Library

end ShaderCompose
