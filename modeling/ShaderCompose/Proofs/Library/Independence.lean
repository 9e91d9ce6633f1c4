import ShaderCompose.Proofs.Library.Meaning
import ShaderCompose.Proofs.Module.Renumber

/-!
What a load finds depends on the sources and not on earlier loads.
-/

namespace ShaderCompose

open List Loading Relation

namespace LoadTask

/-! ## Invariants of a load -/

def Based (t : LoadTask) (s : Loading) : Prop :=
  s.Sound [] t.macros ∧ s.FaithfulTo t.store t.fill

theorem based_invariant (t : LoadTask) : RequestInvariant t.plan 0 (fun key => key.macros = t.macros)
      (fun key read => True ∧ t.declared? key = some (madeClass t.plan key read [] 0)) t.Based :=
  (sound_invariant t.plan 0 []).and (faithful_invariant t.plan 0 t.store)

theorem Based.drop {t : LoadTask} {s : Loading} (h : t.Based s) {rest : List ModuleKey}
    (hrest : rest ⊆ s.waiting) : t.Based { s with waiting := rest } :=
  ⟨{ h.1 with waiting := fun k hk => h.1.waiting k (hrest hk) }, h.2.sources, h.2.library⟩

theorem spoiled_invariant (t : LoadTask) :
    RequestInvariant t.plan 0 (fun key => key.macros = t.macros) (fun _ _ => True) t.Spoiled where
  cyclic s _ _ _ h := h.extends (extends_report [] s _)
  empty s h := h.extends (extends_report [] s _)
  giveUp _ _ _ _ _ _ := .inl rfl
  fail _ _ _ _ _ h := h
  await _ _ _ h := h
  take _ _ _ _ _ _ h := h
  read s key _ _ _ h := ⟨h.extends (extends_read t.plan key s []), fun _ _ => trivial⟩
  base _ _ _ b hb := by
    obtain ⟨_, -, rfl⟩ := mem_map.mp hb
    rfl
  finish _ _ read bases _ _ fresh _ _ h := h.extends (finishClass_spec t.plan read bases fresh not_mem_nil).1
  mixin _ _ _ _ _ h := h

theorem orderly_invariant (t : LoadTask) : LoadInvariant t.plan 0 t.Wanted
      (fun key read => t.Wanted key ∧ t.declared? key = some (madeClass t.plan key read [] 0))
      (fun s => t.Based s ∧ (t.Spoiled s ∨ t.Orderly s)) where
  cyclic s key hkey hcycle h := by
    have hbelow : TransGen t.Inherits key key :=
      TransGen.mono (fun b k ⟨_, hread, hb⟩ => ⟨_, hread.2, hb⟩) key key hcycle
    refine ⟨?_, .inl (.inr ⟨?_, .cyclic hkey hbelow⟩)⟩
    · exact t.based_invariant.cyclic s key hkey.macros
        (inheritsBy_mono (fun _ _ hread => ⟨trivial, hread.2⟩) hcycle) h.1
    · simp [report, Log.hasErrors, Diagnostic.error]
  giveUp s keys hnodup hkeys hlong h := by
    refine ⟨t.based_invariant.giveUp s keys hnodup (fun k hk => (hkeys k hk).macros) hlong h.1, ?_⟩
    exact .inl (.inl rfl)
  fail s key hkey hs hwhy h := by
    refine ⟨t.based_invariant.fail s key hkey.macros hs
      (hwhy.mono (fun _ _ hread => ⟨trivial, hread.2⟩) fun _ h => h.1) h.1, h.2.imp id fun horderly => ?_⟩
    exact horderly.same_classes rfl (fun _ hk => hk) rfl rfl
  take s key c hkey fresh hc h := by
    refine ⟨t.based_invariant.take s key c hkey.macros fresh hc h.1, h.2.imp id fun horderly => ?_⟩
    exact horderly.take h.1.1.grounded h.1.2 hkey fresh hc
  read s key hkey fresh unkept h := by
    obtain ⟨hbased, hread⟩ := t.based_invariant.read s key hkey.macros fresh unkept h.1
    have hdeclared := (@FaithfulTo.read t.store s t.plan h.1.2 key hkey.macros).2
    refine ⟨⟨hbased, ?_⟩, fun read hfound => ⟨hkey, (hread read hfound).2⟩⟩
    rcases h.2 with hspoiled | horderly
    · exact .inl (hspoiled.extends (extends_read t.plan key s []))
    · cases hfound : (s.read t.plan key).1 with
      | none =>
        rw [hfound] at hdeclared
        exact .inl (.inr ⟨read_none hfound, .undeclared hkey hdeclared⟩)
      | some read =>
        refine .inr (horderly.same_classes ?_ (fun _ hk => hk) rfl ?_)
        · rw [read_fst] at hfound
          rw [read_log, classOfFile_log hfound, append_nil]
        · have hlibrary : (s.read t.plan key).2.library = _ := read_quiet_library s t.macros t.fill key
          rw [hlibrary]
  base key read hread b hb := hread.1.dependency hread.2 (mem_append_left _ hb)
  finish s key read bases hkey hread fresh unkept hbases h := by
    refine ⟨t.based_invariant.finish s key read bases hkey.macros ⟨trivial, hread.2⟩ fresh unkept hbases h.1, ?_⟩
    rcases h.2 with hspoiled | horderly
    · exact .inl (hspoiled.extends (finishClass_spec t.plan read bases fresh not_mem_nil).1)
    · exact .inr (horderly.finish hkey hread.2 fresh unkept hbases)

/-! ## The nodes of a request -/

/-- The mixins in `done` are loaded, unless the load is spoiled. -/
structure Stage (t : LoadTask) (done : List (List ClassRef)) (s : Loading) : Prop where
  reported : s.Reported
  based : t.Based s
  state : t.Spoiled s ∨ t.Orderly s ∧ ∀ refs ∈ done, (s.loaded.lookup (mixinKey refs t.macros)).isSome = true

namespace Stage

variable {t : LoadTask} {s : Loading} {done more : List (List ClassRef)} {fuel : Nat}

theorem of_spoiled (hreported : s.Reported) (h : t.Based s ∧ t.Spoiled s) : t.Stage done s :=
  ⟨hreported, h.1, .inl h.2⟩

theorem await (h : t.Stage done s) {c : ClassRef} (hc : t.request.Needs t.macros c) :
    t.Stage done (s.await [c.key t.macros]) where
  reported := h.reported
  based := t.based_invariant.await s _ (fun k hk => by rw [mem_singleton.mp hk]; rfl) h.based
  state := by
    refine h.state.imp id fun ⟨horderly, hdone⟩ => ⟨?_, hdone⟩
    refine ⟨horderly.log, fun k hk => ?_, horderly.meant, horderly.linked, horderly.agree⟩
    rcases mem_append.mp hk with hk | hk
    · rw [mem_singleton.mp (mem_reverse.mp hk)]
      exact .named hc
    · exact horderly.waiting k hk

theorem loadMixin (h : t.Stage done s)
    (hclash : ∀ k, t.Wanted k → t.request.mixin? t.macros k = none) {refs : List ClassRef}
    (hmixins : done ++ refs :: more = t.request.mixins) :
    t.Stage (done ++ [refs]) (loadMixin t.plan fuel refs s) := by
  rcases h.state with hspoiled | ⟨horderly, hdone⟩
  · obtain ⟨hreported, hI⟩ := loadMixin_invariant (t.based_invariant.and t.spoiled_invariant)
      (Nat.zero_le fuel) (fun _ _ => rfl) h.reported ⟨h.based, hspoiled⟩
    exact .of_spoiled hreported hI
  · rcases loadMixin_cases t.plan fuel refs s with ⟨hloaded, heq⟩ | ⟨hfresh, found, u, hbases, hrun⟩
    · rw [heq]
      refine ⟨h.reported, h.based, .inr ⟨horderly, forall_mem_append.mpr ⟨hdone, ?_⟩⟩⟩
      exact forall_mem_singleton.mpr hloaded
    · -- a mixin before it with the same key would be loaded
      have hfirst : t.request.mixin? t.macros (mixinKey refs t.macros) = some refs := by
        rw [Request.mixin?, ← hmixins, find?_append, find?_eq_none.mpr, Option.none_or, find?_cons_of_pos (by simp)]
        intro other hother hsame
        have hloaded := hdone other hother
        rw [beq_iff_eq.mp hsame, show t.macros = t.plan.macros from rfl, hfresh] at hloaded
        cases hloaded
      have hwanted : ∀ k ∈ refs.map fun r => r.key t.macros, t.Wanted k := by
        intro k hk
        obtain ⟨r, hr, rfl⟩ := mem_map.mp hk
        exact .named ((Request.mixin?_spec hfirst).2.2 r hr)
      have reported := hbases.reported h.reported
      obtain ⟨hbased, hstate⟩ := LoadsEach.invariant_top t.orderly_invariant (Nat.zero_le fuel) hbases
        hwanted h.reported ⟨h.based, .inr horderly⟩
      rcases hrun with ⟨rfl, heq⟩ | ⟨bases, rfl, heq⟩
      · rw [heq]
        refine .of_spoiled reported ⟨hbased, hstate.elim id fun horderly => ?_⟩
        rcases hbases.troubled reported with herrors | hexhausted
        · have hlog : u.log = [] := horderly.log
          rw [hlog] at herrors
          cases herrors
        · exact .inl hexhausted
      · rw [heq]
        have hfound := hbases.lookup rfl
        refine ⟨reported, t.based_invariant.mixin u refs bases (fun _ _ => rfl) hfound hbased,
          hstate.imp id fun horderly => ?_⟩
        refine ⟨horderly.mixin hclash hfirst hfound, ?_⟩
        have hlookup : ∀ other ∈ done ++ [refs],
            (u.loaded.lookup (mixinKey other t.macros)).isSome = true ∨ other = refs := by
          intro other hother
          rcases mem_append.mp hother with hother | hother
          · exact .inl (hbases.frame.isSome_loaded (hdone other hother))
          · exact .inr (mem_singleton.mp hother)
        intro other hother
        change ((setKey _ _ u.loaded).lookup _).isSome = true
        rw [lookup_setKey]
        split
        · rfl
        · next hne =>
          rcases hlookup other hother with hsome | rfl
          · exact hsome
          · exact absurd rfl hne

theorem loadBases (h : t.Stage done s)
    (hclash : ∀ k, t.Wanted k → t.request.mixin? t.macros k = none) {node : Request}
    (hnode : node ∈ t.request.nodes)
    (hmixins : done ++ Request.mixinsOf [node] ++ more = t.request.mixins) :
    t.Stage (done ++ Request.mixinsOf [node]) (loadBases t.plan fuel node.classes s) := by
  have hone : Request.mixinsOf [node] = [node.classes].filter fun refs => decide (1 < refs.length) := rfl
  rw [hone] at hmixins ⊢
  match hclasses : node.classes with
  | [] =>
    refine .of_spoiled (h.reported.of_log rfl (extends_report [] s _).troubled)
      ⟨t.based_invariant.empty s h.based, .inr ⟨?_, .empty hnode hclasses⟩⟩
    simp [ShaderCompose.loadBases, report, Log.hasErrors, Diagnostic.error]
  | [cls] =>
    rw [filter_cons_of_neg (by simp), filter_nil, append_nil]
    refine h.await ⟨_, hnode, hclasses ▸ mem_singleton_self cls, fun hlong => ?_⟩
    rw [hclasses] at hlong
    exact absurd hlong (Nat.lt_irrefl _)
  | cls :: other :: rest =>
    rw [hclasses] at hmixins
    rw [append_assoc] at hmixins
    exact h.loadMixin hclash hmixins

end Stage

theorem loadRequest_stage (t : LoadTask) (fuel : Nat)
    (hclash : ∀ k, t.Wanted k → t.request.mixin? t.macros k = none) (s : Loading) (h : t.Stage [] s) :
    t.Stage t.request.mixins (loadRequest t.plan fuel t.request s) := by
  -- nodes are loaded after the mixins of the nodes before them
  have step : ∀ (nodes : List Request) (s : Loading) (done : List (List ClassRef)),
      nodes ⊆ t.request.nodes → done ++ Request.mixinsOf nodes = t.request.mixins → t.Stage done s →
      t.Stage t.request.mixins (nodes.foldl (fun s node => loadBases t.plan fuel node.classes s) s) := by
    intro nodes
    induction nodes with
    | nil =>
      intro s done _ hmixins h
      rw [← hmixins, show Request.mixinsOf [] = [] from rfl, append_nil]
      exact h
    | cons node nodes ih =>
      intro s done hnodes hmixins h
      rw [← singleton_append, Request.mixinsOf_append, ← append_assoc] at hmixins
      exact ih _ _ (fun _ hn => hnodes (mem_cons_of_mem _ hn)) hmixins
        (h.loadBases hclash (hnodes mem_cons_self) hmixins)
  rw [loadRequest_eq_foldl]
  exact step t.request.nodes s [] (fun _ hn => hn) rfl h

/-! ## The whole load -/

theorem loadWaiting_orderly (t : LoadTask) (fuel steps : Nat) {s : Loading} (hs : s.Reported)
    (h : t.Based s ∧ (t.Spoiled s ∨ t.Orderly s)) :
    t.Based (loadWaiting t.plan fuel steps s) ∧ (t.Spoiled (loadWaiting t.plan fuel steps s) ∨
        t.Orderly (loadWaiting t.plan fuel steps s)) := by
  refine @loadWaiting_invariant t.plan fuel 0 (fun key => key.macros = t.macros)
    (fun s => t.Based s ∧ (t.Spoiled s ∨ t.Orderly s)) ?_ ?_ ?_ steps s [] hs
    (.inr ⟨nodup_nil, forall_mem_nil _, forall_mem_nil _, Nat.zero_le _⟩) h
  · intro s key rest hnext hs ⟨hbased, hstate⟩
    have hsub : key :: rest ⊆ s.waiting := hnext ▸ dropWhile_subset _
    have hrest : rest ⊆ s.waiting := fun k hk => hsub (mem_cons_of_mem _ hk)
    have hmacros := hbased.1.waiting key (hsub mem_cons_self)
    refine ⟨hmacros, ?_⟩
    rcases hstate with hspoiled | horderly
    · have hkept := loadFrom_invariant_top
        (t.based_invariant.and t.spoiled_invariant).toLoadInvariant (Nat.zero_le fuel) key
        { s with waiting := rest } hmacros hs ⟨hbased.drop hrest, hspoiled⟩
      exact ⟨hkept.1, .inl hkept.2⟩
    · exact loadFrom_invariant_top t.orderly_invariant (Nat.zero_le fuel) key
        { s with waiting := rest } (horderly.waiting key (hsub mem_cons_self)) hs
        ⟨hbased.drop hrest, .inr (horderly.same_classes rfl hrest rfl rfl)⟩
  · intro s _ _ ⟨hbased, hstate⟩
    refine ⟨hbased.drop (nil_subset _), hstate.imp id fun horderly => ?_⟩
    exact horderly.same_classes rfl (nil_subset _) rfl rfl
  · intro s keys hnodup hkeys hlong ⟨hbased, _⟩
    exact ⟨t.based_invariant.giveUp s keys hnodup hkeys hlong hbased, .inl (.inl rfl)⟩

structure Solved (t : LoadTask) (loaded : Cache) : Prop where
  nodup : (loaded.map (·.1)).Nodup
  key : ∀ e ∈ loaded, e.2.key = e.1
  keys : ∀ key, (loaded.lookup key).isSome = true ↔ t.Wanted key ∨ (t.request.mixin? t.macros key).isSome = true
  meant : ∀ e ∈ loaded, t.Meant e.1 e.2
  linked : ∀ e ∈ loaded,
    e.2.baseKeys.map (fun b => (loaded.lookup b).map LoadedClass.module) = e.2.module.bases.map some

theorem NoClash.mixin? {t : LoadTask} (h : t.NoClash) {key : ModuleKey} (hkey : t.Wanted key) :
    t.request.mixin? t.macros key = none := by
  refine Option.eq_none_iff_forall_ne_some.mpr fun refs hrefs => ?_
  obtain ⟨hmem, rfl, -⟩ := Request.mixin?_spec hrefs
  refine h refs hmem (hkey.mono fun c hc => ?_)
  obtain ⟨node, hnode, hc, -⟩ := hc
  exact Request.mem_references t.request hnode hc

section

variable {t : LoadTask} {loaded : Cache}

theorem wanted_loaded (hclash : t.NoClash) (hmeant : ∀ e ∈ loaded, t.Meant e.1 e.2)
    (hnodes : ∀ node ∈ t.request.nodes, ∃ key, node.key? t.macros = some key ∧ (loaded.lookup key).isSome = true)
    (hclosed : ∀ e ∈ loaded, ∀ d ∈ e.2.dependencies, (loaded.lookup d).isSome = true)
    {key : ModuleKey} (h : t.Wanted key) :
    (loaded.lookup key).isSome = true := by
  induction h with
  | @named c hc =>
    obtain ⟨node, hnode, hc, hfirst⟩ := hc
    obtain ⟨key, hkey, hloaded⟩ := hnodes node hnode
    rw [Request.key?_eq] at hkey
    match hclasses : node.classes with
    | [] => simp [hclasses] at hc
    | [_] =>
      rw [hclasses, mem_singleton] at hc
      rw [hclasses] at hkey
      cases hkey
      exact hc ▸ hloaded
    | first :: second :: rest =>
      rw [hclasses] at hkey hfirst hc
      cases hkey
      have hfirst := hfirst (by simp)
      obtain ⟨made, hmade⟩ := Option.isSome_iff_exists.mp hloaded
      have hmem := mem_of_lookup hmade
      rcases hmeant _ hmem with ⟨hwanted, -⟩ | ⟨refs, hrefs, hbare⟩
      · rw [hclash.mixin? hwanted] at hfirst
        cases hfirst
      · rw [hfirst] at hrefs
        cases hrefs
        have hkeys : made.baseKeys = (first :: second :: rest).map fun r => r.key t.macros :=
          congrArg LoadedClass.baseKeys hbare
        refine hclosed _ hmem _ (mem_append_left _ ?_)
        rw [hkeys]
        exact mem_map_of_mem hc
  | @dependency key k c hkey hc hk ih =>
    obtain ⟨found, hfound⟩ := Option.isSome_iff_exists.mp ih
    have hmem := mem_of_lookup hfound
    rcases hmeant _ hmem with ⟨-, hdeclared⟩ | ⟨refs, hrefs, -⟩
    · obtain rfl : c = found.bare := Option.some.inj (hc.symm.trans hdeclared)
      exact hclosed _ hmem k hk
    · rw [hclash.mixin? hkey] at hrefs
      cases hrefs

theorem Solved.part_of_inherits (h : t.Solved loaded) (hclash : t.NoClash) {a b : ModuleKey}
    (hab : TransGen t.Inherits a b) (hb : t.Wanted b) :
    ∃ lower upper, loaded.lookup a = some lower ∧ loaded.lookup b = some upper ∧
      ∃ m ∈ upper.module.bases, lower.module.Part m := by
  have hone : ∀ {a b : ModuleKey}, t.Inherits a b → t.Wanted b → t.Wanted a ∧
      ∃ lower upper, loaded.lookup a = some lower ∧ loaded.lookup b = some upper ∧
        lower.module ∈ upper.module.bases := by
    intro a b hab hb
    obtain ⟨c, hc, ha⟩ := hab
    obtain ⟨upper, hupper⟩ := Option.isSome_iff_exists.mp ((h.keys b).mpr (.inl hb))
    have hmem := mem_of_lookup hupper
    rcases h.meant _ hmem with ⟨-, hdeclared⟩ | ⟨refs, hrefs, -⟩
    · obtain rfl : c = upper.bare := Option.some.inj (hc.symm.trans hdeclared)
      have hlinked : (loaded.lookup a).map LoadedClass.module ∈ upper.module.bases.map some :=
        h.linked _ hmem ▸ mem_map_of_mem ha
      obtain ⟨m, hm, hmodule⟩ := mem_map.mp hlinked
      obtain ⟨lower, hlower, rfl⟩ := Option.map_eq_some_iff.mp hmodule.symm
      exact ⟨hb.dependency hc (mem_append_left _ ha), lower, upper, hlower, hupper, hm⟩
    · rw [hclash.mixin? hb] at hrefs
      cases hrefs
  induction hab with
  | single hab =>
    obtain ⟨-, lower, upper, hlower, hupper, hm⟩ := hone hab hb
    exact ⟨lower, upper, hlower, hupper, _, hm, .self _⟩
  | tail _ hbc ih =>
    obtain ⟨hmid, middle, upper, hmiddle, hupper, hm⟩ := hone hbc hb
    obtain ⟨lower, found, hlower, hfound, m, hmem, hpart⟩ := ih hmid
    obtain rfl : found = middle := Option.some.inj (hfound.symm.trans hmiddle)
    exact ⟨lower, upper, hlower, hupper, _, hm, .base hmem hpart⟩

end

theorem loadBy_meaning {t : LoadTask} {l : Library} (hstore : t.store.SameExcept [] l.store)
    (hgrounded : l.Grounded) (hnumbered : Module.Numbered l.next l.cache.modules)
    (hfaithful : l.Faithful t.fill []) (hclash : t.NoClash) :
    ((l.loadBy t.plan t.request).log.hasErrors = true ∧ t.Broken) ∨
      ((l.loadBy t.plan t.request).log = [] ∧ ¬ t.Broken ∧
        t.Solved (l.loadBy t.plan t.request).loaded) := by
  have hexhausted := Library.loadBy_exhausted hgrounded t.plan t.request
  have hclosed := @Library.loadBy_closed l hgrounded t.plan t.request
  have hstate : t.Based (l.loadBy t.plan t.request) ∧
      (t.Spoiled (l.loadBy t.plan t.request) ∨ t.Orderly (l.loadBy t.plan t.request)) := by
    obtain ⟨bound, hbound⟩ := l.exists_loadWithin t.plan t.request
    have hbased : t.Based { library := l } := ⟨.start hgrounded (by simpa using hnumbered), hstore, hfaithful⟩
    have hstage := loadRequest_stage t bound (fun _ => hclash.mixin?) { library := l }
      ⟨fun hne => absurd rfl hne, hbased, .inr ⟨⟨rfl, nofun, nofun, nofun, nofun⟩, nofun⟩⟩
    rw [hbound]
    exact loadWaiting_orderly t bound bound hstage.reported ⟨hstage.based, hstage.state.imp id And.left⟩
  generalize l.loadBy t.plan t.request = s at hexhausted hclosed hstate ⊢
  obtain ⟨⟨hsound, -⟩, hstate⟩ := hstate
  rcases hstate with (hgiven | hbroken) | horderly
  · rw [hexhausted] at hgiven
    cases hgiven
  · exact .inl hbroken
  · obtain ⟨hnodes, hdeps⟩ := hclosed (by rw [horderly.log, Log.hasErrors_nil])
    have hwanted : ∀ key, t.Wanted key → (s.loaded.lookup key).isSome = true := fun key =>
      wanted_loaded hclash horderly.meant hnodes hdeps
    have hsolved : t.Solved s.loaded := by
      refine ⟨hsound.nodup, hsound.key, fun key => ⟨fun hkey => ?_, ?_⟩, horderly.meant, ?_⟩
      · obtain ⟨c, hc⟩ := Option.isSome_iff_exists.mp hkey
        rcases horderly.meant _ (mem_of_lookup hc) with ⟨hwant, -⟩ | ⟨refs, hrefs, -⟩
        · exact .inl hwant
        · exact .inr (by rw [hrefs, Option.isSome_some])
      · rintro (hwant | hmixin)
        · exact hwanted key hwant
        · obtain ⟨refs, hrefs⟩ := Option.isSome_iff_exists.mp hmixin
          obtain ⟨hmem, rfl, -⟩ := Request.mixin?_spec hrefs
          obtain ⟨hgroup, hlong⟩ := mem_filter.mp hmem
          obtain ⟨node, hnode, rfl⟩ := mem_map.mp hgroup
          obtain ⟨key, hkey, hloaded⟩ := hnodes node hnode
          rw [Request.key?_eq] at hkey
          match hclasses : node.classes with
          | [] => simp [hclasses] at hlong
          | [_] => simp [hclasses] at hlong
          | _ :: _ :: _ =>
            rw [hclasses] at hkey
            cases hkey
            exact hloaded
      · intro e he
        rw [← horderly.linked e he]
        refine map_congr_left fun b hb => ?_
        obtain ⟨c, hc⟩ := Option.isSome_iff_exists.mp (hwanted b ((horderly.meant e he).wanted b hb))
        rw [atHand?, hc, Option.some_or]
    refine .inr ⟨horderly.log, fun hbroken => ?_, hsolved⟩
    cases hbroken with
    | empty hnode hclasses =>
      obtain ⟨key, hkey, -⟩ := hnodes _ hnode
      rw [Request.key?_eq, hclasses] at hkey
      cases hkey
    | undeclared hkey hnone =>
      obtain ⟨c, hc⟩ := Option.isSome_iff_exists.mp (hwanted _ hkey)
      rcases horderly.meant _ (mem_of_lookup hc) with ⟨-, hdeclared⟩ | ⟨refs, hrefs, -⟩
      · rw [hnone] at hdeclared
        cases hdeclared
      · rw [hclash.mixin? hkey] at hrefs
        cases hrefs
    | cyclic hkey hcycle =>
      obtain ⟨lower, upper, hlower, hupper, m, hm, hpart⟩ := hsolved.part_of_inherits hclash hcycle hkey
      obtain rfl : lower = upper := Option.some.inj (hlower.symm.trans hupper)
      exact Module.not_part_of_base hm hpart

end LoadTask

end ShaderCompose
