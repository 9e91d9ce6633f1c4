import ShaderCompose.Proofs.Library.Closed
import ShaderCompose.Proofs.Library.Faithful

/-!
What a request means, whatever was loaded before.
-/

namespace ShaderCompose

open List Loading Relation

namespace Request

def mixinsOf (nodes : List Request) : List (List ClassRef) :=
  (nodes.map classes).filter fun refs => decide (1 < refs.length)

theorem mixinsOf_append (nodes more : List Request) : mixinsOf (nodes ++ more) = mixinsOf nodes ++ mixinsOf more := by
  rw [mixinsOf, map_append, filter_append]
  rfl

def mixins (r : Request) : List (List ClassRef) := mixinsOf r.nodes

def mixin? (r : Request) (macros : List MacroDef) (key : ModuleKey) : Option (List ClassRef) :=
  r.mixins.find? fun refs => mixinKey refs macros == key

def Needs (r : Request) (macros : List MacroDef) (c : ClassRef) : Prop :=
  ∃ node ∈ r.nodes, c ∈ node.classes ∧
    (1 < node.classes.length → r.mixin? macros (mixinKey node.classes macros) = some node.classes)

theorem mixin?_spec {r : Request} {macros : List MacroDef} {key : ModuleKey} {refs : List ClassRef}
    (h : r.mixin? macros key = some refs) :
    refs ∈ r.mixins ∧ mixinKey refs macros = key ∧ ∀ c ∈ refs, r.Needs macros c := by
  have hmem := mem_of_find?_eq_some h
  have hkey : mixinKey refs macros = key := by simpa using find?_some h
  obtain ⟨hrefs, -⟩ := mem_filter.mp hmem
  obtain ⟨node, hnode, rfl⟩ := mem_map.mp hrefs
  exact ⟨hmem, hkey, fun c hc => ⟨node, hnode, hc, fun _ => hkey ▸ h⟩⟩

end Request

structure LoadTask where
  store : SourceStore
  fill : Bool
  macros : List MacroDef
  request : Request

namespace LoadTask

def plan (t : LoadTask) : LoadPlan := .quiet t.macros t.fill

def declared? (t : LoadTask) (key : ModuleKey) : Option LoadedClass := t.store.declared? t.fill key

/-- The keys that are reached from the named classes. -/
inductive Reaches (t : LoadTask) (named : ClassRef → Prop) : ModuleKey → Prop
  | named {c : ClassRef} : named c → Reaches t named (c.key t.macros)
  | dependency {key k : ModuleKey} {c : LoadedClass} :
      Reaches t named key → t.declared? key = some c → k ∈ c.dependencies → Reaches t named k

def Wanted (t : LoadTask) : ModuleKey → Prop := t.Reaches (t.request.Needs t.macros)

def NoClash (t : LoadTask) : Prop :=
  ∀ refs ∈ t.request.mixins, ¬ t.Reaches (· ∈ t.request.references) (mixinKey refs t.macros)

def Inherits (t : LoadTask) (b key : ModuleKey) : Prop :=
  ∃ c, t.declared? key = some c ∧ b ∈ c.baseKeys

/-- Something is wrong with the classes of a request. -/
inductive Broken (t : LoadTask) : Prop
  | empty {node : Request} : node ∈ t.request.nodes → node.classes = [] → Broken t
  | undeclared {key : ModuleKey} : t.Wanted key → t.declared? key = none → Broken t
  | cyclic {key : ModuleKey} : t.Wanted key → TransGen t.Inherits key key → Broken t

def Meant (t : LoadTask) (key : ModuleKey) (c : LoadedClass) : Prop :=
  (t.Wanted key ∧ t.declared? key = some c.bare) ∨
    ∃ refs, t.request.mixin? t.macros key = some refs ∧ c.bare = madeMixin t.macros refs [] 0

variable {t : LoadTask} {key : ModuleKey} {c : LoadedClass}

theorem Reaches.mono {named more : ClassRef → Prop} (h : ∀ c, named c → more c)
    (hkey : t.Reaches named key) : t.Reaches more key := by
  induction hkey with
  | named hc => exact .named (h _ hc)
  | dependency _ hc hk ih => exact .dependency ih hc hk

theorem NoClash.of_closed (keys : List ModuleKey) (hnamed : ∀ c ∈ t.request.references, c.key t.macros ∈ keys)
    (hclosed : ∀ key ∈ keys, ∀ c ∈ t.declared? key, ∀ k ∈ c.dependencies, k ∈ keys)
    (hmixins : ∀ refs ∈ t.request.mixins, mixinKey refs t.macros ∉ keys) : t.NoClash := by
  have hreach : ∀ key, t.Reaches (· ∈ t.request.references) key → key ∈ keys := by
    intro key h
    induction h with
    | named hc => exact hnamed _ hc
    | dependency _ hc hk ih => exact hclosed _ ih _ hc _ hk
  exact fun refs hrefs h => hmixins refs hrefs (hreach _ h)

theorem declared?_spec (h : t.declared? key = some c) :
    ∃ read, c = madeClass (.quiet key.macros t.fill) key read [] 0 := by
  obtain ⟨read, -, rfl⟩ := Option.map_eq_some_iff.mp h
  exact ⟨read, rfl⟩

theorem Wanted.macros (h : t.Wanted key) : key.macros = t.macros := by
  induction h with
  | named _ => rfl
  | dependency _ hc hk ih =>
    obtain ⟨read, rfl⟩ := declared?_spec hc
    obtain ⟨c, -, rfl⟩ := mem_references_of_key hk
    exact ih

theorem Meant.wanted (h : t.Meant key c) : ∀ b ∈ c.baseKeys, t.Wanted b := by
  intro b hb
  rcases h with ⟨hkey, hc⟩ | ⟨refs, hrefs, hc⟩
  · exact hkey.dependency hc (mem_append_left _ hb)
  · have hkeys : c.baseKeys = refs.map fun r => r.key t.macros := congrArg LoadedClass.baseKeys hc
    rw [hkeys] at hb
    obtain ⟨r, hr, rfl⟩ := mem_map.mp hb
    exact .named ((Request.mixin?_spec hrefs).2.2 r hr)

end LoadTask

/-! ## In the middle of a load -/

theorem classOfFile_errors (plan : LoadPlan) (store : SourceStore) (key : ModuleKey)
    (found : Except PreprocessError SourceFile) :
    ∀ d ∈ (classOfFile plan store key found).2.1, d.severity = .error := by
  have one : ∀ e : Diagnostic, e.severity = .error → ∀ d ∈ [e], d.severity = .error := by
    intro e he d hd
    rwa [mem_singleton.mp hd]
  unfold classOfFile
  split
  · exact one _ rfl
  · exact one _ rfl
  · next file =>
    split
    · exact one _ rfl
    · next text _ =>
      have hsource : ∀ d ∈ (Reader.source text file.fileName).2, d.severity = .error :=
        fun d hd => Reader.source_log hd
      unfold classOfText
      generalize Reader.source text file.fileName = source at hsource
      obtain ⟨classes, log⟩ := source
      dsimp only
      split
      · exact hsource
      · split
        · split
          · exact forall_mem_append.mpr ⟨hsource, one _ rfl⟩
          · split
            · exact hsource
            · exact forall_mem_append.mpr ⟨hsource, one _ rfl⟩
        · exact forall_mem_append.mpr ⟨hsource, one _ rfl⟩

theorem classOfFile_log {plan : LoadPlan} {store : SourceStore} {key : ModuleKey}
    {found : Except PreprocessError SourceFile} {read : ReadClass}
    (h : (classOfFile plan store key found).1 = some read) :
    (classOfFile plan store key found).2.1 = [] := by
  have hfine := classOfFile_spec plan store key found
  rw [h] at hfine
  refine eq_nil_iff_forall_not_mem.mpr fun d hd => ?_
  simpa [classOfFile_errors plan store key found d hd] using any_eq_false.mp hfine d hd

namespace Loading

def atHand? (s : Loading) (key : ModuleKey) : Option LoadedClass :=
  (s.loaded.lookup key).or (s.library.cached? key)

def Linked (s : Loading) (c : LoadedClass) : Prop :=
  c.baseKeys.map (fun b => (s.atHand? b).map LoadedClass.module) = c.module.bases.map some

variable {s s' : Loading} {c : LoadedClass}

theorem Linked.isSome (h : s.Linked c) {b : ModuleKey} (hb : b ∈ c.baseKeys) : (s.atHand? b).isSome = true := by
  have hmem : (s.atHand? b).map LoadedClass.module ∈ c.module.bases.map some := h ▸ mem_map_of_mem hb
  obtain ⟨m, -, hm⟩ := mem_map.mp hmem
  rw [← Option.isSome_map (f := LoadedClass.module), ← hm, Option.isSome_some]

theorem Linked.of_loaded {bases : List LoadedClass} (hmodule : c.module.bases = bases.map LoadedClass.module)
    (h : List.Forall₂ (fun k d => s.loaded.lookup k = some d) c.baseKeys bases) : s.Linked c := by
  unfold Linked
  rw [hmodule]
  clear hmodule
  generalize c.baseKeys = keys at h
  induction h with
  | nil => rfl
  | @cons k d _ _ hk _ ih =>
    have hhand : s.atHand? k = some d := by rw [atHand?, hk, Option.some_or]
    simp only [map_cons, hhand, Option.map_some, ih]

end Loading

namespace LoadTask

/-- Everything at hand has its meaning. -/
structure Orderly (t : LoadTask) (s : Loading) : Prop where
  log : s.log = []
  waiting : ∀ k ∈ s.waiting, t.Wanted k
  meant : ∀ e ∈ s.loaded, t.Meant e.1 e.2
  linked : ∀ e ∈ s.loaded, s.Linked e.2
  agree : ∀ key c kept, t.Wanted key → s.loaded.lookup key = some c → s.library.cached? key = some kept → c = kept

def Spoiled (t : LoadTask) (s : Loading) : Prop :=
  s.exhausted = true ∨ s.log.hasErrors = true ∧ t.Broken

variable {t : LoadTask} {s s' : Loading} {key : ModuleKey} {c : LoadedClass}

theorem Spoiled.mono (h : t.Spoiled s) (hexhausted : s.exhausted = true → s'.exhausted = true)
    (herrors : s.log.hasErrors = true → s'.log.hasErrors = true) : t.Spoiled s' :=
  h.imp hexhausted fun h => ⟨herrors h.1, h.2⟩

theorem Spoiled.extends {path : List ModuleKey} (h : t.Spoiled s) (hs : Extends path s s') : t.Spoiled s' :=
  h.mono hs.exhausted hs.errors

namespace Orderly

theorem step (h : t.Orderly s) (hlog : s'.log = s.log) (hwaiting : ∀ k ∈ s'.waiting, t.Wanted k)
    (hloaded : s'.loaded = setKey key c s.loaded) (hmeant : t.Meant key c)
    (hsame : ∀ b, t.Wanted b → (s.atHand? b).isSome = true → s'.atHand? b = s.atHand? b)
    (hlinked : s'.Linked c)
    (hagree : ∀ key c kept, t.Wanted key → s'.loaded.lookup key = some c →
      s'.library.cached? key = some kept → c = kept) : t.Orderly s' where
  log := hlog.trans h.log
  waiting := hwaiting
  meant e he := by
    rw [hloaded] at he
    exact forall_mem_setKey hmeant h.meant e he
  linked e he := by
    rw [hloaded] at he
    rcases mem_setKey he with rfl | he
    · exact hlinked
    · have hbases := h.linked e he
      rw [Linked, ← hbases]
      refine map_congr_left fun b hb => ?_
      rw [hsame b ((h.meant e he).wanted b hb) (hbases.isSome hb)]
  agree := hagree

theorem take (h : t.Orderly s) (hgrounded : s.library.Grounded)
    (hfaithful : s.FaithfulTo t.store t.fill) (hkey : t.Wanted key)
    (fresh : s.loaded.lookup key = none) (hc : s.library.cached? key = some c) :
    t.Orderly ((s.await c.dependencies).add key c) := by
  have hdeclared : t.declared? key = some c.bare := hfaithful.cached hc
  have hsame : ∀ b, ((s.await c.dependencies).add key c).atHand? b = s.atHand? b := by
    intro b
    rw [atHand?, atHand?, Loading.add, lookup_setKey]
    split
    · next heq =>
      rw [heq, fresh]
      exact hc.symm
    · rfl
  have hmeant : t.Meant key c := .inl ⟨hkey, hdeclared⟩
  refine h.step rfl ?_ rfl hmeant (fun b _ _ => hsame b) ?_ ?_
  · intro k hk
    rcases mem_append.mp hk with hk | hk
    · exact hkey.dependency hdeclared (mem_reverse.mp hk)
    · exact h.waiting k hk
  · rw [Linked, ← hgrounded.bases _ (mem_of_lookup hc)]
    refine map_congr_left fun b hb => ?_
    rw [hsame, atHand?]
    have hmem : (s.library.cached? b).map LoadedClass.module ∈ c.module.bases.map some :=
      hgrounded.bases _ (mem_of_lookup hc) ▸ mem_map_of_mem hb
    obtain ⟨m, -, hm⟩ := mem_map.mp hmem
    obtain ⟨kept, hkept, -⟩ := Option.map_eq_some_iff.mp hm.symm
    cases hb' : s.loaded.lookup b with
    | none => rfl
    | some d => rw [h.agree b d kept (hmeant.wanted b hb) hb' hkept, hkept, Option.some_or]
  · intro k d kept hk hd hkept
    rw [Loading.add, lookup_setKey] at hd
    split at hd
    · next heq =>
      subst heq
      exact Option.some.inj (hd.symm.trans (hc.symm.trans hkept))
    · exact h.agree k d kept hk hd hkept

theorem finish (h : t.Orderly s) {read : ReadClass} {bases : List LoadedClass}
    (hkey : t.Wanted key) (hread : t.declared? key = some (madeClass t.plan key read [] 0))
    (fresh : s.loaded.lookup key = none) (unkept : s.library.cached? key = none)
    (hbases : List.Forall₂ (fun k c => s.loaded.lookup k = some c) (baseKeysOf read.cls t.macros) bases) :
    t.Orderly (finishClass t.plan key read bases s).2 := by
  set made := madeClass t.plan key read bases s.library.next with hmade
  set s' := (finishClass t.plan key read bases s).2 with hs'
  obtain ⟨hlog, hwaiting, hloaded, hcached⟩ : s'.log = s.log ∧
      s'.waiting = made.slotKeys.reverse ++ s.waiting ∧ s'.loaded = setKey key made s.loaded ∧
      ∀ k, s'.library.cached? k = s.library.cached? k ∨
        k = key ∧ s'.library.cached? k = some made := by
    rcases finishClass_cases t.plan read bases unkept hmade.symm with heq | ⟨-, heq⟩
    · rw [hs', heq]
      exact ⟨rfl, rfl, rfl, fun _ => .inl rfl⟩
    · rw [hs', heq]
      refine ⟨rfl, rfl, rfl, fun k => ?_⟩
      by_cases hk : k = key
      · exact .inr ⟨hk, by simp [Loading.keep, Loading.add, Library.cached?, hk]⟩
      · exact .inl (by simp [Loading.keep, Loading.add, Library.cached?, hk, takeNumber, Loading.await])
  have hmeant : t.Meant key made := .inl ⟨hkey, hread⟩
  have hsame : ∀ b, (s.atHand? b).isSome = true → s'.atHand? b = s.atHand? b := by
    intro b hb
    have hne : b ≠ key := by
      rintro rfl
      simp [atHand?, fresh, unkept] at hb
    rw [atHand?, atHand?, hloaded, lookup_setKey, if_neg hne, (hcached b).resolve_right fun hk => hne hk.1]
  have hlinked : s.Linked made := .of_loaded rfl hbases
  refine h.step hlog ?_ hloaded hmeant (fun b _ => hsame b) ?_ ?_
  · intro k hk
    rw [hwaiting] at hk
    rcases mem_append.mp hk with hk | hk
    · exact hkey.dependency hread (mem_append_right _ (mem_reverse.mp hk))
    · exact h.waiting k hk
  · rw [Linked, ← hlinked]
    exact map_congr_left fun b hb => by rw [hsame b (hlinked.isSome hb)]
  · intro k d kept hk hd hkept
    rw [hloaded, lookup_setKey] at hd
    split at hd
    · next heq =>
      subst heq
      rcases hcached k with hold | ⟨-, hnew⟩
      · rw [hold, unkept] at hkept
        cases hkept
      · exact Option.some.inj (hd.symm.trans (hnew.symm.trans hkept))
    · next hne =>
      rw [(hcached k).resolve_right fun h => hne h.1] at hkept
      exact h.agree k d kept hk hd hkept

theorem same_classes (h : t.Orderly s) (hlog : s'.log = s.log) (hwaiting : s'.waiting ⊆ s.waiting)
    (hloaded : s'.loaded = s.loaded) (hcache : s'.library.cache = s.library.cache) :
    t.Orderly s' := by
  have hcached : s'.library.cached? = s.library.cached? := by
    funext k
    rw [Library.cached?, Library.cached?, hcache]
  have hhand : s'.atHand? = s.atHand? := by
    funext k
    rw [atHand?, atHand?, hloaded, hcached]
  refine ⟨hlog.trans h.log, fun k hk => h.waiting k (hwaiting hk), hloaded ▸ h.meant, ?_, ?_⟩
  · intro e he
    rw [Linked, hhand]
    exact h.linked e (hloaded ▸ he)
  · rw [hloaded, hcached]
    exact h.agree

theorem mixin (h : t.Orderly s) (hclash : ∀ k, t.Wanted k → t.request.mixin? t.macros k = none)
    {refs : List ClassRef} {bases : List LoadedClass}
    (hrefs : t.request.mixin? t.macros (mixinKey refs t.macros) = some refs)
    (hbases : List.Forall₂ (fun k c => s.loaded.lookup k = some c) (refs.map fun r => r.key t.macros) bases) :
    t.Orderly (s.takeNumber.add (mixinKey refs t.macros)
      (madeMixin t.macros refs bases s.library.next)) := by
  set made := madeMixin t.macros refs bases s.library.next
  have hne : ∀ k, t.Wanted k → k ≠ mixinKey refs t.macros := by
    rintro k hk rfl
    rw [hclash _ hk] at hrefs
    cases hrefs
  have hmeant : t.Meant (mixinKey refs t.macros) made := .inr ⟨refs, hrefs, rfl⟩
  have hsame : ∀ b, t.Wanted b → (s.takeNumber.add (mixinKey refs t.macros) made).atHand? b = s.atHand? b := by
    intro b hb
    rw [atHand?, Loading.add, lookup_setKey, if_neg (hne b hb)]
    rfl
  have hlinked : s.Linked made := .of_loaded rfl hbases
  refine h.step rfl h.waiting rfl hmeant (fun b hb _ => hsame b hb) ?_ ?_
  · rw [Linked, ← hlinked]
    exact map_congr_left fun b hb => by rw [hsame b (hmeant.wanted b hb)]
  · intro k d kept hk hd hkept
    rw [Loading.add, lookup_setKey, if_neg (hne k hk)] at hd
    exact h.agree k d kept hk hd hkept

end Orderly

end LoadTask

end ShaderCompose
