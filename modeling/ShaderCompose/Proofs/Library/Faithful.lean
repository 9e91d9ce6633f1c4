import ShaderCompose.Proofs.Library.CachedBases
import ShaderCompose.Proofs.Source.Store

/-!
Libraries that are true to their sources.
-/

namespace ShaderCompose

open List Loading

def LoadPlan.quiet (macros : List MacroDef) (fill : Bool) : LoadPlan := ⟨macros, fill, fun _ _ => []⟩

def LoadedClass.bare (c : LoadedClass) : LoadedClass :=
  { c with module := { c.module with id := 0, bases := [] } }

namespace SourceStore

def declared? (s : SourceStore) (fill : Bool) (key : ModuleKey) : Option LoadedClass :=
  (classOfFile (.quiet key.macros fill) s key (s.fetch key.name)).1.map fun read =>
    madeClass (.quiet key.macros fill) key read [] 0

theorem sourceDigest_of_declared {s : SourceStore} {fill : Bool} {key : ModuleKey} {c : LoadedClass}
    (h : s.declared? fill key = some c) :
    ∃ file, s.fetch key.name = .ok file ∧ c.sourceDigest = file.digest := by
  obtain ⟨read, hread, rfl⟩ := Option.map_eq_some_iff.mp h
  obtain ⟨file, text, hfile, -, hclass⟩ := classOfFile_eq_some hread
  obtain ⟨-, -, -, -, hsame⟩ := classOfText_eq_some hclass
  exact ⟨file, hfile, congrArg SourceFile.digest hsame⟩

structure SameExcept (names : List String) (s t : SourceStore) : Prop where
  files : t.files = s.files
  lookup : t.lookup = s.lookup
  fetch : ∀ name, name ∉ names → t.fetch name = s.fetch name

theorem SameExcept.refl (s : SourceStore) : SameExcept [] s s := ⟨rfl, rfl, fun _ _ => rfl⟩

theorem SameExcept.setText (s : SourceStore) (name text : String) : SameExcept [name] s (s.setText name text) where
  files := rfl
  lookup := rfl
  fetch other hother := by
    have hne : other ≠ name := fun h => hother (h ▸ mem_singleton_self _)
    unfold SourceStore.fetch
    rw [show (s.setText name text).inMemory = setKey name text s.inMemory from rfl, lookup_setKey, if_neg hne]
    rfl

theorem SameExcept.classOfFile {names : List String} {s t : SourceStore} (h : SameExcept names s t)
    (plan : LoadPlan) (key : ModuleKey) (file : Except PreprocessError SourceFile) :
    classOfFile plan t key file = classOfFile plan s key file := by
  unfold ShaderCompose.classOfFile preprocessedText
  rw [h.files, h.lookup]

theorem SameExcept.declared? {names : List String} {s t : SourceStore} (h : SameExcept names s t)
    (fill : Bool) {key : ModuleKey} (hkey : key.name ∉ names) :
    t.declared? fill key = s.declared? fill key := by
  rw [SourceStore.declared?, SourceStore.declared?, h.fetch key.name hkey, h.classOfFile]

end SourceStore

/-- What is kept is what the sources say, stale classes aside. -/
structure Library.Faithful (fill : Bool) (stale : List String) (l : Library) : Prop where
  cache : ∀ e ∈ l.cache, e.1.name ∉ stale → l.store.declared? fill e.1 = some e.2.bare
  texts : ∀ name file, l.store.read.lookup name = some file → name ∉ stale → l.store.fetch name = .ok file

namespace Library.Faithful

variable {fill : Bool} {stale : List String} {l : Library}

theorem empty (hcache : l.cache = []) (hread : l.store.read = []) : l.Faithful fill [] where
  cache := by simp [hcache]
  texts := by simp [hread]

theorem edit (h : l.Faithful fill stale) {names : List String} {store : SourceStore}
    (hsame : l.store.SameExcept names store) :
    ({ l with store := { store with read := l.store.read } } : Library).Faithful fill
      (names ++ stale) where
  cache e he hname := by
    rw [mem_append, not_or] at hname
    rw [← h.cache e he hname.2, ← hsame.declared? fill hname.1]
    rfl
  texts name file hfile hname := by
    rw [mem_append, not_or] at hname
    rw [← h.texts name file hfile hname.2, ← hsame.fetch name hname.1]
    rfl

theorem evict (h : l.Faithful fill stale) (names : List String) :
    (l.evict names).Faithful fill (stale.filter fun name => !names.contains name) := by
  obtain ⟨dropped, hnames, hcache, hstore, -⟩ := l.evict_cache names
  -- what is not dropped was stale only if it still is
  have hstale : ∀ name, name ∉ dropped → name ∉ stale.filter (fun name => !names.contains name) → name ∉ stale := by
    intro name hdropped hkept hmem
    refine hkept (mem_filter.mpr ⟨hmem, ?_⟩)
    simpa using fun hname => hdropped (hnames hname)
  refine ⟨fun e he hname => ?_, fun name file hfile hname => ?_⟩
  · rw [hcache, mem_filter] at he
    have hkept : e.1.name ∉ dropped := by
      intro hdropped
      simp [isObsolete, hdropped] at he
    rw [← h.cache e he.1 (hstale _ hkept hname)]
    rfl
  · rw [hstore] at hfile ⊢
    have hmem := (mem_filter.mp (mem_of_lookup hfile)).2
    have hkept : name ∉ dropped := by simpa using hmem
    refine h.texts name file ?_ (hstale name hkept hname)
    rw [← hfile]
    exact (lookup_filter_of_true fun _ _ => by simpa using hkept).symm

theorem load (h : l.Faithful fill []) (name : String) : (l.store.load name).1 = l.store.fetch name ∧
      ({ l with store := (l.store.load name).2 } : Library).Faithful fill [] := by
  unfold SourceStore.load
  split
  · next file hfile => exact ⟨(h.texts name file hfile not_mem_nil).symm, h⟩
  · split
    · next file hfetch =>
      refine ⟨hfetch.symm, fun e he hname => h.cache e he hname, fun other found hfound hother => ?_⟩
      rw [lookup_setKey] at hfound
      split at hfound
      · next heq =>
        cases hfound
        rw [heq]
        exact hfetch
      · exact h.texts other found hfound hother
    · next hfetch => exact ⟨hfetch.symm, h⟩

end Library.Faithful

/-! ## What a load keeps -/

structure Loading.FaithfulTo (store : SourceStore) (fill : Bool) (s : Loading) : Prop where
  sources : store.SameExcept [] s.library.store
  library : s.library.Faithful fill []

theorem read_quiet_library (s : Loading) (macros : List MacroDef) (fill : Bool) (key : ModuleKey) :
    (s.read (.quiet macros fill) key).2.library =
      { s.library with store := (s.library.store.load key.name).2 } := by
  rw [Loading.read, readClass]
  dsimp only
  cases (classOfFile (.quiet macros fill) (s.library.store.load key.name).2 key
    (s.library.store.load key.name).1).2.2 with
  | none => rfl
  | some text => rfl

namespace Loading.FaithfulTo

variable {store : SourceStore} {fill : Bool} {s : Loading} {plan : LoadPlan}

theorem evict_all (h : s.FaithfulTo store fill) (batches : List (List String)) :
    ({ s with library := batches.foldl Library.evict s.library } : Loading).FaithfulTo store fill := by
  induction batches generalizing s with
  | nil => exact h
  | cons names batches ih =>
    refine @ih { s with library := s.library.evict names } ⟨?_, h.library.evict names⟩
    exact ⟨h.sources.files, h.sources.lookup, h.sources.fetch⟩

theorem read (h : s.FaithfulTo store plan.fill) {key : ModuleKey} (hkey : key.macros = plan.macros) :
    (s.read plan key).2.FaithfulTo store plan.fill ∧ store.declared? plan.fill key =
        (s.read plan key).1.map fun read => madeClass plan key read [] 0 := by
  obtain ⟨hload, hfaithful⟩ := h.library.load key.name
  have hstore : store.SameExcept [] (s.library.store.load key.name).2 := by
    unfold SourceStore.load
    split
    · exact h.sources
    · split
      · exact ⟨h.sources.files, h.sources.lookup, h.sources.fetch⟩
      · exact h.sources
  obtain ⟨batches, hlibrary⟩ := read_library plan key s
  have hbefore : ({ s with library := { s.library with store := (s.library.store.load key.name).2 } } :
      Loading).FaithfulTo store plan.fill := ⟨hstore, hfaithful⟩
  have hafter := hbefore.evict_all batches
  refine ⟨⟨hlibrary ▸ hafter.sources, hlibrary ▸ hafter.library⟩, ?_⟩
  rw [read_fst, hload, hstore.classOfFile, h.sources.fetch _ not_mem_nil, SourceStore.declared?, hkey]
  rfl

theorem cached (h : s.FaithfulTo store fill) {key : ModuleKey} {c : LoadedClass}
    (hc : s.library.cached? key = some c) : store.declared? fill key = some c.bare := by
  rw [← h.sources.declared? fill not_mem_nil]
  exact h.library.cache _ (mem_of_lookup hc) not_mem_nil

theorem finish (h : s.FaithfulTo store fill) {key : ModuleKey}
    {read : ReadClass} {bases : List LoadedClass} (unkept : s.library.cached? key = none)
    (hread : store.declared? fill key = some (madeClass plan key read [] 0)) :
    (finishClass plan key read bases s).2.FaithfulTo store fill := by
  rcases finishClass_cases plan read bases unkept rfl with heq | ⟨-, heq⟩
  · rw [heq]
    exact ⟨h.sources, h.library.cache, h.library.texts⟩
  · rw [heq]
    refine ⟨h.sources, fun e he hname => ?_, h.library.texts⟩
    rcases mem_setKey he with rfl | he
    · exact (h.sources.declared? fill not_mem_nil).trans hread
    · exact h.library.cache e he hname

end Loading.FaithfulTo

theorem faithful_invariant (plan : LoadPlan) (bound : Nat) (store : SourceStore) :
    RequestInvariant plan bound (fun key => key.macros = plan.macros)
      (fun key read => store.declared? plan.fill key = some (madeClass plan key read [] 0))
      (Loading.FaithfulTo store plan.fill) where
  cyclic _ _ _ _ h := ⟨h.sources, h.library⟩
  empty _ h := ⟨h.sources, h.library⟩
  giveUp _ _ _ _ _ h := ⟨h.sources, h.library⟩
  fail _ _ _ _ _ h := ⟨h.sources, h.library⟩
  await _ _ _ h := ⟨h.sources, h.library⟩
  take _ _ _ _ _ _ h := ⟨h.sources, h.library⟩
  read s key hkey _ _ h := by
    obtain ⟨hnext, hdeclared⟩ := h.read hkey
    refine ⟨hnext, fun read hread => ?_⟩
    rw [hdeclared, hread, Option.map_some]
  base _ _ _ b hb := by
    obtain ⟨_, -, rfl⟩ := mem_map.mp hb
    rfl
  finish _ _ _ _ _ hread _ unkept _ h := h.finish unkept hread
  mixin _ _ _ _ _ h := ⟨h.sources, h.library.cache, h.library.texts⟩

theorem Library.Faithful.loadBy {plan : LoadPlan} {l : Library} (h : l.Faithful plan.fill [])
    (hgrounded : l.Grounded) (hnumbered : Module.Numbered l.next l.cache.modules) (r : Request) :
    (l.loadBy plan r).FaithfulTo l.store plan.fill := by
  obtain ⟨bound, hbound⟩ := l.exists_loadWithin plan r
  have hstart : ({ library := l } : Loading).Sound [] plan.macros := .start hgrounded (by simpa using hnumbered)
  rw [hbound]
  -- the keys that wait have the definitions of the load, since it is sound
  exact (loadWithin_invariant ((sound_invariant plan bound []).and (faithful_invariant plan bound l.store))
    (fun s hs => hs.1.waiting)
    (fun s rest hrest hs =>
      ⟨{ hs.1 with waiting := fun k hk => hs.1.waiting k (hrest hk) }, hs.2.sources, hs.2.library⟩)
    (fun _ _ => rfl) ⟨hstart, .refl _, h⟩).2

end ShaderCompose
