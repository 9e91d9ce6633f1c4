import ShaderCompose.Proofs.Library.Eviction

/-!
Which classes eviction takes: heirs of the given names, and theirs.
-/

namespace ShaderCompose.Library

open List

/-- The names that some names take with them. -/
inductive Evicted (cache : Cache) (names : List String) : String → Prop
  | named {name : String} : name ∈ names → Evicted cache names name
  | inherits {e : ModuleKey × LoadedClass} {b : ModuleKey} : e ∈ cache → b ∈ e.2.baseKeys →
      Evicted cache names b.name → Evicted cache names e.1.name

inductive Rounds : List String → Cache → List String → Cache → Prop
  | done {names : List String} {cache : Cache} : cache.filter (isObsolete names) = [] → Rounds names cache names cache
  | round {names names' : List String} {cache cache' : Cache} : cache.filter (isObsolete names) ≠ [] →
      Rounds (names ++ (cache.filter (isObsolete names)).map fun e => e.1.name)
        (cache.filter fun e => !isObsolete names e) names' cache' →
      Rounds names cache names' cache'

theorem isObsolete_iff {names : List String} {e : ModuleKey × LoadedClass} :
    isObsolete names e = true ↔ e.1.name ∈ names ∨ ∃ b ∈ e.2.baseKeys, b.name ∈ names := by
  simp [isObsolete]

namespace Rounds

variable {names names' : List String} {cache cache' : Cache}

theorem unique (h : Rounds names cache names' cache') {names'' : List String} {cache'' : Cache}
    (h' : Rounds names cache names'' cache'') : names'' = names' ∧ cache'' = cache' := by
  induction h with
  | done hempty =>
    cases h' with
    | done _ => exact ⟨rfl, rfl⟩
    | round hne _ => exact absurd hempty hne
  | round hne _ ih =>
    cases h' with
    | done hempty => exact absurd hempty hne
    | round _ h' => exact ih h'

theorem evicted (h : Rounds names cache names' cache') {all : Cache} {given : List String}
    (hcache : cache ⊆ all) (hnames : ∀ name ∈ names, Evicted all given name) :
    ∀ name ∈ names', Evicted all given name := by
  induction h with
  | done _ => exact hnames
  | @round names _ cache _ _ _ ih =>
    refine ih (fun e he => hcache (mem_filter.mp he).1) (forall_mem_append.mpr ⟨hnames, ?_⟩)
    intro name hname
    obtain ⟨e, he, rfl⟩ := mem_map.mp hname
    obtain ⟨he, hobsolete⟩ := mem_filter.mp he
    rcases isObsolete_iff.mp hobsolete with hown | ⟨b, hb, hbase⟩
    · exact hnames _ hown
    · exact .inherits (hcache he) hb (hnames _ hbase)

end Rounds

theorem dropObsolete_rounds {fuel : Nat} (names : List String) {cache : Cache} (enough : cache.length ≤ fuel) :
    Rounds names cache (dropObsolete fuel names cache).1 (dropObsolete fuel names cache).2 := by
  induction fuel generalizing names cache with
  | zero =>
    obtain rfl : cache = [] := length_eq_zero_iff.mp (Nat.le_zero.mp enough)
    exact .done rfl
  | succ fuel ih =>
    rw [dropObsolete]
    by_cases hempty : cache.filter (isObsolete names) = []
    · rw [if_pos (List.isEmpty_iff.mpr hempty)]
      exact .done hempty
    · rw [if_neg fun h => hempty (List.isEmpty_iff.mp h)]
      refine .round hempty (ih _ ?_)
      have hsplit := length_eq_length_filter_add (isObsolete names) (l := cache)
      have hdropped : 0 < (cache.filter (isObsolete names)).length := length_pos_iff.mpr hempty
      omega

theorem mem_dropObsolete {fuel : Nat} {names : List String} {cache : Cache}
    (enough : cache.length ≤ fuel) {name : String} :
    name ∈ (dropObsolete fuel names cache).1 ↔ Evicted cache names name := by
  obtain ⟨hnames, -, hclosed⟩ := dropObsolete_spec names enough
  constructor
  · exact (dropObsolete_rounds names enough).evicted (fun _ he => he) (fun _ => .named) name
  · intro h
    induction h with
    | named hname => exact hnames hname
    | inherits he hb _ ih => exact hclosed _ he (isObsolete_iff.mpr (.inr ⟨_, hb, ih⟩))

section

variable {l : Library} {names : List String}

theorem mem_evicted_names {name : String} :
    name ∈ (dropObsolete l.cache.length names l.cache).1 ↔ Evicted l.cache names name :=
  mem_dropObsolete (Nat.le_refl _)

theorem mem_evict_cache_iff {e : ModuleKey × LoadedClass} :
    e ∈ (l.evict names).cache ↔ e ∈ l.cache ∧ ¬ (Evicted l.cache names e.1.name ∨
      ∃ b ∈ e.2.baseKeys, Evicted l.cache names b.name) := by
  obtain ⟨-, hcache, -⟩ := dropObsolete_spec names (Nat.le_refl l.cache.length)
  change e ∈ (dropObsolete l.cache.length names l.cache).2 ↔ _
  rw [hcache, mem_filter, Bool.not_eq_true', ← Bool.not_eq_true, isObsolete_iff]
  simp only [mem_evicted_names]

theorem lookup_evict_read {name : String} {file : SourceFile} : (l.evict names).store.read.lookup name = some file ↔
      l.store.read.lookup name = some file ∧ ¬ Evicted l.cache names name := by
  rw [← mem_evicted_names]
  change (l.store.read.filter fun p => !(dropObsolete l.cache.length names l.cache).1.contains
    p.1).lookup name = some file ↔ _
  by_cases hname : name ∈ (dropObsolete l.cache.length names l.cache).1
  · refine ⟨fun h => ?_, fun h => absurd hname h.2⟩
    have hp := (mem_filter.mp (mem_of_lookup h)).2
    simp [hname] at hp
  · rw [lookup_filter_of_true fun _ _ => by simpa using hname]
    exact (and_iff_left hname).symm

end

/-- Eviction removes exactly what the given names take with them, and their texts. -/
theorem evict_exact (l : Library) (names : List String) :
    (∃ evicted, (∀ names' cache', Rounds names l.cache names' cache' ↔
        names' = evicted ∧ cache' = (l.evict names).cache) ∧
      ∀ name, name ∈ evicted ↔ Evicted l.cache names name) ∧
    (l.evict names).cache.Sublist l.cache ∧
    (∀ e, e ∈ (l.evict names).cache ↔ e ∈ l.cache ∧ ¬ Evicted l.cache names e.1.name) ∧
    (∀ e ∈ (l.evict names).cache, ∀ b ∈ e.2.baseKeys, ¬ Evicted l.cache names b.name) ∧
    (∀ name file, (l.evict names).store.read.lookup name = some file ↔
      l.store.read.lookup name = some file ∧ ¬ Evicted l.cache names name) ∧
    (l.evict names).store = { l.store with read := (l.evict names).store.read } ∧
    (l.evict names).next = l.next := by
  have hrounds := dropObsolete_rounds names (Nat.le_refl l.cache.length)
  refine ⟨⟨_, fun names' cache' => ⟨hrounds.unique, ?_⟩, fun _ => mem_evicted_names⟩, ?_, fun e => ?_,
    fun e he b hb hevicted => ?_, fun _ _ => lookup_evict_read, rfl, rfl⟩
  · rintro ⟨rfl, rfl⟩
    exact hrounds
  · obtain ⟨dropped, -, hcache, -⟩ := l.evict_cache names
    rw [hcache]
    exact List.filter_sublist
  · rw [mem_evict_cache_iff]
    refine and_congr_right fun he => not_congr ⟨?_, Or.inl⟩
    rintro (hname | ⟨b, hb, hbase⟩)
    · exact hname
    · exact .inherits he hb hbase
  · exact (mem_evict_cache_iff.mp he).2 (Or.inr ⟨b, hb, hevicted⟩)

end ShaderCompose.Library
