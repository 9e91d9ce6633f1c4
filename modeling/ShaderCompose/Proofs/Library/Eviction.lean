import ShaderCompose.Library.Basic
import ShaderCompose.Proofs.Pairs

/-!
What eviction leaves.
-/

namespace ShaderCompose.Library

open List

theorem isObsolete_mono {names more : List String} (h : names ⊆ more)
    {e : ModuleKey × LoadedClass} (he : isObsolete names e = true) : isObsolete more e = true := by
  simp only [isObsolete, Bool.or_eq_true, contains_iff_mem, any_eq_true] at he ⊢
  rcases he with he | ⟨b, hb, hn⟩
  · exact .inl (h he)
  · exact .inr ⟨b, hb, h hn⟩

theorem dropObsolete_spec {fuel : Nat} (names : List String) {cache : Cache} (enough : cache.length ≤ fuel) :
    names ⊆ (dropObsolete fuel names cache).1 ∧ (dropObsolete fuel names cache).2 =
        cache.filter (fun e => !isObsolete (dropObsolete fuel names cache).1 e) ∧
      ∀ e ∈ cache, isObsolete (dropObsolete fuel names cache).1 e = true →
        e.1.name ∈ (dropObsolete fuel names cache).1 := by
  induction fuel generalizing names cache with
  | zero =>
    have : cache = [] := length_eq_zero_iff.mp (Nat.le_zero.mp enough)
    subst this
    exact ⟨fun _ h => h, rfl, fun e he => absurd he not_mem_nil⟩
  | succ fuel ih =>
    rw [dropObsolete]
    by_cases hempty : (cache.filter (isObsolete names)).isEmpty = true
    · rw [if_pos hempty]
      have none : ∀ e ∈ cache, ¬isObsolete names e = true := filter_eq_nil_iff.mp (List.isEmpty_iff.mp hempty)
      refine ⟨fun _ h => h, ?_, fun e he ho => absurd ho (none e he)⟩
      refine (filter_eq_self.mpr fun e he => ?_).symm
      simpa using none e he
    · rw [if_neg hempty]
      set obsolete := cache.filter (isObsolete names) with hobsolete
      set kept := cache.filter (fun e => !isObsolete names e) with hkept
      have shorter : kept.length ≤ fuel := by
        have split : obsolete.length + kept.length = cache.length := by
          exact (length_eq_length_filter_add _).symm
        have : 0 < obsolete.length := length_pos_iff.mpr fun h => hempty (by simp [h])
        omega
      obtain ⟨hnames, hcache, hdropped⟩ := ih (names ++ obsolete.map fun e => e.1.name) shorter
      set final := dropObsolete fuel (names ++ obsolete.map fun e => e.1.name) kept
      have hsub : names ⊆ final.1 := fun n hn => hnames (mem_append_left _ hn)
      refine ⟨hsub, ?_, ?_⟩
      · rw [hcache, filter_filter]
        refine filter_congr fun e _ => ?_
        cases ho : isObsolete names e with
        | true => simp [isObsolete_mono hsub ho]
        | false => simp
      · intro e he ho
        cases hn : isObsolete names e with
        | true =>
          refine hnames (mem_append_right _ (mem_map_of_mem ?_))
          exact mem_filter.mpr ⟨he, hn⟩
        | false => exact hdropped e (mem_filter.mpr ⟨he, by simp [hn]⟩) ho

theorem evict_cache (l : Library) (names : List String) : ∃ dropped : List String, names ⊆ dropped ∧
      (l.evict names).cache = l.cache.filter (fun e => !isObsolete dropped e) ∧
      (l.evict names).store = l.store.forget dropped ∧
      ∀ e ∈ l.cache, isObsolete dropped e = true → e.1.name ∈ dropped := by
  obtain ⟨hnames, hcache, hdropped⟩ := dropObsolete_spec names (Nat.le_refl l.cache.length)
  exact ⟨_, hnames, hcache, rfl, hdropped⟩

theorem evict_cache_subset (l : Library) (names : List String) : (l.evict names).cache ⊆ l.cache := by
  obtain ⟨dropped, -, hcache, -⟩ := l.evict_cache names
  rw [hcache]
  exact fun e he => (mem_filter.mp he).1

theorem evict_all_frame (l : Library) (batches : List (List String)) :
    (batches.foldl evict l).cache ⊆ l.cache ∧ (batches.foldl evict l).next = l.next := by
  induction batches generalizing l with
  | nil => exact ⟨fun _ he => he, rfl⟩
  | cons names batches ih =>
    obtain ⟨hcache, hnext⟩ := ih (l.evict names)
    exact ⟨fun _ he => l.evict_cache_subset names (hcache he), hnext⟩

end ShaderCompose.Library
