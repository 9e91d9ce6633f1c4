import Mathlib.Data.List.Sort
import ShaderCompose.Engine
import ShaderCompose.Proofs.Pairs

/-!
Sorted lists forget the order they came in.
-/

namespace ShaderCompose

open List

/-! ## The order of keys -/

theorem MacroDef.compare_eq : (compare : MacroDef → MacroDef → Ordering) =
    compareLex (compareOn MacroDef.name) (compareOn MacroDef.text) := by
  funext a b
  change (compare a.name b.name).then ((compare a.text b.text).then .eq) = _
  rw [Ordering.then_eq]
  rfl

instance : Std.TransOrd MacroDef := by
  unfold Std.TransOrd
  rw [MacroDef.compare_eq]
  infer_instance

instance : Std.LawfulEqOrd MacroDef where
  eq_of_compare {a b} h := by
    rw [MacroDef.compare_eq] at h
    obtain ⟨hname, htext⟩ := Ordering.then_eq_eq.mp h
    cases a
    cases b
    exact congr (congrArg MacroDef.mk (Std.LawfulEqCmp.eq_of_compare hname)) (Std.LawfulEqCmp.eq_of_compare htext)

namespace ModuleKey

theorem compare_eq : (compare : ModuleKey → ModuleKey → Ordering) = compareLex (compareOn ModuleKey.name)
      (compareLex (compareOn ModuleKey.generics) (compareOn ModuleKey.macros)) := by
  funext a b
  change (compare a.name b.name).then ((compare a.generics b.generics).then
    ((compare a.macros b.macros).then .eq)) = _
  rw [Ordering.then_eq]
  rfl

instance : Std.TransOrd ModuleKey := by
  unfold Std.TransOrd
  rw [compare_eq]
  infer_instance

theorem atMost_trans {a b c : ModuleKey} (h : a.atMost b = true) (h' : b.atMost c = true) : a.atMost c = true :=
  Std.TransCmp.isLE_trans h h'

theorem atMost_total (a b : ModuleKey) : (a.atMost b || b.atMost a) = true := by
  have hswap : compare b a = (compare a b).swap := Std.OrientedCmp.eq_swap
  unfold atMost
  rw [hswap]
  cases compare a b <;> rfl

theorem atMost_antisymm {a b : ModuleKey} (h : a.atMost b = true) (h' : b.atMost a = true) : a = b := by
  have heq : compare a b = .eq := Std.OrientedCmp.isLE_antisymm h h'
  rw [compare_eq] at heq
  obtain ⟨hname, hrest⟩ := Ordering.then_eq_eq.mp heq
  obtain ⟨hgenerics, hmacros⟩ := Ordering.then_eq_eq.mp hrest
  cases a
  cases b
  exact congr (congr (congrArg ModuleKey.mk (Std.LawfulEqCmp.eq_of_compare hname))
    (Std.LawfulEqCmp.eq_of_compare hgenerics)) (Std.LawfulEqCmp.eq_of_compare hmacros)

end ModuleKey

/-! ## Sorting by a key -/

section

variable {α κ : Type} {le : κ → κ → Bool} {key : α → κ}

theorem mergeSort_eq_of_mem_iff (htrans : ∀ a b c, le a b = true → le b c = true → le a c = true)
    (htotal : ∀ a b, (le a b || le b a) = true)
    (hantisymm : ∀ a b, le a b = true → le b a = true → a = b) {as bs : List α}
    (ha : (as.map key).Nodup) (hb : (bs.map key).Nodup) (h : ∀ x, x ∈ as ↔ x ∈ bs) :
    as.mergeSort (fun a b => le (key a) (key b)) = bs.mergeSort fun a b => le (key a) (key b) := by
  have hperm : as.Perm bs := (perm_ext_iff_of_nodup ha.of_map hb.of_map).mpr h
  have hsorted : ∀ l : List α, (l.mergeSort fun a b => le (key a) (key b)).Pairwise
      fun a b => le (key a) (key b) = true :=
    pairwise_mergeSort (fun a b c => htrans (key a) (key b) (key c)) fun a b => htotal (key a) (key b)
  refine List.Perm.eq_of_pairwise ?_ (hsorted as) (hsorted bs)
    ((mergeSort_perm as _).trans (hperm.trans (mergeSort_perm bs _).symm))
  intro a b hmem hmem' hle hle'
  rw [mem_mergeSort] at hmem hmem'
  exact inj_on_of_nodup_map ha hmem ((h b).mpr hmem') (hantisymm _ _ hle hle')

end

/-! ## Writing pairs -/

section

variable {κ α : Type} [BEq κ] [LawfulBEq κ]

theorem nodup_keys_foldl_setKey (ps : List (κ × α)) : ∀ start : List (κ × α), (start.map (·.1)).Nodup →
      ((ps.foldl (fun done p => setKey p.1 p.2 done) start).map (·.1)).Nodup := by
  induction ps with
  | nil => exact fun _ h => h
  | cons p ps ih => exact fun start h => ih _ (nodup_keys_setKey h)

theorem mem_foldl_setKey {ps : List (κ × α)}
    (hagree : ∀ p ∈ ps, ∀ q ∈ ps, p.1 = q.1 → p = q) {x : κ × α} : ∀ start : List (κ × α),
    (∀ p ∈ ps, ∀ q ∈ start, p.1 = q.1 → p = q) →
      (x ∈ ps.foldl (fun done p => setKey p.1 p.2 done) start ↔ x ∈ start ∨ x ∈ ps) := by
  induction ps with
  | nil => simp
  | cons p ps ih =>
    intro start hstart
    have hset : ∀ q, q ∈ setKey p.1 p.2 start ↔ q = p ∨ q ∈ start := by
      intro q
      refine ⟨mem_setKey, ?_⟩
      rintro (rfl | hq)
      · exact mem_cons_self
      · by_cases hkey : q.1 = p.1
        · rw [← hstart p mem_cons_self q hq hkey.symm]
          exact mem_cons_self
        · exact mem_cons_of_mem _ (mem_filter.mpr ⟨hq, by simpa using hkey⟩)
    rw [foldl_cons, ih (fun a ha b hb => hagree a (mem_cons_of_mem _ ha) b (mem_cons_of_mem _ hb)), hset, mem_cons]
    · tauto
    · intro a ha q hq hkey
      rcases (hset q).mp hq with rfl | hq
      · exact hagree a (mem_cons_of_mem _ ha) q mem_cons_self hkey
      · exact hstart a (mem_cons_of_mem _ ha) q hq hkey

end

theorem Cache.digests_eq {as bs : Cache}
    (hagree : ∀ c ∈ as, ∀ d ∈ as, c.2.isMixin = false → d.2.isMixin = false → c.1.name = d.1.name →
      c.2.sourceDigest = d.2.sourceDigest)
    (h : ∀ x, x ∈ (as.filter fun e => !e.2.isMixin).map (fun e => (e.1.name, e.2.sourceDigest)) ↔
      x ∈ (bs.filter fun e => !e.2.isMixin).map fun e => (e.1.name, e.2.sourceDigest)) :
    Cache.digests as = Cache.digests bs := by
  set found := (as.filter fun e => !e.2.isMixin).map fun e => (e.1.name, e.2.sourceDigest) with hfound
  set found' := (bs.filter fun e => !e.2.isMixin).map fun e => (e.1.name, e.2.sourceDigest)
  have hsame : ∀ p ∈ found, ∀ q ∈ found, p.1 = q.1 → p = q := by
    intro p hp q hq hname
    obtain ⟨c, hc, rfl⟩ := mem_map.mp hp
    obtain ⟨d, hd, rfl⟩ := mem_map.mp hq
    obtain ⟨hc, hc'⟩ := mem_filter.mp hc
    obtain ⟨hd, hd'⟩ := mem_filter.mp hd
    exact Prod.ext hname (hagree c hc d hd (by simpa using hc') (by simpa using hd') hname)
  have hsame' : ∀ p ∈ found', ∀ q ∈ found', p.1 = q.1 → p = q :=
    fun p hp q hq => hsame p ((h p).mpr hp) q ((h q).mpr hq)
  refine @mergeSort_eq_of_mem_iff _ _ (fun a b => decide (a ≤ b))
    (fun p : String × Digest => p.1) ?_ ?_ ?_ _ _ (nodup_keys_foldl_setKey found [] nodup_nil)
    (nodup_keys_foldl_setKey found' [] nodup_nil) ?_
  · intro a b c hab hbc
    exact decide_eq_true (String.le_trans (of_decide_eq_true hab) (of_decide_eq_true hbc))
  · intro a b
    simpa using String.le_total a b
  · intro a b hab hba
    exact String.le_antisymm (of_decide_eq_true hab) (of_decide_eq_true hba)
  · intro x
    have hmem := mem_foldl_setKey hsame (x := x) [] (by simp)
    have hmem' := mem_foldl_setKey hsame' (x := x) [] (by simp)
    rw [hmem, hmem', h x]

end ShaderCompose
