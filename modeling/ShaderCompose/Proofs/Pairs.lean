import Mathlib.Data.List.Forall2
import Mathlib.Data.List.Nodup
import Mathlib.Logic.Relation
import ShaderCompose.Source.Store

/-!
Lists of pairs as finite maps.
-/

namespace ShaderCompose

open List

variable {κ α : Type} [BEq κ] [LawfulBEq κ]

variable {k : κ} {v : α} {ps : List (κ × α)}

theorem mem_of_lookup (h : ps.lookup k = some v) : (k, v) ∈ ps := by
  obtain ⟨before, after, rfl, -⟩ := lookup_eq_some_iff.mp h
  exact mem_append_right _ mem_cons_self

theorem lookup_of_mem (nodup : (ps.map (·.1)).Nodup) (h : (k, v) ∈ ps) : ps.lookup k = some v := by
  induction ps with
  | nil => cases h
  | cons e ps ih =>
    rw [map_cons, nodup_cons] at nodup
    rcases mem_cons.mp h with rfl | h
    · exact lookup_cons_self
    · have hk : (k == e.1) = false := by
        rw [beq_eq_false_iff_ne]
        intro he
        exact nodup.1 (he ▸ mem_map_of_mem h)
      rw [lookup_cons, hk]
      exact ih nodup.2 h

theorem lookup_isSome_of_mem_keys (h : k ∈ ps.map (·.1)) : (ps.lookup k).isSome := by
  obtain ⟨e, he, rfl⟩ := mem_map.mp h
  exact lookup_isSome_iff.mpr ⟨e, he, by simp⟩

theorem mem_keys_of_lookup (h : ps.lookup k = some v) : k ∈ ps.map (·.1) := mem_map.mpr ⟨(k, v), mem_of_lookup h, rfl⟩

omit [LawfulBEq κ] in
theorem lookup_of_prefix {more : List (κ × α)} (h : ps <+: more) (hlookup : ps.lookup k = some v) :
    more.lookup k = some v := by
  obtain ⟨rest, rfl⟩ := h
  rw [lookup_append, hlookup]
  rfl

theorem lookup_filter_of_true {p : κ × α → Bool} (h : ∀ v, (k, v) ∈ ps → p (k, v) = true) :
    (ps.filter p).lookup k = ps.lookup k := by
  induction ps with
  | nil => rfl
  | cons e ps ih =>
    obtain ⟨k', v⟩ := e
    have ih := ih fun w hw => h w (mem_cons_of_mem _ hw)
    by_cases hk : k = k'
    · subst hk
      rw [filter_cons_of_pos (h v mem_cons_self)]
      simp only [lookup_cons_self]
    · have hk' : (k == k') = false := by simpa using hk
      rw [filter_cons]
      split <;> simp only [lookup_cons, hk', ih]

omit [BEq κ] [LawfulBEq κ] in
theorem nodup_keys_filter {p : κ × α → Bool} (h : (ps.map (·.1)).Nodup) : ((ps.filter p).map (·.1)).Nodup :=
  h.sublist (filter_sublist.map _)

@[simp]
theorem lookup_setKey [DecidableEq κ] (k k' : κ) (v : α) (ps : List (κ × α)) :
    (setKey k v ps).lookup k' = if k' = k then some v else ps.lookup k' := by
  unfold setKey
  by_cases h : k' = k
  · subst h
    simp only [lookup_cons_self, if_true]
  · have hk : (k' == k) = false := by simpa using h
    rw [lookup_cons, hk, if_neg h]
    exact lookup_filter_of_true fun v _ => by simp [hk]

omit [LawfulBEq κ] in
theorem mem_setKey {e : κ × α} (h : e ∈ setKey k v ps) : e = (k, v) ∨ e ∈ ps := by
  rcases mem_cons.mp h with h | h
  · exact .inl h
  · exact .inr (mem_filter.mp h).1

omit [LawfulBEq κ] in
theorem forall_mem_setKey {P : κ × α → Prop} (hv : P (k, v)) (h : ∀ e ∈ ps, P e) : ∀ e ∈ setKey k v ps, P e := by
  intro e he
  rcases mem_setKey he with rfl | he
  · exact hv
  · exact h e he

theorem nodup_keys_setKey (h : (ps.map (·.1)).Nodup) : ((setKey k v ps).map (·.1)).Nodup := by
  unfold setKey
  rw [map_cons, nodup_cons]
  refine ⟨?_, nodup_keys_filter h⟩
  intro hk
  obtain ⟨e, he, hek⟩ := mem_map.mp hk
  have := (mem_filter.mp he).2
  simp [hek] at this

section

variable {κ' β : Type} [BEq κ'] [LawfulBEq κ'] {f : κ → κ'}

theorem lookup_map (hf : Function.Injective f) (g : α → β) (k : κ) (ps : List (κ × α)) :
    (ps.map (Prod.map f g)).lookup (f k) = (ps.lookup k).map g := by
  induction ps with
  | nil => rfl
  | cons e ps ih =>
    obtain ⟨k', v⟩ := e
    by_cases hk : k = k'
    · subst hk
      simp only [map_cons, Prod.map_apply, lookup_cons_self, Option.map_some]
    · have hk₁ : (k == k') = false := by simpa using hk
      have hk₂ : (f k == f k') = false := by simpa using fun h => hk (hf h)
      simp only [map_cons, Prod.map_apply, lookup_cons, hk₁, hk₂, ih]

theorem map_setKey (hf : Function.Injective f) (g : α → β) (k : κ) (v : α) (ps : List (κ × α)) :
    (setKey k v ps).map (Prod.map f g) = setKey (f k) (g v) (ps.map (Prod.map f g)) := by
  unfold setKey
  rw [filter_map]
  refine congrArg (List.cons _) (congrArg (List.map _) (filter_congr fun e _ => ?_))
  have hsame : (f e.1 == f k) = (e.1 == k) := by
    rw [Bool.eq_iff_iff, beq_iff_eq, beq_iff_eq]
    exact hf.eq_iff
  simp [hsame]

end

/-! ## Entry by entry -/

section

variable {α β γ : Type} {R : α → β → Prop} {S : β → γ → Prop} {as : List α} {bs : List β} {cs : List γ}

theorem getElem?_of_prefix {more : List α} (h : as <+: more) {n : Nat} {a : α} (ha : as[n]? = some a) :
    more[n]? = some a := by
  obtain ⟨rest, rfl⟩ := h
  rw [getElem?_append_left (List.getElem?_eq_some_iff.mp ha).1]
  exact ha

theorem mem_right_of_forall₂ (h : List.Forall₂ R as bs) {b : β} (hb : b ∈ bs) : ∃ a ∈ as, R a b := by
  induction h with
  | nil => cases hb
  | cons hab _ ih =>
    rcases mem_cons.mp hb with rfl | hb
    · exact ⟨_, mem_cons_self, hab⟩
    · obtain ⟨a, ha, hab⟩ := ih hb
      exact ⟨a, mem_cons_of_mem _ ha, hab⟩

theorem mapM_eq_ok {ε : Type} {f : α → Except ε β} :
    as.mapM f = .ok bs ↔ List.Forall₂ (fun a b => f a = .ok b) as bs := by
  induction as generalizing bs with
  | nil => simp [pure, Except.pure]
  | cons a as ih =>
    rw [mapM_cons, forall₂_cons_left_iff]
    cases hf : f a with
    | error e => simp [bind, Except.bind]
    | ok b =>
      cases hrest : as.mapM f with
      | error e => simp [bind, Except.bind, ← ih, hrest]
      | ok rest => simp [bind, Except.bind, pure, Except.pure, ← ih, hrest, eq_comm]

theorem forall₂_comp (h : List.Forall₂ R as bs) (h' : List.Forall₂ S bs cs) :
    List.Forall₂ (Relation.Comp R S) as cs := by
  induction h generalizing cs with
  | nil =>
    cases h'
    exact .nil
  | cons hab _ ih =>
    cases h' with
    | cons hbc h' => exact .cons ⟨_, hab, hbc⟩ (ih h')

end

theorem length_filter_notMem_lt {α : Type} [DecidableEq α] {l path : List α} {a : α} (h : a ∈ l) (hnew : a ∉ path) :
    (l.filter (· ∉ a :: path)).length < (l.filter (· ∉ path)).length := by
  have heq : l.filter (· ∉ a :: path) = (l.filter (· ∉ path)).filter (· ≠ a) := by
    simp [filter_filter]
  rw [heq, length_filter_lt_length_iff_exists]
  exact ⟨a, by simp [h, hnew], by simp⟩

/-! ## Ways down -/

section

variable {α : Type} {R : α → α → Prop} {P : List α → α → Prop} {path : List α} {a b : α}

open Relation

theorem descend (h : P path a) (hreach : ReflTransGen R a b)
    (hstep : ∀ path a b, P path a → R a b → P (a :: path) b) : ∃ path', path ⊆ path' ∧ P path' b := by
  induction hreach with
  | refl => exact ⟨path, Subset.refl _, h⟩
  | @tail b c _ hbc ih =>
    obtain ⟨path', hsubset, hb⟩ := ih
    exact ⟨b :: path', subset_cons_of_subset b hsubset, hstep _ _ _ hb hbc⟩

theorem not_loop_of_descent (h : P path a)
    (hstep : ∀ path a b, P path a → R a b → a ∉ path ∧ P (a :: path) b) : ¬TransGen R a a := by
  intro hloop
  obtain ⟨b, hab, hback⟩ := TransGen.head'_iff.mp hloop
  obtain ⟨path', hsubset, ha⟩ := descend (hstep _ _ _ h hab).2 hback fun _ _ _ h hab => (hstep _ _ _ h hab).2
  exact (hstep _ _ _ ha hab).1 (hsubset mem_cons_self)

end

end ShaderCompose
