import Mathlib.Data.List.Perm.Subperm
import ShaderCompose.Proofs.Generic.Instance
import ShaderCompose.Proofs.Library.CachedBases
import ShaderCompose.Proofs.Reader.Source
import ShaderCompose.Proofs.Source.Store

/-!
A load is never given up: its keys are formed from the words at hand.
-/

namespace ShaderCompose

open List

/-! ## Counting keys -/

def wordLists (words : List String) : Nat → List (List String)
  | 0 => [[]]
  | n + 1 => [] :: words.flatMap fun w => (wordLists words n).map (w :: ·)

theorem mem_wordLists {words : List String} : ∀ {n : Nat} {ws : List String}, ws.length ≤ n →
    (∀ w ∈ ws, w ∈ words) → ws ∈ wordLists words n := by
  intro n
  induction n with
  | zero =>
    intro ws hlength _
    rw [eq_nil_of_length_eq_zero (Nat.le_zero.mp hlength)]
    exact mem_singleton_self _
  | succ n ih =>
    intro ws hlength hws
    cases ws with
    | nil => exact mem_cons_self
    | cons w ws =>
      refine mem_cons_of_mem _ (mem_flatMap.mpr ⟨w, hws w mem_cons_self, ?_⟩)
      refine mem_map_of_mem (ih (Nat.le_of_succ_le_succ hlength) fun v hv => ?_)
      exact hws v (mem_cons_of_mem _ hv)

theorem length_wordLists_le (words : List String) (n : Nat) :
    (wordLists words n).length ≤ Nat.pow (words.length + 1) n := by
  induction n with
  | zero => exact Nat.le_refl _
  | succ n ih =>
    have hone : 1 ≤ Nat.pow (words.length + 1) n := Nat.one_le_pow _ _ (Nat.succ_pos _)
    calc (wordLists words (n + 1)).length
        = words.length * (wordLists words n).length + 1 := by
          simp [wordLists]
      _ ≤ words.length * Nat.pow (words.length + 1) n + Nat.pow (words.length + 1) n :=
          Nat.add_le_add (Nat.mul_le_mul_left _ ih) hone
      _ = (words.length + 1) * Nat.pow (words.length + 1) n := (Nat.succ_mul _ _).symm
      _ = Nat.pow (words.length + 1) (n + 1) := Nat.mul_comm _ _

theorem le_foldl_max {n : Nat} : ∀ (ns : List Nat) (start : Nat), n ≤ start ∨ n ∈ ns → n ≤ ns.foldl max start := by
  intro ns
  induction ns with
  | nil =>
    intro start h
    exact h.resolve_right not_mem_nil
  | cons m ns ih =>
    intro start h
    refine ih (max start m) ?_
    rcases h with h | h
    · exact .inl (h.trans (Nat.le_max_left start m))
    · rcases mem_cons.mp h with rfl | h
      · exact .inl (Nat.le_max_right start n)
      · exact .inr h

/-- A key that is formed from the words of references. -/
structure Formed (refs : List ClassRef) (macros : List MacroDef) (key : ModuleKey) : Prop where
  macros : key.macros = macros
  words : ∀ w ∈ key.name :: key.generics, w ∈ "0" :: "false" :: refs.flatMap ClassRef.words
  arity : ∃ r ∈ refs, key.generics.length ≤ r.generics.length

variable {refs : List ClassRef} {macros : List MacroDef}

theorem length_le_countKeys {keys : List ModuleKey} (hnodup : keys.Nodup) (hkeys : ∀ k ∈ keys, Formed refs macros k) :
    keys.length ≤ countKeys refs := by
  set words := ("0" :: "false" :: refs.flatMap ClassRef.words).eraseDups with hwords
  set arity := (refs.map fun r => r.generics.length).foldl max 0 with harity
  let all : List ModuleKey := words.flatMap fun name =>
    (wordLists words arity).map fun generics => ⟨name, generics, macros⟩
  have hsub : keys ⊆ all := by
    intro k hk
    obtain ⟨hmacros, hw, r, hr, hlength⟩ := hkeys k hk
    have hmem : ∀ w ∈ k.name :: k.generics, w ∈ words := fun w hwk => mem_eraseDups.mpr (hw w hwk)
    refine mem_flatMap.mpr ⟨k.name, hmem _ mem_cons_self, mem_map.mpr
      ⟨k.generics, mem_wordLists (hlength.trans ?_) fun w hw => ?_, ?_⟩⟩
    · exact le_foldl_max _ 0 (.inr (mem_map_of_mem hr))
    · exact hmem w (mem_cons_of_mem _ hw)
    · rw [← hmacros]
  calc keys.length
      ≤ all.length := (subperm_of_subset hnodup hsub).length_le
    _ = words.length * (wordLists words arity).length := by
        simp [all]
    _ ≤ (words.length + 1) * Nat.pow (words.length + 1) arity :=
        Nat.mul_le_mul (Nat.le_succ _) (length_wordLists_le words arity)
    _ = countKeys refs := Nat.mul_comm _ _

/-! ## The keys of a load -/

theorem Formed.of_mem {r : ClassRef} (hr : r ∈ refs) (macros : List MacroDef) :
    Formed refs macros (r.key macros) := by
  refine ⟨rfl, fun w hw => ?_, r, hr, Nat.le_refl _⟩
  exact mem_cons_of_mem _ (mem_cons_of_mem _ (mem_flatMap.mpr ⟨r, hr, hw⟩))

theorem Formed.of_instance {key : ModuleKey} (hkey : Formed refs macros key) {cls made : ShaderClass}
    {fill : Bool} (hmade : cls.instantiate key.generics fill = .ok made) (hcls : cls.references ⊆ refs)
    {r : ClassRef} (hr : r ∈ made.references) : Formed refs macros (r.key macros) := by
  obtain ⟨r₀, hr₀, hlength, hwords⟩ := ShaderClass.instantiate_references hmade hr
  refine ⟨rfl, fun w hw => ?_, r₀, hcls hr₀, hlength.le⟩
  rcases hwords w hw with hw | hw | rfl | rfl
  · exact (Formed.of_mem (hcls hr₀) macros).words w hw
  · exact hkey.words w (mem_cons_of_mem _ hw)
  · exact mem_cons_self
  · exact mem_cons_of_mem _ mem_cons_self

theorem mem_references_of_key {cls : ShaderClass} {k : ModuleKey}
    (h : k ∈ baseKeysOf cls macros ++ slotKeysOf cls macros) :
    ∃ r ∈ cls.references, k = r.key macros := by
  rcases mem_append.mp h with h | h
  · obtain ⟨b, hb, rfl⟩ := mem_map.mp h
    exact ⟨_, mem_append_left _ (mem_map_of_mem hb), rfl⟩
  · obtain ⟨t, ht, rfl⟩ := mem_map.mp (mem_eraseDups.mp h)
    exact ⟨_, mem_append_right _ (mem_map_of_mem ht), rfl⟩

structure InReach (l : Library) (plan : LoadPlan) (r : Request) (s : Loading) : Prop where
  store : l.store.Below s.library.store
  cache : ∀ e ∈ s.library.cache, e.1.macros = plan.macros →
    ∀ d ∈ e.2.dependencies, Formed (l.references plan.macros r) plan.macros d
  waiting : ∀ k ∈ s.waiting, Formed (l.references plan.macros r) plan.macros k
  parsed : ∀ k ∈ s.parsed, Formed (l.references plan.macros r) plan.macros k

namespace InReach

variable {l : Library} {plan : LoadPlan} {r : Request} {s : Loading}

theorem start (hl : l.Grounded) : InReach l plan r { library := l } where
  store := .refl _
  cache e he hmacros d hd := by
    have hmem : (⟨d.name, d.generics⟩ : ClassRef) ∈ l.references plan.macros r := by
      refine mem_append_left _ (mem_append_right _ (mem_flatMap.mpr ⟨e, he, ?_⟩))
      exact mem_map_of_mem (mem_cons_of_mem _ hd)
    have hsame : ClassRef.key ⟨d.name, d.generics⟩ plan.macros = d :=
      congrArg (ModuleKey.mk d.name d.generics) ((hl.macros e he d hd).trans hmacros).symm
    exact hsame ▸ Formed.of_mem hmem plan.macros
  waiting := forall_mem_nil _
  parsed := forall_mem_nil _

theorem await (h : InReach l plan r s) {keys : List ModuleKey}
    (hkeys : ∀ k ∈ keys, Formed (l.references plan.macros r) plan.macros k) :
    InReach l plan r (s.await keys) :=
  { h with
    waiting := fun k hk => by
      rcases mem_append.mp hk with hk | hk
      · exact hkeys k (mem_reverse.mp hk)
      · exact h.waiting k hk }

theorem evict_all (h : InReach l plan r s) (batches : List (List String)) :
    InReach l plan r { s with library := batches.foldl Library.evict s.library } := by
  induction batches generalizing s with
  | nil => exact h
  | cons names batches ih =>
    refine @ih { s with library := s.library.evict names } ⟨?_, ?_, h.waiting, h.parsed⟩
    · obtain ⟨dropped, -, -, hstore, -⟩ := s.library.evict_cache names
      rw [hstore]
      exact h.store.forget dropped
    · exact fun e he => h.cache e (s.library.evict_cache_subset names he)

theorem read (h : InReach l plan r s) {key : ModuleKey} (hkey : Formed (l.references plan.macros r) plan.macros key) :
    InReach l plan r (s.read plan key).2 ∧ ∀ read, (s.read plan key).1 = some read →
      ∀ k ∈ baseKeysOf read.cls plan.macros ++ slotKeysOf read.cls plan.macros,
        Formed (l.references plan.macros r) plan.macros k := by
  obtain ⟨hbelow, hfile⟩ := h.store.load key.name
  constructor
  · obtain ⟨batches, hlibrary⟩ := Loading.read_library plan key s
    have hstored : InReach l plan r
        { s with library := { s.library with store := (s.library.store.load key.name).2 } } :=
      ⟨hbelow, h.cache, h.waiting, h.parsed⟩
    have hevicted := hstored.evict_all batches
    exact ⟨hlibrary ▸ hevicted.store, hlibrary ▸ hevicted.cache, h.waiting, forall_mem_cons.mpr ⟨hkey, h.parsed⟩⟩
  · intro read hread k hk
    rw [Loading.read_fst] at hread
    obtain ⟨file, text, hfound, htext, hclass⟩ := classOfFile_eq_some hread
    obtain ⟨cls, hsource, hname, hmade, -⟩ := classOfText_eq_some hclass
    have hcandidate := hfile file hfound
    have hcls : cls ∈ (Reader.source text file.fileName).1 := by simp [hsource]
    have hnames : key.name ∈ l.store.names :=
      SourceStore.mem_names_of_candidate (hname ▸ (Reader.source_isIdent hcls).no_slash) hcandidate
    rw [preprocessedText, hbelow.files, hbelow.lookup] at htext
    have hrefs : cls.references ⊆ l.references plan.macros r := by
      intro c hc
      refine mem_append_right _ (mem_flatMap.mpr ⟨key.name, hnames, ?_⟩)
      refine mem_flatMap.mpr ⟨file, hcandidate, ?_⟩
      rw [htext]
      exact mem_flatMap.mpr ⟨cls, mem_filter.mpr ⟨hcls, by simpa using hname⟩, hc⟩
    obtain ⟨c, hc, rfl⟩ := mem_references_of_key hk
    exact hkey.of_instance hmade hrefs hc

theorem finish (h : InReach l plan r s) {key : ModuleKey} {read : ReadClass}
    {bases : List LoadedClass} (unkept : s.library.cached? key = none)
    (hread : ∀ k ∈ baseKeysOf read.cls plan.macros ++ slotKeysOf read.cls plan.macros,
      Formed (l.references plan.macros r) plan.macros k) :
    InReach l plan r (finishClass plan key read bases s).2 := by
  have hawait : InReach l plan r (s.await (slotKeysOf read.cls plan.macros)) :=
    h.await fun k hk => hread k (mem_append_right _ hk)
  rcases finishClass_cases plan read bases unkept rfl with heq | ⟨-, heq⟩
  · rw [heq]
    exact ⟨hawait.store, hawait.cache, hawait.waiting, hawait.parsed⟩
  · rw [heq]
    refine ⟨hawait.store, fun e he hmacros => ?_, hawait.waiting, hawait.parsed⟩
    rcases mem_setKey he with rfl | he
    · exact hread
    · exact hawait.cache e he hmacros

end InReach

theorem inReach_invariant (l : Library) (plan : LoadPlan) (r : Request) (bound : Nat) : RequestInvariant plan bound
      (Formed (l.references plan.macros r) plan.macros)
      (fun _ read => ∀ k ∈ baseKeysOf read.cls plan.macros ++ slotKeysOf read.cls plan.macros,
        Formed (l.references plan.macros r) plan.macros k)
      (fun s => InReach l plan r s ∧ (l.reach plan.macros r ≤ bound → s.exhausted = false)) where
  cyclic _ _ _ _ h := ⟨⟨h.1.store, h.1.cache, h.1.waiting, h.1.parsed⟩, h.2⟩
  empty _ h := ⟨⟨h.1.store, h.1.cache, h.1.waiting, h.1.parsed⟩, h.2⟩
  giveUp _ keys hnodup hkeys hbound h := by
    refine ⟨⟨h.1.store, h.1.cache, h.1.waiting, h.1.parsed⟩, fun hreach => ?_⟩
    have hfew : keys.length ≤ l.reach plan.macros r := length_le_countKeys hnodup hkeys
    omega
  fail _ _ _ _ _ h := ⟨⟨h.1.store, h.1.cache, h.1.waiting, h.1.parsed⟩, h.2⟩
  await _ _ hkeys h := ⟨h.1.await hkeys, h.2⟩
  take s key c hkey _ hc h := by
    have hawait := h.1.await (h.1.cache _ (mem_of_lookup hc) hkey.macros)
    exact ⟨⟨hawait.store, hawait.cache, hawait.waiting, hawait.parsed⟩, h.2⟩
  read s key hkey _ _ h := ⟨⟨(h.1.read hkey).1, h.2⟩, (h.1.read hkey).2⟩
  base _ _ hread k hk := hread k (mem_append_left _ hk)
  finish s key read bases _ hread _ unkept _ h := by
    obtain ⟨_, hsnd⟩ := finishClass_snd plan key read bases s
    exact ⟨h.1.finish unkept hread, by rw [hsnd]; exact h.2⟩
  mixin _ _ _ _ _ h := ⟨⟨h.1.store, h.1.cache, h.1.waiting, h.1.parsed⟩, h.2⟩

namespace Library

theorem loadWithin_inReach {l : Library} (h : l.Grounded) (plan : LoadPlan) (bound : Nat) (r : Request) :
    InReach l plan r (l.loadWithin plan bound r) ∧
      (l.reach plan.macros r ≤ bound → (l.loadWithin plan bound r).exhausted = false) := by
  refine loadWithin_invariant (inReach_invariant l plan r bound) (fun s hs => hs.1.waiting) ?_ ?_
    ⟨.start h, fun _ => rfl⟩
  · intro s rest hsub hs
    exact ⟨⟨hs.1.store, hs.1.cache, fun k hk => hs.1.waiting k (hsub hk), hs.1.parsed⟩, hs.2⟩
  · intro c hc
    exact .of_mem (mem_append_left _ (mem_append_left _ hc)) _

theorem loadBy_exhausted {l : Library} (h : l.Grounded) (plan : LoadPlan) (r : Request) :
    (l.loadBy plan r).exhausted = false := by
  unfold loadBy
  dsimp only
  split
  · exact (loadWithin_inReach h plan _ r).2 (Nat.le_refl _)
  · next hfirst => simpa using hfirst

end Library

end ShaderCompose
