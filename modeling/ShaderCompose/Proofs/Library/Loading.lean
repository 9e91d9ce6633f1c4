import ShaderCompose.Library.Load
import ShaderCompose.Proofs.Library.Eviction

/-!
What a load does to what was loaded so far.
-/

namespace ShaderCompose

open List

/-! ## Reading a class -/

variable (plan : LoadPlan)

theorem classOfText_spec (key : ModuleKey) (file : SourceFile) (text : String) :
    (classOfText plan key file text).2.hasErrors = (classOfText plan key file text).1.isNone := by
  unfold classOfText
  generalize Reader.source text file.fileName = found
  obtain ⟨classes, log⟩ := found
  dsimp only
  split
  · assumption
  · rename_i hlog
    split
    · split
      · simp [Log.hasErrors, Diagnostic.errorAt]
      · split
        · simpa using hlog
        · simp [Log.hasErrors, Diagnostic.errorAt]
    · simp [Log.hasErrors, Diagnostic.error]

theorem classOfFile_spec (store : SourceStore) (key : ModuleKey)
    (file : Except PreprocessError SourceFile) :
    (classOfFile plan store key file).2.1.hasErrors = (classOfFile plan store key file).1.isNone := by
  unfold classOfFile
  split
  · simp [Log.hasErrors, Diagnostic.error]
  · simp [Log.hasErrors, Diagnostic.error]
  · split
    · simp [Log.hasErrors, Diagnostic.error]
    · exact classOfText_spec ..

variable {key : ModuleKey} {path : List ModuleKey} {s : Loading}

theorem classOfText_eq_some {plan : LoadPlan} {file : SourceFile} {text : String} {read : ReadClass}
    (h : (classOfText plan key file text).1 = some read) :
    ∃ cls, (Reader.source text file.fileName).1 = [cls] ∧ cls.name = key.name ∧
      cls.instantiate key.generics plan.fill = .ok read.cls ∧ read.file = file := by
  unfold classOfText at h
  generalize Reader.source text file.fileName = found at h ⊢
  obtain ⟨classes, log⟩ := found
  dsimp only at h
  split at h
  · cases h
  · split at h
    · next cls =>
      split at h
      · cases h
      · next hname =>
        split at h
        · next made hmade =>
          cases h
          exact ⟨cls, rfl, by simpa using hname, hmade, rfl⟩
        · cases h
    · cases h

theorem classOfFile_eq_some {plan : LoadPlan} {store : SourceStore}
    {found : Except PreprocessError SourceFile} {read : ReadClass}
    (h : (classOfFile plan store key found).1 = some read) :
    ∃ file text, found = .ok file ∧ preprocessedText store plan.macros file = .ok text ∧
      (classOfText plan key file text).1 = some read := by
  unfold classOfFile at h
  split at h
  · cases h
  · cases h
  · next file =>
    split at h
    · cases h
    · next text htext => exact ⟨file, text, rfl, htext, h⟩

namespace Loading

variable (plan : LoadPlan) (key : ModuleKey) (s : Loading)

theorem read_fst : (s.read plan key).1 =
    (classOfFile plan (s.library.store.load key.name).2 key (s.library.store.load key.name).1).1 :=
  rfl

theorem read_log : (s.read plan key).2.log = s.log ++ (classOfFile plan (s.library.store.load key.name).2 key
      (s.library.store.load key.name).1).2.1 :=
  rfl

@[simp] theorem read_loaded : (s.read plan key).2.loaded = s.loaded := rfl

theorem read_none {plan : LoadPlan} {key : ModuleKey} {s : Loading}
    (h : (s.read plan key).1 = none) : (s.read plan key).2.log.hasErrors = true := by
  rw [read_log, Log.hasErrors_append, classOfFile_spec, ← read_fst, h]
  simp

theorem read_library : ∃ batches : List (List String), (s.read plan key).2.library = batches.foldl Library.evict
      { s.library with store := (s.library.store.load key.name).2 } :=
  ⟨_, rfl⟩

theorem read_frame : (s.read plan key).2.library.cache ⊆ s.library.cache ∧
    (s.read plan key).2.library.next = s.library.next := by
  obtain ⟨batches, hlibrary⟩ := read_library plan key s
  rw [hlibrary]
  exact Library.evict_all_frame _ batches

/-! ## What stays as it is -/

def Troubled (s : Loading) : Prop := s.log.hasErrors = true ∨ s.exhausted = true

def Reported (s : Loading) : Prop := s.failed ≠ [] → s.Troubled

structure Extends (path : List ModuleKey) (s t : Loading) : Prop where
  loaded : ∀ k c, s.loaded.lookup k = some c → t.loaded.lookup k = some c
  onPath : ∀ k ∈ path, t.loaded.lookup k = s.loaded.lookup k
  unkept : ∀ k ∈ path, s.library.cached? k = none → t.library.cached? k = none
  waiting : s.waiting ⊆ t.waiting
  failed : s.failed ⊆ t.failed
  parsed : s.parsed ⊆ t.parsed
  errors : s.log.hasErrors = true → t.log.hasErrors = true
  exhausted : s.exhausted = true → t.exhausted = true

namespace Extends

variable {path : List ModuleKey} {s t u : Loading}

theorem refl (path : List ModuleKey) (s : Loading) : Extends path s s :=
  ⟨fun _ _ h => h, fun _ _ => rfl, fun _ _ h => h, fun _ h => h, fun _ h => h, fun _ h => h, id, id⟩

theorem trans (h : Extends path s t) (h' : Extends path t u) : Extends path s u where
  loaded k c hk := h'.loaded k c (h.loaded k c hk)
  onPath k hk := (h'.onPath k hk).trans (h.onPath k hk)
  unkept k hk hs := h'.unkept k hk (h.unkept k hk hs)
  waiting _ hk := h'.waiting (h.waiting hk)
  failed _ hk := h'.failed (h.failed hk)
  parsed _ hk := h'.parsed (h.parsed hk)
  errors he := h'.errors (h.errors he)
  exhausted he := h'.exhausted (h.exhausted he)

theorem tail {key : ModuleKey} (h : Extends (key :: path) s t) : Extends path s t :=
  { h with
    onPath := fun k hk => h.onPath k (mem_cons_of_mem _ hk)
    unkept := fun k hk => h.unkept k (mem_cons_of_mem _ hk) }

theorem troubled (h : Extends path s t) (hs : s.Troubled) : t.Troubled := hs.imp h.errors h.exhausted

theorem isSome_loaded (h : Extends path s t) {key : ModuleKey}
    (hs : (s.loaded.lookup key).isSome = true) : (t.loaded.lookup key).isSome = true := by
  obtain ⟨c, hc⟩ := Option.isSome_iff_exists.mp hs
  rw [h.loaded key c hc, Option.isSome_some]

theorem isSettled (h : Extends path s t) {key : ModuleKey} (hs : s.isSettled key = true) :
    t.isSettled key = true := by
  unfold Loading.isSettled at hs ⊢
  rw [Bool.or_eq_true] at hs ⊢
  exact hs.imp h.isSome_loaded fun hfailed => by simpa using h.failed (by simpa using hfailed)

end Extends

theorem extends_report (path : List ModuleKey) (s : Loading) (d : Diagnostic) : Extends path s (s.report d) :=
  { Extends.refl path s with errors := fun h => by simp [report, h] }

theorem extends_await (path : List ModuleKey) (s : Loading) (keys : List ModuleKey) : Extends path s (s.await keys) :=
  { Extends.refl path s with waiting := fun _ h => mem_append_right _ h }

theorem extends_fail (path : List ModuleKey) (s : Loading) (key : ModuleKey) : Extends path s (s.fail key) :=
  { Extends.refl path s with failed := fun _ h => mem_cons_of_mem _ h }

theorem extends_giveUp (path : List ModuleKey) (s : Loading) : Extends path s s.giveUp :=
  { Extends.refl path s with exhausted := fun _ => rfl }

theorem extends_takeNumber (path : List ModuleKey) (s : Loading) : Extends path s s.takeNumber :=
  { Extends.refl path s with }

theorem extends_read (path : List ModuleKey) : Extends path s (s.read plan key).2 where
  loaded _ _ h := h
  onPath _ _ := rfl
  unkept k _ h := by
    refine Option.eq_none_iff_forall_ne_some.mpr fun c hc => ?_
    have hmem := (s.read_frame plan key).1 (mem_of_lookup hc)
    have hsome := lookup_isSome_of_mem_keys (mem_map_of_mem hmem)
    rw [Library.cached?] at h
    simp [h] at hsome
  waiting _ h := h
  failed _ h := h
  parsed _ h := mem_cons_of_mem _ h
  errors h := by simp [read_log, h]
  exhausted h := h

theorem extends_add {path : List ModuleKey} {key : ModuleKey} {s : Loading} (c : LoadedClass)
    (fresh : s.loaded.lookup key = none) (hpath : key ∉ path) : Extends path s (s.add key c) where
  loaded k d hk := by
    have hne : k ≠ key := by
      rintro rfl
      rw [fresh] at hk
      cases hk
    simp [add, hne, hk]
  onPath k hk := by
    have hne : k ≠ key := fun h => hpath (h ▸ hk)
    simp [add, hne]
  unkept _ _ h := h
  waiting _ h := h
  failed _ h := h
  parsed _ h := h
  errors h := h
  exhausted h := h

theorem Reported.of_log {s t : Loading} (h : s.Reported) (hfailed : t.failed = s.failed)
    (ht : s.Troubled → t.Troubled) : t.Reported :=
  fun hne => ht (h (hfailed ▸ hne))

theorem Reported.fail {s : Loading} (hs : s.Troubled) (key : ModuleKey) : (s.fail key).Reported := fun _ => hs

end Loading

open Loading

/-! ## Finishing a class -/

theorem keepLoaded_cases (s : Loading) (key : ModuleKey) (c : LoadedClass) : keepLoaded s key c = (c, s) ∨
    (∃ kept, s.library.cached? key = some kept ∧ keepLoaded s key c = (kept, s)) ∨
    (s.library.cached? key = none ∧ (∀ b ∈ c.baseKeys, ∃ kept used, s.library.cached? b = some kept ∧
        s.loaded.lookup b = some used ∧ kept.module.id = used.module.id) ∧
      keepLoaded s key c = (c, s.keep key c)) := by
  unfold keepLoaded
  dsimp only
  split
  · exact .inl rfl
  · rename_i hcurrent
    split
    · rename_i kept hkept
      exact .inr (.inl ⟨kept, hkept, rfl⟩)
    · rename_i hnone
      refine .inr (.inr ⟨hnone, fun b hb => ?_, rfl⟩)
      simp only [Bool.not_eq_true', Bool.not_eq_false, all_eq_true] at hcurrent
      have hb := hcurrent b hb
      split at hb
      · rename_i kept used hkept hused
        exact ⟨kept, used, hkept, hused, by simpa [LoadedClass.same] using hb⟩
      · cases hb

theorem keepLoaded_library (s : Loading) (key : ModuleKey) (c : LoadedClass) :
    ∃ library, (keepLoaded s key c).2 = { s with library } := by
  rcases keepLoaded_cases s key c with hkeep | ⟨kept, -, hkeep⟩ | ⟨-, -, hkeep⟩
  · exact ⟨s.library, by rw [hkeep]⟩
  · exact ⟨s.library, by rw [hkeep]⟩
  · exact ⟨(s.keep key c).library, by rw [hkeep]; rfl⟩

theorem extends_keepLoaded (s : Loading) (hpath : key ∉ path) (c : LoadedClass) :
    Extends path s (keepLoaded s key c).2 := by
  rcases keepLoaded_cases s key c with hkeep | ⟨kept, -, hkeep⟩ | ⟨-, -, hkeep⟩
  · rw [hkeep]
    exact .refl path s
  · rw [hkeep]
    exact .refl path s
  · rw [hkeep]
    refine { Extends.refl path s with unkept := fun k hk h => ?_ }
    have hne : k ≠ key := fun hkey => hpath (hkey ▸ hk)
    simpa [Loading.keep, Library.cached?, hne] using h

theorem finishClass_snd (key : ModuleKey) (read : ReadClass)
    (bases : List LoadedClass) (s : Loading) :
    ∃ library, (finishClass plan key read bases s).2 = { (s.await (slotKeysOf read.cls plan.macros)).add key
          (finishClass plan key read bases s).1 with library } := by
  obtain ⟨library, hkeep⟩ := keepLoaded_library (s.await (slotKeysOf read.cls plan.macros)).takeNumber key
    (madeClass plan key read bases s.library.next)
  refine ⟨library, ?_⟩
  unfold finishClass
  dsimp only [madeClass] at hkeep ⊢
  rw [hkeep]
  rfl

variable (read : ReadClass) (bases : List LoadedClass)

theorem finishClass_cases
    (h : s.library.cached? key = none) {made : LoadedClass}
    (hmade : madeClass plan key read bases s.library.next = made) :
    finishClass plan key read bases s = (made, (s.await made.slotKeys).takeNumber.add key made) ∨
    (∀ b ∈ made.baseKeys, ∃ kept used, s.library.cached? b = some kept ∧
      s.loaded.lookup b = some used ∧ kept.module.id = used.module.id) ∧
    finishClass plan key read bases s =
      (made, ((s.await made.slotKeys).takeNumber.keep key made).add key made) := by
  unfold finishClass
  dsimp only
  rw [hmade]
  rcases keepLoaded_cases (s.await made.slotKeys).takeNumber key made with
    hkeep | ⟨kept, hkept, -⟩ | ⟨-, hcurrent, hkeep⟩
  · rw [hkeep]
    exact .inl rfl
  · have hnone : Library.cached? _ key = none := h
    exact absurd (hnone.symm.trans hkept) (by simp)
  · rw [hkeep]
    exact .inr ⟨hcurrent, rfl⟩

theorem finishClass_made
    (h : s.library.cached? key = none) :
    (finishClass plan key read bases s).2.loaded =
        setKey key (madeClass plan key read bases s.library.next) s.loaded ∧
      (finishClass plan key read bases s).2.waiting =
        (s.await (slotKeysOf read.cls plan.macros)).waiting := by
  rcases finishClass_cases plan read bases h rfl with heq | ⟨-, heq⟩ <;> rw [heq] <;> exact ⟨rfl, rfl⟩

theorem finishClass_spec
    (fresh : s.loaded.lookup key = none) (hpath : key ∉ path) :
    Extends path s (finishClass plan key read bases s).2 ∧ (finishClass plan key read bases s).2.loaded.lookup key =
        some (finishClass plan key read bases s).1 := by
  unfold finishClass
  refine ⟨?_, by simp [Loading.add]⟩
  have kept := ((extends_await path s (slotKeysOf read.cls plan.macros)).trans
    (extends_takeNumber path _)).trans (extends_keepLoaded _ hpath (madeClass plan key read bases s.library.next))
  refine kept.trans (extends_add _ ?_ hpath)
  obtain ⟨library, hkeep⟩ := keepLoaded_library (s.await (slotKeysOf read.cls plan.macros)).takeNumber key
    (madeClass plan key read bases s.library.next)
  rw [hkeep]
  exact fresh

/-! ## The steps of a load -/

theorem known?_eq_none (h : s.known? path key = none) :
    s.loaded.lookup key = none ∧ key ∉ s.failed ∧ key ∉ path ∧ s.library.cached? key = none := by
  unfold Loading.known? at h
  split at h
  · cases h
  · rename_i fresh
    split at h
    · cases h
    · rename_i hfailed
      split at h
      · cases h
      · rename_i hpath
        exact ⟨fresh, by simpa using hfailed, by simpa using hpath, Option.map_eq_none_iff.mp h⟩

theorem known?_eq_some {result : Option LoadedClass × Loading} (h : s.known? path key = some result) :
    (∃ c, s.loaded.lookup key = some c ∧ result = (some c, s)) ∨
    (key ∈ s.failed ∧ result = (none, s)) ∨
    (key ∈ path ∧ result = (none, s.report (.error (.cyclicInheritance key.name)))) ∨
    (s.loaded.lookup key = none ∧ key ∉ path ∧ ∃ c, s.library.cached? key = some c ∧
      result = (some c, (s.await c.dependencies).add key c)) := by
  unfold Loading.known? at h
  split at h
  · rename_i c hc
    cases h
    exact .inl ⟨c, hc, rfl⟩
  · rename_i fresh
    split at h
    · rename_i hfailed
      cases h
      exact .inr (.inl ⟨by simpa using hfailed, rfl⟩)
    · split at h
      · rename_i hpath
        cases h
        exact .inr (.inr (.inl ⟨by simpa using hpath, rfl⟩))
      · rename_i hpath
        obtain ⟨c, hc, rfl⟩ := Option.map_eq_some_iff.mp h
        exact .inr (.inr (.inr ⟨fresh, by simpa using hpath, c, hc, rfl⟩))

/-- Loading classes below a path, one after another until one fails. -/
inductive LoadsEach (plan : LoadPlan) : (fuel : Nat) → (path keys : List ModuleKey) → Loading →
    Option (List LoadedClass) → Loading → Prop
  | nil {fuel path s} : LoadsEach plan fuel path [] s (some []) s
  | loaded {fuel path keys key s t c found} : s.loaded.lookup key = some c → LoadsEach plan fuel path keys s found t →
      LoadsEach plan fuel path (key :: keys) s (found.map (c :: ·)) t
  | taken {fuel path keys key s t c found} : s.loaded.lookup key = none → key ∉ path →
      s.library.cached? key = some c →
      LoadsEach plan fuel path keys ((s.await c.dependencies).add key c) found t →
      LoadsEach plan fuel path (key :: keys) s (found.map (c :: ·)) t
  | failed {fuel path keys key s} : key ∈ s.failed → LoadsEach plan fuel path (key :: keys) s none s
  | cyclic {fuel path keys key s} : key ∈ path →
      LoadsEach plan fuel path (key :: keys) s none (s.report (.error (.cyclicInheritance key.name)))
  | tooDeep {path keys key s} : s.known? path key = none → LoadsEach plan 0 path (key :: keys) s none s.giveUp
  | unread {fuel path keys key s} : s.known? path key = none → (s.read plan key).1 = none →
      LoadsEach plan (fuel + 1) path (key :: keys) s none ((s.read plan key).2.fail key)
  | baseless {fuel path keys key s t r} : s.known? path key = none → (s.read plan key).1 = some r →
      LoadsEach plan fuel (key :: path) (baseKeysOf r.cls plan.macros) (s.read plan key).2 none t →
      LoadsEach plan (fuel + 1) path (key :: keys) s none (t.fail key)
  | made {fuel path keys key s t u r bases found} : s.known? path key = none → (s.read plan key).1 = some r →
      LoadsEach plan fuel (key :: path) (baseKeysOf r.cls plan.macros) (s.read plan key).2 (some bases) t →
      t.loaded.lookup key = none → t.library.cached? key = none →
      LoadsEach plan (fuel + 1) path keys (finishClass plan key r bases t).2 found u →
      LoadsEach plan (fuel + 1) path (key :: keys) s (found.map ((finishClass plan key r bases t).1 :: ·)) u

section

variable {plan : LoadPlan} {fuel : Nat} {path keys : List ModuleKey} {key : ModuleKey} {s t : Loading}
  {found : Option (List LoadedClass)}

theorem LoadsEach.frame (h : LoadsEach plan fuel path keys s found t) : Extends path s t := by
  induction h with
  | nil => exact .refl _ _
  | loaded _ _ ih => exact ih
  | taken fresh hpath _ _ ih => exact ((extends_await _ _ _).trans (extends_add _ fresh hpath)).trans ih
  | failed _ => exact .refl _ _
  | cyclic _ => exact extends_report _ _ _
  | tooDeep _ => exact extends_giveUp _ _
  | unread _ _ => exact (extends_read plan _ _ _).trans (extends_fail _ _ _)
  | baseless _ _ _ ih => exact ((extends_read plan _ _ _).trans ih.tail).trans (extends_fail _ _ _)
  | made hknown _ _ fresh _ _ ihbases ih =>
    obtain ⟨-, -, hpath, -⟩ := known?_eq_none hknown
    exact (((extends_read plan _ _ _).trans ihbases.tail).trans (finishClass_spec plan _ _ fresh hpath).1).trans ih

theorem loadEach_loads (plan : LoadPlan) (fuel : Nat) : ∀ (path keys : List ModuleKey) (s : Loading),
    LoadsEach plan fuel path keys s (loadEach (loadFrom plan fuel path) keys s).1
      (loadEach (loadFrom plan fuel path) keys s).2 := by
  induction fuel using Nat.strongRecOn with
  | ind fuel below =>
    intro path keys
    induction keys with
    | nil => exact fun s => .nil
    | cons key keys ih =>
      intro s
      rw [loadEach, loadFrom.eq_def]
      dsimp only
      cases hknown : s.known? path key with
      | some result =>
        rcases known?_eq_some hknown with ⟨c, hc, rfl⟩ | ⟨hfailed, rfl⟩ | ⟨hpath, rfl⟩ | ⟨fresh, hpath, c, hc, rfl⟩
        · exact .loaded hc (ih s)
        · exact .failed hfailed
        · exact .cyclic hpath
        · exact .taken fresh hpath hc (ih _)
      | none =>
        cases fuel with
        | zero => exact .tooDeep hknown
        | succ fuel =>
          obtain ⟨fresh, -, -, hcached⟩ := known?_eq_none hknown
          rcases hread : s.read plan key with ⟨_ | r, t⟩ <;>
            obtain rfl : (s.read plan key).2 = t := by rw [hread]
          · exact .unread hknown (by rw [hread])
          · have hbelow := below fuel (Nat.lt_succ_self fuel) (key :: path)
              (baseKeysOf r.cls plan.macros) (s.read plan key).2
            dsimp only
            rcases hbases : loadEach (loadFrom plan fuel (key :: path))
              (baseKeysOf r.cls plan.macros) (s.read plan key).2 with ⟨_ | bases, u⟩ <;>
              rw [hbases] at hbelow
            · exact .baseless hknown (by rw [hread]) hbelow
            · have hframe := hbelow.frame
              refine .made hknown (by rw [hread]) hbelow ?_ ?_ (ih _)
              · rw [hframe.onPath key mem_cons_self, read_loaded, fresh]
              · refine hframe.unkept key mem_cons_self ?_
                exact (extends_read plan key s [key]).unkept key mem_cons_self hcached

theorem loadFrom_loads (plan : LoadPlan) (fuel : Nat) (path : List ModuleKey) (key : ModuleKey) (s : Loading) :
    LoadsEach plan fuel path [key] s ((loadFrom plan fuel path key s).1.map fun c => [c])
      (loadFrom plan fuel path key s).2 := by
  have hloads := loadEach_loads plan fuel path [key] s
  rw [loadEach] at hloads
  rcases hone : loadFrom plan fuel path key s with ⟨_ | c, t⟩ <;> rw [hone] at hloads
  · exact hloads
  · exact hloads

namespace LoadsEach

theorem lookup (h : LoadsEach plan fuel path keys s found t) {cs : List LoadedClass}
    (hfound : found = some cs) : List.Forall₂ (fun k c => t.loaded.lookup k = some c) keys cs := by
  induction h generalizing cs with
  | nil =>
    cases hfound
    exact .nil
  | loaded hc hrest ih =>
    obtain ⟨rest, hr, rfl⟩ := Option.map_eq_some_iff.mp hfound
    exact .cons (hrest.frame.loaded _ _ hc) (ih hr)
  | taken _ _ _ hrest ih =>
    obtain ⟨rest, hr, rfl⟩ := Option.map_eq_some_iff.mp hfound
    exact .cons (hrest.frame.loaded _ _ (by simp [add])) (ih hr)
  | made hknown _ _ fresh _ hrest _ ih =>
    obtain ⟨rest, hr, rfl⟩ := Option.map_eq_some_iff.mp hfound
    obtain ⟨-, -, hpath, -⟩ := known?_eq_none hknown
    exact .cons (hrest.frame.loaded _ _ (finishClass_spec plan _ _ fresh hpath).2) (ih hr)
  | _ => cases hfound

theorem missing (h : LoadsEach plan fuel path keys s found t) (hnone : found = none) :
    ∃ k ∈ keys, k ∈ t.failed ∨ (k ∈ path ∧ t.log.hasErrors = true) ∨ t.exhausted = true := by
  induction h with
  | nil => cases hnone
  | loaded _ _ ih | taken _ _ _ _ ih | made _ _ _ _ _ _ _ ih =>
    obtain ⟨k, hk, hwhy⟩ := ih (Option.map_eq_none_iff.mp hnone)
    exact ⟨k, mem_cons_of_mem _ hk, hwhy⟩
  | failed hkey => exact ⟨_, mem_cons_self, .inl hkey⟩
  | cyclic hkey =>
    refine ⟨_, mem_cons_self, .inr (.inl ⟨hkey, ?_⟩)⟩
    simp [report, Log.hasErrors, Diagnostic.error]
  | tooDeep _ => exact ⟨_, mem_cons_self, .inr (.inr rfl)⟩
  | unread _ _ | baseless _ _ _ _ => exact ⟨_, mem_cons_self, .inl mem_cons_self⟩

theorem troubled (h : LoadsEach plan fuel path keys s none t) (ht : t.Reported) : t.Troubled := by
  obtain ⟨k, -, hk | ⟨-, hk⟩ | hk⟩ := h.missing rfl
  · exact ht (ne_nil_of_mem hk)
  · exact .inl hk
  · exact .inr hk

theorem reported (h : LoadsEach plan fuel path keys s found t) (hs : s.Reported) : t.Reported := by
  induction h with
  | nil => exact hs
  | loaded _ _ ih => exact ih hs
  | taken _ _ _ _ ih => exact ih (hs.of_log rfl id)
  | failed _ => exact hs
  | cyclic _ => exact hs.of_log rfl (extends_report [] _ _).troubled
  | tooDeep _ => exact fun _ => .inr rfl
  | unread _ hread => exact .fail (.inl (read_none hread)) _
  | baseless _ _ hbases ih =>
    exact .fail (hbases.troubled (ih (hs.of_log rfl (extends_read plan _ _ []).troubled))) _
  | @made _ _ _ key s t _ r bases _ _ _ _ _ _ _ ihbases ih =>
    have hreported := ihbases (hs.of_log rfl (extends_read plan key s []).troubled)
    obtain ⟨_, hsnd⟩ := finishClass_snd plan key r bases t
    refine ih (hreported.of_log ?_ fun htrouble => ?_) <;> rw [hsnd]
    · rfl
    · exact htrouble

theorem isSettled (h : LoadsEach plan fuel [] [key] s found t) : t.exhausted = true ∨ t.isSettled key = true := by
  unfold Loading.isSettled
  rw [Bool.or_eq_true]
  cases hfound : found with
  | some cs =>
    cases h.lookup hfound with
    | cons hkey _ => exact .inr (.inl (by rw [hkey, Option.isSome_some]))
  | none =>
    obtain ⟨k, hk, hwhy⟩ := h.missing hfound
    rw [mem_singleton.mp hk] at hwhy
    rcases hwhy with hfailed | ⟨hpath, -⟩ | hexhausted
    · exact .inr (.inr (contains_iff_mem.mpr hfailed))
    · exact absurd hpath not_mem_nil
    · exact .inl hexhausted

end LoadsEach

theorem loadMixin_cases (plan : LoadPlan) (fuel : Nat) (refs : List ClassRef) (s : Loading) :
    ((s.loaded.lookup (mixinKey refs plan.macros)).isSome = true ∧ loadMixin plan fuel refs s = s) ∨
    s.loaded.lookup (mixinKey refs plan.macros) = none ∧
      ∃ found t, LoadsEach plan fuel [] (refs.map fun r => r.key plan.macros) s found t ∧
        ((found = none ∧ loadMixin plan fuel refs s = t) ∨ ∃ bases, found = some bases ∧ loadMixin plan fuel refs s =
            t.takeNumber.add (mixinKey refs plan.macros)
              (madeMixin plan.macros refs bases t.library.next)) := by
  unfold loadMixin
  dsimp only
  split
  · next hloaded => exact .inl ⟨hloaded, rfl⟩
  · next hloaded =>
    refine .inr ⟨Option.not_isSome_iff_eq_none.mp hloaded, _, _, loadEach_loads plan fuel [] _ s, ?_⟩
    generalize loadEach (loadFrom plan fuel []) (refs.map fun r => r.key plan.macros) s = all
    obtain ⟨_ | bases, t⟩ := all
    · exact .inl ⟨rfl, rfl⟩
    · exact .inr ⟨bases, rfl, rfl⟩

end

end ShaderCompose
