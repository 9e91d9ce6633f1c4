import ShaderCompose.Proofs.Engine.Reachable
import ShaderCompose.Proofs.Reader.Layout

/-!
Where the classes of modules come from.
-/

namespace ShaderCompose

open List ShaderCompose.Module

def Module.IsMixin (m : Module) : Prop :=
  ∃ refs macros, m.key = mixinKey refs macros ∧ m.cls = mixinClass m.key refs

def Module.Sourced (m : Module) : Prop :=
  (∃ plan store file read, (classOfFile plan store m.key file).1 = some read ∧ m.cls = read.cls) ∨ m.IsMixin

theorem Module.Sourced.layout {m : Module} (h : m.Sourced) : m.cls.Layout := by
  rcases h with ⟨plan, store, found, read, hread, hcls⟩ | ⟨refs, macros, -, hcls⟩
  · obtain ⟨file, text, -, -, htext⟩ := classOfFile_eq_some hread
    obtain ⟨cls, hsource, -, hmade, -⟩ := classOfText_eq_some htext
    have hmem : cls ∈ (Reader.source text file.fileName).1 := by simp [hsource]
    rw [hcls]
    exact ShaderClass.instantiate_layout hmade (Reader.source_layout hmem)
  · rw [hcls]
    refine ⟨?_, rfl, ?_⟩
    · exact fun id hid => absurd hid not_mem_nil
    · exact fun id d hid => absurd hid not_mem_nil

def Module.SourcedBy (fill : Bool) (m : Module) : Prop :=
  (∃ plan store file read, plan.fill = fill ∧ (classOfFile plan store m.key file).1 = some read ∧
    m.cls = read.cls) ∨ m.IsMixin

theorem Module.SourcedBy.sourced {fill : Bool} {m : Module} (h : m.SourcedBy fill) : m.Sourced :=
  h.imp_left fun ⟨plan, store, file, read, _, hread, hcls⟩ => ⟨plan, store, file, read, hread, hcls⟩

def Loading.AllSourced (fill : Bool) (s : Loading) : Prop := ∀ a : Module, a.Among s.modules → a.SourcedBy fill

namespace Loading.AllSourced

variable {fill : Bool} {s t : Loading}

theorem mono (h : s.AllSourced fill) (hmodules : t.modules ⊆ s.modules) : t.AllSourced fill := by
  rintro a ⟨m, hm, hpart⟩
  exact h a ⟨m, hmodules hm, hpart⟩

end Loading.AllSourced

theorem loadBy_sourced (plan : LoadPlan) {l : Library} (h : ({ library := l } : Loading).AllSourced plan.fill)
    (r : Request) : (l.loadBy plan r).AllSourced plan.fill := by
  intro a ha
  refine loadBy_among ?_ ?_ h r ha
  · exact fun store file key read bases n hread _ => .inl ⟨plan, store, file, read, rfl, hread, rfl⟩
  · exact fun refs bases n _ => .inr ⟨refs, plan.macros, rfl, rfl⟩

namespace Engine

theorem Reachable.kept_sourced {e : Engine} (h : e.Reachable) :
    ({ library := e.library } : Loading).AllSourced e.options.fillGenerics := by
  have loaded : ∀ {e : Engine} (r : Request) (macros : List MacroDef),
      ({ library := e.library } : Loading).AllSourced e.options.fillGenerics →
      ({ library := (e.loaded r macros).library } : Loading).AllSourced e.options.fillGenerics := by
    intro e r macros h
    refine (loadBy_sourced (e.plan r macros) h r).mono ?_
    exact append_subset.mpr ⟨fun _ hm => mem_append_left _ hm, nil_subset _⟩
  induction h with
  | new store options =>
    rintro a ⟨m, hm, -⟩
    exact absurd hm not_mem_nil
  | addBuiltin source _ hadd ih =>
    obtain ⟨text, classes, rfl⟩ := addBuiltin_ok hadd
    exact ih.mono fun _ hm => hm
  | compile r macros _ ih =>
    rw [compile_engine]
    exact loaded r macros ih
  | analyze r macros _ ih =>
    rw [Engine.analyze, check_engine]
    exact loaded r macros ih
  | evict names _ ih =>
    refine ih.mono (append_subset.mpr ⟨fun m hm => mem_append_left _ ?_, nil_subset _⟩)
    exact Cache.modules_subset (Library.evict_cache_subset _ names) hm
  | edit store _ ih => exact ih.mono fun _ hm => hm

theorem Reachable.sourcedBy {e : Engine} (h : e.Reachable) (r : Request) (macros : List MacroDef) :
    (e.loading r macros).AllSourced e.options.fillGenerics :=
  loadBy_sourced (e.plan r macros) h.kept_sourced r

theorem Reachable.sourced {e : Engine} (h : e.Reachable) (r : Request) (macros : List MacroDef) {a : Module}
    (ha : a.Among (e.loading r macros).modules) : a.Sourced :=
  (h.sourcedBy r macros a ha).sourced

end Engine

end ShaderCompose
