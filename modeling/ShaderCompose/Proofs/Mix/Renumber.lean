import ShaderCompose.Check.Body
import ShaderCompose.Mix.Emit
import ShaderCompose.Proofs.Compose.Renumber

/-!
Checking and mixing do not look at numbers.
-/

namespace ShaderCompose

open List

variable {f : Nat → Nat}

theorem Context.slotTable?_renumber (f : Nat → Nat) (c : Context) : (c.renumber f).slotTable? = c.slotTable? :=
  funext fun _ => c.table?_renumber f _

theorem Check.classLog_renumber (f : Nat → Nat) (c : Context) (k : KnownClass) :
    classLog (c.renumber f) (k.renumber f) = classLog c k := by
  have hmethod : methodLog (c.renumber f) = methodLog c := by
    funext table d
    unfold methodLog
    rw [c.slotTable?_renumber f]
    rfl
  have hcls : (k.renumber f).loaded.cls = k.loaded.cls := Module.cls_renumber f k.loaded.module
  unfold classLog
  rw [hmethod, hcls]
  rfl

theorem Context.log_renumber (f : Nat → Nat) (c : Context) : (c.renumber f).log = c.log := by
  have hdeclarations : (c.renumber f).declarationLog = c.declarationLog := by
    rw [declarationLog, renumber, flatMap_map]
    rfl
  have hbodies : (c.renumber f).bodyLog = c.bodyLog := by
    rw [bodyLog, renumber, flatMap_map]
    exact congrArg (fun log => c.classes.flatMap log) (funext (Check.classLog_renumber f c))
  rw [log, log, hdeclarations, hbodies]

namespace Mix

def FilledSlot.renumber (f : Nat → Nat) (slot : FilledSlot) : FilledSlot :=
  { slot with values := slot.values.map (Module.renumber f) }

theorem filledSlots_renumber (hf : Function.Injective f) (filled : Composition) (m : Module) :
    filledSlots (filled.renumber f) (m.renumber f) =
      (filledSlots filled m).map (FilledSlot.renumber f) := by
  unfold filledSlots
  rw [Module.hierarchy_renumber, flatMap_map, map_flatMap]
  refine congrArg (fun slots => m.hierarchy.flatMap slots) (funext fun base => ?_)
  rw [Module.cls_renumber, Module.id_renumber, map_filterMap]
  refine congrArg (fun slot => base.cls.vars.filterMap slot) (funext fun entry => ?_)
  obtain ⟨id, d⟩ := entry
  have hlookup : (filled.renumber f).lookup ⟨f base.id, id⟩ =
      (filled.lookup ⟨base.id, id⟩).map (List.map (Module.renumber f)) :=
    Composition.lookup_renumber hf filled ⟨base.id, id⟩
  dsimp only
  rw [hlookup]
  split
  · rw [Option.map_map]
    refine congrArg (fun slot => d.varType?.map slot) (funext fun type => ?_)
    cases filled.lookup ⟨base.id, id⟩ <;> rfl
  · rfl

section

variable {add add' : Module → (label keySuffix : String) → Collecting → Option Nat × Collecting}
  (hadd : ∀ m label keySuffix s, add' (m.renumber f) label keySuffix s = add m label keySuffix s)

include hadd

theorem collectValues_renumber (slot : FilledSlot) (outer : String) :
    ∀ (ms : List Module) (position : Nat) (s : Collecting),
      collectValues add' (slot.renumber f) outer position (ms.map (Module.renumber f)) s =
        collectValues add slot outer position ms s := by
  intro ms
  induction ms with
  | nil => exact fun _ _ => rfl
  | cons m ms ih =>
    intro position s
    have hexpected : (slot.renumber f).expected = slot.expected := rfl
    have hsuffix : (slot.renumber f).keySuffix outer position = slot.keySuffix outer position := rfl
    rw [map_cons, collectValues, collectValues, Module.inherits_renumber, Module.name_renumber, hexpected, hsuffix]
    split
    · dsimp only
      rw [hadd]
      generalize add m _ (slot.keySuffix outer position) s = one
      obtain ⟨number, t⟩ := one
      cases number with
      | none => rfl
      | some number =>
        dsimp only
        rw [ih]
    · exact ih _ _

theorem collectSlots_renumber (outer : String) : ∀ (slots : List FilledSlot) (s : Collecting),
    collectSlots add' outer (slots.map (FilledSlot.renumber f)) s =
      collectSlots add outer slots s := by
  intro slots
  induction slots with
  | nil => exact fun _ => rfl
  | cons slot slots ih =>
    intro s
    rw [map_cons, collectSlots, collectSlots,
      show (slot.renumber f).values = slot.values.map (Module.renumber f) from rfl,
      collectValues_renumber hadd slot outer slot.values 0 s]
    generalize collectValues add slot outer 0 slot.values s = all
    obtain ⟨numbers, t⟩ := all
    cases numbers with
    | none => rfl
    | some numbers =>
      dsimp only
      rw [ih]
      rfl

end

theorem collect_renumber (hf : Function.Injective f) (c : Context) (filled : Composition) :
    ∀ (depth : Nat) (m : Module) (label keySuffix : String) (s : Collecting),
      collect (c.renumber f) (filled.renumber f) depth (m.renumber f) label keySuffix s =
        collect c filled depth m label keySuffix s := by
  intro depth
  induction depth with
  | zero => exact fun _ _ _ _ => rfl
  | succ depth ih =>
    intro m label keySuffix s
    rw [collect, collect, Module.key_renumber, Context.table?_renumber, Module.name_renumber, filledSlots_renumber hf]
    cases c.table? m.key with
    | none => rfl
    | some table =>
      dsimp only
      rw [collectSlots_renumber ih]

theorem instancesOf_renumber (hf : Function.Injective f) (c : Context) (filled : Composition) (root : Module) :
    instancesOf (c.renumber f) (filled.renumber f) (root.renumber f) = instancesOf c filled root := by
  have hlength : (filled.renumber f).length = filled.length := length_map _
  rw [instancesOf, instancesOf, hlength, collect_renumber hf]

end Mix

theorem mix_renumber (hf : Function.Injective f) (c : Context) (filled : Composition) (root : Module) :
    mix (c.renumber f) (filled.renumber f) (root.renumber f) = mix c filled root := by
  rw [mix, Mix.instancesOf_renumber hf]
  rfl

end ShaderCompose
