import ShaderCompose.Proofs.Check.Context
import ShaderCompose.Proofs.Module.Copy
import ShaderCompose.Compose.Resolve

/-!
Composition does not look at numbers (`Context.compose_renumber`).
-/

namespace ShaderCompose

open List

/-- Different numbers stay different, and fresh ones keep their order. -/
structure Renumbers (f : Nat → Nat) (next : Nat) : Prop where
  injective : Function.Injective f
  shift : ∀ n, f (next + n) = f next + n

variable {f : Nat → Nat}

theorem Renumbers.mono {next more : Nat} (h : Renumbers f next)
    (hle : next ≤ more) : Renumbers f more where
  injective := h.injective
  shift n := by
    obtain ⟨k, rfl⟩ := Nat.exists_eq_add_of_le hle
    rw [Nat.add_assoc, h.shift, h.shift, Nat.add_assoc]

theorem Renumbers.succ {next : Nat} (h : Renumbers f next) : f (next + 1) = f next + 1 := h.shift 1

def CopyScope.renumber (f : Nat → Nat) (s : CopyScope) : CopyScope where
  own := s.own.map (Prod.map f (Module.renumber f))
  outer := s.outer.map (List.map (Prod.map f (Module.renumber f)))

def Copying.renumber (f : Nat → Nat) (s : Copying) : Copying := ⟨s.scope.renumber f, f s.next⟩

section

variable {f : Nat → Nat}

theorem CopyScope.child_renumber (s : CopyScope) : (s.renumber f).child = s.child.renumber f := rfl

theorem CopyScope.find?_renumber (hf : Function.Injective f) (s : CopyScope) (id : Nat) :
    (s.renumber f).find? (f id) = (s.find? id).map (Module.renumber f) := by
  have hall : ∀ all : List Copies,
      (all.map (List.map (Prod.map f (Module.renumber f)))).findSome? (fun c => c.lookup (f id)) =
        (all.findSome? fun c => c.lookup id).map (Module.renumber f) := by
    intro all
    rw [findSome?_map, map_findSome?]
    refine congrArg (fun found => List.findSome? found all) (funext fun copies => ?_)
    exact lookup_map hf (Module.renumber f) id copies
  exact hall (s.own :: s.outer)

theorem CopyScope.record_renumber (hf : Function.Injective f) (s : CopyScope) (id : Nat) (copy : Module) :
    (s.renumber f).record (f id) (copy.renumber f) = (s.record id copy).renumber f := by
  simp only [record, renumber, map_setKey hf, Module.id_renumber]

theorem CopyScope.keep_renumber (hf : Function.Injective f) (s : CopyScope) (m : Module) :
    (s.renumber f).keep (m.renumber f) = (s.keep m).renumber f := by
  simp only [keep, renumber, map_setKey hf, Module.id_renumber]

namespace Module

mutual

theorem copy_renumber : ∀ (m : Module) (s : Copying), Renumbers f s.next → s.next ≤ (m.copy s).2.next ∧
      (m.renumber f).copy (s.renumber f) = ((m.copy s).1.renumber f, (m.copy s).2.renumber f)
  | ⟨id, key, cls, bases, digest⟩, s, hf => by
    have hfind := CopyScope.find?_renumber hf.injective s.scope id
    rw [renumber, copy, copy, Copying.renumber]
    rw [hfind]
    cases s.scope.find? id with
    | some m => exact ⟨Nat.le_refl _, rfl⟩
    | none =>
      obtain ⟨hle, hbases⟩ := copyAll_renumber bases s hf
      have hmade := (hf.mono hle).succ
      rw [Copying.renumber, ← renumberAll_eq_map] at hbases
      simp only [Option.map_none, hbases]
      refine ⟨Nat.le_succ_of_le hle, ?_⟩
      simp only [Copying.renumber, hmade, ← CopyScope.record_renumber hf.injective, renumber, renumberAll_eq_map]

theorem copyAll_renumber : ∀ (ms : List Module) (s : Copying), Renumbers f s.next → s.next ≤ (copyAll ms s).2.next ∧
      copyAll (ms.map (renumber f)) (s.renumber f) = ((copyAll ms s).1.map (renumber f), (copyAll ms s).2.renumber f)
  | [], s, _ => ⟨Nat.le_refl _, rfl⟩
  | m :: ms, s, hf => by
    obtain ⟨hle, hfirst⟩ := copy_renumber m s hf
    obtain ⟨hle', hrest⟩ := copyAll_renumber ms (m.copy s).2 (hf.mono hle)
    rw [map_cons, copyAll, copyAll]
    simp only [hfirst, hrest, map_cons]
    exact ⟨Nat.le_trans hle hle', trivial⟩

end

end Module

end

theorem MemberTable.ofModule_renumber (f : Nat → Nat) (m : Module) : ofModule (m.renumber f) = ofModule m := by
  have hname : Module.name ∘ Module.renumber f = Module.name := funext (Module.name_renumber f)
  have hcls : Module.cls ∘ Module.renumber f = Module.cls := funext (Module.cls_renumber f)
  have hshared : ∀ (bases : List Module) (a b : String),
      sharedBy (bases.map (Module.renumber f)) a b = sharedBy bases a b := by
    intro bases a b
    simp [sharedBy, Function.comp_def]
  simp only [ofModule, Module.hierarchy_renumber, Module.name_renumber, length_map,
    ← map_take, hshared, getElem?_map, Option.map_map, map_map, hname, hcls]

def LoadedClass.renumber (f : Nat → Nat) (c : LoadedClass) : LoadedClass :=
  { c with module := c.module.renumber f }

@[simp] theorem LoadedClass.key_renumber (f : Nat → Nat) (c : LoadedClass) :
    (c.renumber f).key = c.key := by simp [renumber, key]

def KnownClass.renumber (f : Nat → Nat) (k : KnownClass) : KnownClass :=
  { k with loaded := k.loaded.renumber f }

theorem LoadedClass.known_renumber (f : Nat → Nat) (c : LoadedClass) : (c.renumber f).known = c.known.renumber f := by
  simp [known, renumber, KnownClass.renumber, MemberTable.ofModule_renumber]

namespace Context

variable {f : Nat → Nat}

def renumber (f : Nat → Nat) (c : Context) : Context :=
  { c with classes := c.classes.map (KnownClass.renumber f) }

theorem find?_renumber (f : Nat → Nat) (c : Context) (key : ModuleKey) :
    (c.renumber f).find? key = (c.find? key).map (KnownClass.renumber f) := by
  have hkey : ((fun k : KnownClass => k.loaded.key == key) ∘ KnownClass.renumber f) = fun k => k.loaded.key == key :=
    funext fun k => by simp [KnownClass.renumber]
  rw [find?, renumber, find?_map, hkey]
  rfl

@[simp] theorem table?_renumber (f : Nat → Nat) (c : Context) (key : ModuleKey) :
    (c.renumber f).table? key = c.table? key := by
  simp [table?, find?_renumber, Function.comp_def, KnownClass.renumber]

theorem shareStageModules_renumber (c : Context) {s : Copying} (hf : Renumbers f s.next) :
    s.next ≤ (c.shareStageModules s).next ∧
      (c.renumber f).shareStageModules (s.renumber f) = (c.shareStageModules s).renumber f := by
  have fold : ∀ (classes : List KnownClass) (s : Copying), Renumbers f s.next →
      s.next ≤ (classes.foldl (fun s k => (k.loaded.module.copy s).2) s).next ∧
        (classes.map (KnownClass.renumber f)).foldl (fun s k => (k.loaded.module.copy s).2) (s.renumber f) =
          (classes.foldl (fun s k => (k.loaded.module.copy s).2) s).renumber f := by
    intro classes
    induction classes with
    | nil => exact fun s _ => ⟨Nat.le_refl _, rfl⟩
    | cons k classes ih =>
      intro s hf
      obtain ⟨hle, hcopy⟩ := Module.copy_renumber k.loaded.module s hf
      obtain ⟨hle', hrest⟩ := ih (k.loaded.module.copy s).2 (hf.mono hle)
      refine ⟨Nat.le_trans hle hle', ?_⟩
      rw [map_cons, foldl_cons, foldl_cons, ← hrest]
      simp only [KnownClass.renumber, LoadedClass.renumber, hcopy]
  have hfilter : (c.renumber f).classes.filter (fun k => k.loaded.module.isStageOnly) =
      (c.classes.filter fun k => k.loaded.module.isStageOnly).map (KnownClass.renumber f) := by
    simp [renumber, filter_map, Function.comp_def, KnownClass.renumber, LoadedClass.renumber]
  unfold shareStageModules
  rw [hfilter]
  exact fold _ s hf

end Context

def SlotKey.renumber (f : Nat → Nat) (k : SlotKey) : SlotKey := { k with instanceId := f k.instanceId }

theorem SlotKey.renumber_injective (hf : Function.Injective f) :
    Function.Injective (SlotKey.renumber f) := by
  rintro ⟨i, d⟩ ⟨j, e⟩ h
  simp only [renumber, SlotKey.mk.injEq] at h ⊢
  exact ⟨hf h.1, h.2⟩

def Composition.renumber (f : Nat → Nat) (filled : Composition) : Composition :=
  filled.map (Prod.map (SlotKey.renumber f) (List.map (Module.renumber f)))

theorem Composition.lookup_renumber (hf : Function.Injective f)
    (filled : Composition) (key : SlotKey) :
    (filled.renumber f).lookup (key.renumber f) = (filled.lookup key).map (List.map (Module.renumber f)) :=
  lookup_map (SlotKey.renumber_injective hf) _ key filled

namespace Composing

def renumber (f : Nat → Nat) (s : Composing) : Composing where
  filled := Composition.renumber f s.filled
  log := s.log
  made := s.made.map (Module.renumber f)
  next := f s.next

theorem fill_renumber {f : Nat → Nat} (hf : Function.Injective f) (s : Composing) (slot : String)
    (key : SlotKey) (values : List Module) :
    (s.renumber f).fill slot (key.renumber f) (values.map (Module.renumber f)) =
      (s.fill slot key values).renumber f := by
  have hlookup : ((s.renumber f).filled.lookup (key.renumber f)).isSome = (s.filled.lookup key).isSome := by
    simp only [renumber, Composition.lookup_renumber hf, Option.isSome_map]
  unfold fill
  rw [hlookup]
  split
  · rfl
  · simp [renumber, Composition.renumber]

theorem fill_next (s : Composing) (slot : String) (key : SlotKey) (values : List Module) :
    (s.fill slot key values).next = s.next := by
  unfold fill
  split <;> rfl

end Composing

theorem Module.slot?_renumber (f : Nat → Nat) (m : Module) (name : String) :
    (m.renumber f).slot? name = (m.slot? name).map (SlotKey.renumber f) := by
  unfold Module.slot?
  rw [hierarchy_renumber, ← map_reverse, findSome?_map, map_findSome?]
  refine congrArg (fun found => List.findSome? found m.hierarchy.reverse) (funext fun base => ?_)
  simp only [Function.comp_apply, cls_renumber, id_renumber, Option.map_bind]
  refine congrArg _ (funext fun id => ?_)
  change (if _ then some _ else none) = Option.map _ (if _ then some _ else none)
  split <;> rfl

namespace Context

variable {f : Nat → Nat}

theorem instance?_renumber (c : Context) (scope : CopyScope) (r : Request) {s : Composing} (hf : Renumbers f s.next) :
    s.next ≤ (c.instance? scope r s).2.next ∧ (c.renumber f).instance? (scope.renumber f) r (s.renumber f) =
        ((c.instance? scope r s).1.map (Module.renumber f),
          (c.instance? scope r s).2.renumber f) := by
  unfold instance?
  rw [show (c.renumber f).macros = c.macros from rfl]
  cases r.key? c.macros with
  | none => exact ⟨Nat.le_refl _, rfl⟩
  | some key =>
    simp only [find?_renumber]
    cases c.find? key with
    | none => exact ⟨Nat.le_refl _, rfl⟩
    | some k =>
      obtain ⟨hle, hcopy⟩ := Module.copy_renumber k.loaded.module ⟨scope.child, s.next⟩ hf
      refine ⟨hle, ?_⟩
      simp only [Option.map_some, KnownClass.renumber, LoadedClass.renumber]
      have hcopy : (k.loaded.module.renumber f).copy ⟨(scope.renumber f).child, (s.renumber f).next⟩ = _ := hcopy
      rw [hcopy]
      simp [Composing.renumber, Copying.renumber]

mutual

theorem compose_renumber (c : Context) (o : Options) (scope : CopyScope) :
    ∀ (r : Request) (s : Composing), Renumbers f s.next → s.next ≤ (c.compose o scope r s).2.next ∧
        (c.renumber f).compose o (scope.renumber f) r (s.renumber f) =
          ((c.compose o scope r s).1.map (List.map (Module.renumber f)), (c.compose o scope r s).2.renumber f)
  | .single cls, s, hf => by
    obtain ⟨hle, hinstance⟩ := c.instance?_renumber scope (.single cls) hf
    rw [compose, compose, hinstance]
    refine ⟨hle, ?_⟩
    simp [Function.comp_def]
  | .mixin bases slots macros, s, hf => by
    obtain ⟨hle, hinstance⟩ := c.instance?_renumber scope (.mixin bases slots macros) hf
    rw [compose, compose, hinstance]
    generalize c.instance? scope (.mixin bases slots macros) s = one at hle ⊢
    obtain ⟨m, t⟩ := one
    cases m with
    | none => exact ⟨hle, rfl⟩
    | some m =>
      obtain ⟨hle', hslots⟩ := composeSlots_renumber c o scope m slots t (hf.mono hle)
      simp only [Option.map_some, hslots]
      generalize c.composeSlots o scope m slots t = all at hle' ⊢
      obtain ⟨found, u⟩ := all
      refine ⟨?_, ?_⟩
      · cases found <;> exact Nat.le_trans hle hle'
      · cases found <;> rfl
  | .array values, s, hf => by
    exact composeValues_renumber c o scope values s hf

theorem composeSlots_renumber (c : Context) (o : Options) (scope : CopyScope) (m : Module) :
    ∀ (slots : List (String × Request)) (s : Composing), Renumbers f s.next →
      s.next ≤ (c.composeSlots o scope m slots s).2.next ∧
        (c.renumber f).composeSlots o (scope.renumber f) (m.renumber f) slots (s.renumber f) =
          ((c.composeSlots o scope m slots s).1, (c.composeSlots o scope m slots s).2.renumber f)
  | [], s, _ => ⟨Nat.le_refl _, rfl⟩
  | (slot, value) :: rest, s, hf => by
    rw [composeSlots, composeSlots, Module.slot?_renumber]
    cases m.slot? slot with
    | none =>
      simp only [Module.name_renumber]
      cases o.warnUnknownSlot with
      | false => exact composeSlots_renumber c o scope m rest s hf
      | true => exact composeSlots_renumber c o scope m rest (s.report _) hf
    | some key =>
      obtain ⟨hle, hvalue⟩ := compose_renumber c o scope value s hf
      simp only [hvalue]
      generalize c.compose o scope value s = one at hle ⊢
      obtain ⟨values, t⟩ := one
      cases values with
      | none => exact ⟨hle, rfl⟩
      | some values =>
        have hnext := t.fill_next slot key values
        obtain ⟨hle', hrest⟩ := composeSlots_renumber c o scope m rest (t.fill slot key values) (hnext ▸ hf.mono hle)
        simp only [Option.map_some, Composing.fill_renumber hf.injective, hrest]
        exact ⟨Nat.le_trans hle (hnext ▸ hle'), trivial⟩

theorem composeValues_renumber (c : Context) (o : Options) (scope : CopyScope) :
    ∀ (values : List Request) (s : Composing), Renumbers f s.next →
      s.next ≤ (c.composeValues o scope values s).2.next ∧
        (c.renumber f).composeValues o (scope.renumber f) values (s.renumber f) =
          ((c.composeValues o scope values s).1.map (List.map (Module.renumber f)),
            (c.composeValues o scope values s).2.renumber f)
  | [], s, _ => ⟨Nat.le_refl _, rfl⟩
  | value :: rest, s, hf => by
    obtain ⟨hle, hvalue⟩ := compose_renumber c o scope value s hf
    rw [composeValues, composeValues, hvalue]
    generalize c.compose o scope value s = one at hle ⊢
    obtain ⟨ms, t⟩ := one
    cases ms with
    | none => exact ⟨hle, rfl⟩
    | some ms =>
      obtain ⟨hle', hrest⟩ := composeValues_renumber c o scope rest t (hf.mono hle)
      simp only [Option.map_some, hrest]
      refine ⟨Nat.le_trans hle hle', ?_⟩
      simp [Function.comp_def]

end

end Context

end ShaderCompose
