import ShaderCompose.Proofs.Engine.Linked
import ShaderCompose.Proofs.Mix.Complaints

/-!
Values and the types of their slots. A slot expects a class by a name made from its type.
-/

namespace ShaderCompose

open List

theorem ShaderClass.instantiate_name {c made : ShaderClass} {args : List String} {fill : Bool}
    (h : c.instantiate args fill = .ok made) :
    made.name = (if args.isEmpty then c.name else instanceName c.name args) ∨
      fill = true ∧ args.length < c.generics.length ∧
        made.name = instanceName c.name (args ++ (c.generics.drop args.length).map GenericParam.defaultText) := by
  unfold instantiate at h
  split at h
  · cases h
  · split at h
    · next hempty =>
      cases h
      simp only [Bool.and_eq_true] at hempty
      exact .inl (by rw [if_pos hempty.2])
    · next hsome =>
      cases hargs : c.completeArgs args fill with
      | error m =>
        rw [hargs] at h
        cases h
      | ok complete =>
        cases hσ : c.bindArgs complete with
        | error m =>
          simp only [bind, Except.bind, hargs, hσ] at h
          cases h
        | ok σ =>
          simp only [bind, Except.bind, hargs, hσ] at h
          cases h
          unfold completeArgs at hargs
          split at hargs
          · next hlength =>
            cases hargs
            have hne : args.isEmpty = false := by
              cases args with
              | nil => simp_all [length_eq_zero_iff.mp hlength.symm]
              | cons => rfl
            exact .inl (by rw [hne]; rfl)
          · split at hargs
            · next hfill =>
              cases hargs
              simp only [Bool.and_eq_true, decide_eq_true_eq] at hfill
              exact .inr ⟨hfill.1, hfill.2, rfl⟩
            · cases hargs

namespace Module

def NamesApart (m : Module) : Prop := ∀ a b, Part a m → Part b m → a.name = b.name → a = b

theorem part_renumber {f : Nat → Nat} {a m : Module} (h : Part a (m.renumber f)) :
    ∃ p, Part p m ∧ a = p.renumber f := by
  generalize hm : m.renumber f = n at h
  induction h generalizing m with
  | self => exact ⟨m, .self m, hm.symm⟩
  | @base b n hb _ ih =>
    subst hm
    rw [bases_renumber] at hb
    obtain ⟨base, hbase, rfl⟩ := mem_map.mp hb
    obtain ⟨p, hp, rfl⟩ := ih rfl
    exact ⟨p, .base hbase hp, rfl⟩

theorem NamesApart.inherits_iff {m : Module} (h : m.NamesApart) {name : String} :
    m.inherits name = true ↔ ∃ a, Part a m ∧ a.name = name := by
  rw [inherits, any_eq_true]
  constructor
  · rintro ⟨a, ha, hname⟩
    exact ⟨a, part_of_mem_hierarchy ha, eq_of_beq hname⟩
  · rintro ⟨a, ha, rfl⟩
    exact ⟨a, ha.mem_hierarchy h, beq_self_eq_true _⟩

end Module

namespace Mix

def FilledSlot.key (slot : FilledSlot) (macros : List MacroDef) : ModuleKey :=
  ClassRef.key ⟨slot.type.name, slot.type.template⟩ macros

def FilledSlot.LeavesOut (slot : FilledSlot) (a : Module) : Prop :=
  ∃ source : ShaderClass, source.name = slot.type.name ∧ source.instantiate slot.type.template true = .ok a.cls ∧
    slot.type.template.length < source.generics.length ∧
    a.name = instanceName slot.type.name
      (slot.type.template ++ (source.generics.drop slot.type.template.length).map GenericParam.defaultText)

theorem FilledSlot.expected_or_leavesOut {slot : FilledSlot} {macros : List MacroDef} {a : Module} {fill : Bool}
    (h : a.SourcedBy fill) (hkey : a.key = slot.key macros) :
    a.name = slot.expected ∨ fill = true ∧ slot.LeavesOut a := by
  rcases h with ⟨plan, store, file, read, rfl, hread, hcls⟩ | ⟨refs, macros', hmixin, hcls⟩
  · obtain ⟨file, text, -, -, htext⟩ := classOfFile_eq_some hread
    obtain ⟨source, -, hname, hmade, -⟩ := classOfText_eq_some htext
    rw [hkey] at hname hmade
    rw [← hcls] at hmade
    rcases ShaderClass.instantiate_name hmade with hgiven | ⟨hfill, hlength, hfilled⟩
    · rw [hname] at hgiven
      exact .inl hgiven
    · rw [hname] at hfilled
      rw [hfill] at hmade
      exact .inr ⟨hfill, source, hname, hmade, hlength, hfilled⟩
  · rw [hkey] at hmixin hcls
    have htemplate : slot.type.template = [] := (ModuleKey.mk.inj hmixin).2.1
    left
    rw [Module.name, hcls, FilledSlot.expected, htemplate]
    rfl

end Mix

namespace Engine

open Mix

variable {e : Engine} {r : Request} {macros : List MacroDef}

/-- A value of the class its slot asks for is accepted, unless arguments are filled in or names
shared. -/
theorem slot_types_accepted (h : e.Reachable) {root : Module}
    (hroot : ((e.loaded r macros).composed (e.contextOf r macros) r).1 = some [root]) :
    let filled := ((e.loaded r macros).composed (e.contextOf r macros) r).2.filled
    let collected := instancesOf (e.contextOf r macros) filled root
    (∀ d ∈ collected.2, isMismatch d = true →
      ∃ slot v, Collects filled root slot v ∧ v.inherits slot.expected = false ∧ d = slot.mismatch v) ∧
    (collected.1.isSome = true → ∀ slot v, Collects filled root slot v → v.inherits slot.expected = false →
      slot.mismatch v ∈ collected.2) ∧
    ∀ slot v, Collects filled root slot v → ∀ a, Module.Part a v →
      a.key = slot.key (e.contextOf r macros).macros →
      (a.name = slot.expected ∨ e.options.fillGenerics = true ∧ slot.LeavesOut a) ∧
      (a.name = slot.expected → a = v ∨ v.NamesApart → v.inherits slot.expected = true) ∧
      (v.NamesApart → (v.inherits slot.expected = true ↔ ∃ b, Module.Part b v ∧ b.name = slot.expected)) := by
  intro filled collected
  obtain ⟨honly, hall⟩ := mem_log_instancesOf (e.contextOf r macros) filled root
  refine ⟨fun d hd hmismatch => complains_mismatch_iff.mp ⟨honly d hd, hmismatch⟩, ?_, ?_⟩
  · intro hsome slot v hv hinherits
    exact hall hsome _ (complains_mismatch_iff.mpr ⟨slot, v, hv, hinherits, rfl⟩).1
  · rintro slot v ⟨⟨m, -, hslot⟩, hv⟩ a ha hkey
    refine ⟨?_, ?_, fun hapart => hapart.inherits_iff⟩
    · obtain ⟨origin, f, horigin, rfl⟩ := h.inTree_renumber hroot (inTree_of_mem_filledSlots hslot v hv)
      obtain ⟨p, hp, rfl⟩ := Module.part_renumber ha
      have hsourced := h.sourcedBy r macros p ⟨origin, List.mem_append_right _ horigin, hp⟩
      rw [Module.key_renumber] at hkey
      have hname := FilledSlot.expected_or_leavesOut hsourced hkey
      unfold FilledSlot.LeavesOut at hname ⊢
      rwa [Module.name_renumber, Module.cls_renumber]
    · rintro hname (rfl | hapart)
      · exact List.any_eq_true.mpr ⟨a, a.self_mem_hierarchy, beq_iff_eq.mpr hname⟩
      · exact hapart.inherits_iff.mpr ⟨a, ha, hname⟩

/-! ## Values of single requests -/

def ownValue? (e : Engine) (context : Context) (r : Request) (path : List Nat) :
    Option (Module × FilledSlot × Module × Module) :=
  match ((e.loaded r []).composed context r).1 with
  | some [root] =>
    (filledSlots ((e.loaded r []).composed context r).2.filled root).head?.bind fun slot =>
      slot.values.head?.bind fun v =>
        ((path.foldlM (fun m i => m.bases[i]?) v).filter fun a => a.key = slot.key context.macros).map fun a =>
          (root, slot, v, a)
  | _ => none

theorem ownValue?_eq_some {context : Context} {path : List Nat} {root v a : Module} {slot : FilledSlot}
    (h : ownValue? e context r path = some (root, slot, v, a)) :
    ((e.loaded r []).composed context r).1 = some [root] ∧
      Collects ((e.loaded r []).composed context r).2.filled root slot v ∧ Module.Part a v ∧
      a.key = slot.key context.macros := by
  have hpart : ∀ (path : List Nat) (v : Module), path.foldlM (fun m i => m.bases[i]?) v = some a → Module.Part a v := by
    intro path
    induction path with
    | nil =>
      rintro v ⟨⟩
      exact .self _
    | cons i path ih =>
      intro v hpath
      obtain ⟨b, hb, hpath⟩ := Option.bind_eq_some_iff.mp hpath
      exact .base (mem_of_getElem? hb) (ih b hpath)
  unfold ownValue? at h
  split at h
  · next root' hroot =>
    obtain ⟨slot', hslot, h⟩ := Option.bind_eq_some_iff.mp h
    obtain ⟨v', hv, h⟩ := Option.bind_eq_some_iff.mp h
    obtain ⟨a', ha, heq⟩ := Option.map_eq_some_iff.mp h
    cases heq
    obtain ⟨ha, hkey⟩ := Option.filter_eq_some_iff.mp ha
    exact ⟨hroot, ⟨⟨root, .refl, mem_of_head? hslot⟩, mem_of_head? hv⟩, hpart path v ha, of_decide_eq_true hkey⟩
  · cases h

def cellarEngine : Engine where
  library := {
    store := {
      inMemory :=
        [("Cellar", "shader Cellar { compose Jar<1> jar; };"), ("Dish", "shader Dish : Jar<1> { };"),
         ("Jar", "shader Jar<int N> { int Level; };")] } }

def cellarRequest : Request := .mixin [⟨"Cellar", []⟩] [("jar", .single ⟨"Dish", []⟩)] []

def hasOneBase (m : Module) : Bool :=
  match m.bases with
  | [b] => b.bases.isEmpty && b.name != m.name
  | _ => false

theorem namesApart_of_hasOneBase {m : Module} (h : hasOneBase m = true) : m.NamesApart := by
  unfold hasOneBase at h
  split at h
  · next b hbases =>
    obtain ⟨hnone, hname⟩ := Bool.and_eq_true_iff.mp h
    have hne : b.name ≠ m.name := by simpa using hname
    have hparts : ∀ a, Module.Part a m → a = m ∨ a = b := by
      intro a ha
      rcases Module.part_iff.mp ha with rfl | ⟨x, hx, ha⟩
      · exact .inl rfl
      · rw [hbases, mem_singleton] at hx
        subst hx
        rcases Module.part_iff.mp ha with rfl | ⟨y, hy, -⟩
        · exact .inr rfl
        · rw [List.isEmpty_iff.mp hnone] at hy
          cases hy
    intro a a' ha ha' hsame
    rcases hparts a ha with rfl | rfl <;> rcases hparts a' ha' with rfl | rfl
    · rfl
    · exact absurd hsame.symm hne
    · exact absurd hsame hne
    · rfl
  · cases h

theorem cellar_accepts_dish : cellarEngine.Reachable ∧ ∃ root slot v a,
    ((cellarEngine.loaded cellarRequest []).composed (cellarEngine.contextOf cellarRequest []) cellarRequest).1 =
      some [root] ∧
    Collects ((cellarEngine.loaded cellarRequest []).composed (cellarEngine.contextOf cellarRequest [])
      cellarRequest).2.filled root slot v ∧
    Module.Part a v ∧ a.key = slot.key [] ∧ a.name ≠ v.name ∧ v.inherits slot.expected = true := by
  have hreachable : cellarEngine.Reachable := .new _ {}
  obtain ⟨hsorted, hvalue⟩ :
      (cellarEngine.loading cellarRequest []).loaded.Sorted ∧
      (ownValue? cellarEngine (cellarEngine.orderedContext cellarRequest) cellarRequest [0]).any
        (fun x => hasOneBase x.2.2.1 && x.2.2.2.name != x.2.2.1.name) = true := by
    decide +kernel
  rw [← contextOf_sorted hsorted] at hvalue
  obtain ⟨⟨root, slot, v, a⟩, hvalue, htest⟩ := (Option.any_eq_true _ _).mp hvalue
  obtain ⟨hbase, hother⟩ := Bool.and_eq_true_iff.mp htest
  obtain ⟨hroot, hv, ha, hkey⟩ := ownValue?_eq_some hvalue
  obtain ⟨-, -, htypes⟩ := slot_types_accepted hreachable hroot
  obtain ⟨hname, haccepts, -⟩ := htypes slot v hv a ha hkey
  have hname : a.name = slot.expected := hname.resolve_right fun h => Bool.noConfusion h.1
  exact ⟨hreachable, root, slot, v, a, hroot, hv, ha, hkey, by simpa using hother,
    haccepts hname (Or.inr (namesApart_of_hasOneBase hbase))⟩

/-! ## Values that are refused -/

def Refuses (e : Engine) (r : Request) : Prop :=
  ∃ root slot v a, ((e.loaded r []).composed (e.contextOf r []) r).1 = some [root] ∧
    Collects ((e.loaded r []).composed (e.contextOf r []) r).2.filled root slot v ∧ Module.Part a v ∧
    a.key = slot.key (e.contextOf r []).macros ∧ slot.mismatch v ∈
      (instancesOf (e.contextOf r []) ((e.loaded r []).composed (e.contextOf r []) r).2.filled root).2

def refusesSorted (e : Engine) (r : Request) (path : List Nat) : Bool :=
  decide (e.loading r []).loaded.Sorted && (ownValue? e (e.orderedContext r) r path).any fun x =>
    (instancesOf (e.orderedContext r) ((e.loaded r []).composed (e.orderedContext r) r).2.filled x.1).2.contains
      (x.2.1.mismatch x.2.2.1)

theorem refuses_of_sorted {path : List Nat} (h : refusesSorted e r path = true) : Refuses e r := by
  obtain ⟨hsorted, h⟩ := Bool.and_eq_true_iff.mp h
  rw [← contextOf_sorted (of_decide_eq_true hsorted)] at h
  obtain ⟨⟨root, slot, v, a⟩, hvalue, hlog⟩ := (Option.any_eq_true _ _).mp h
  obtain ⟨hroot, hv, ha, hkey⟩ := ownValue?_eq_some hvalue
  exact ⟨root, slot, v, a, hroot, hv, ha, hkey, contains_iff_mem.mp hlog⟩

def rackEngine : Engine where
  options := { fillGenerics := true }
  library := {
    store := {
      inMemory :=
        [("Rack", "shader Rack { compose Vase vase; };"), ("Vase", "shader Vase<int N> { int Level; };")] } }

def rackRequest : Request := .mixin [⟨"Rack", []⟩] [("vase", .single ⟨"Vase", []⟩)] []

def benchEngine : Engine where
  library := {
    store := {
      inMemory :=
        [("Bench", "shader Bench { compose SawLike saw; };"), ("Crate", "shader Crate : Saw_d63bd9a8, Jig { };"),
         ("Jig", "shader Jig : Saw<1> { };"),
         ("Saw", "shader Saw<int N> : SawLike { };"),
         ("SawLike", "shader SawLike { int Weight; };"),
         ("Saw_d63bd9a8", "shader Saw_d63bd9a8 { };")] } }

def benchRequest : Request := .mixin [⟨"Bench", []⟩] [("saw", .single ⟨"Crate", []⟩)] []

theorem own_type_refused : rackEngine.Reachable ∧ Refuses rackEngine rackRequest ∧
    benchEngine.Reachable ∧ Refuses benchEngine benchRequest := by
  have hrack : refusesSorted rackEngine rackRequest [] = true := by
    decide +kernel
  have hbench : refusesSorted benchEngine benchRequest [1, 0, 0] = true := by
    decide +kernel
  exact ⟨.new _ { fillGenerics := true }, refuses_of_sorted hrack, .new _ {}, refuses_of_sorted hbench⟩

end Engine

end ShaderCompose
