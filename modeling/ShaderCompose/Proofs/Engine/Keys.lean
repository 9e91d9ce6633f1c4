import Mathlib.Data.List.Flatten
import ShaderCompose.Proofs.Engine.Names
import ShaderCompose.Proofs.Mix.Keys

/-!
The keys of parameters are different (`Engine.keys_distinct`), unchecked bases aside.
-/

namespace ShaderCompose

open List Mix

/-! ## Names of classes -/

theorem Digest.isIdent_short (d : Digest) (count : Nat) : Reader.IsIdent (d.short count) := by
  intro ch hch
  by_contra hother
  refine d.not_mem_short count (fun k hk hsame => hother ?_) hch
  have hdigits : ∀ k < 16, Reader.isIdentChar (Nat.digitChar k) = true := by decide
  rw [hsame]
  exact hdigits k hk

theorem isIdent_mixinName (refs : List ClassRef) : Reader.IsIdent (mixinName refs) := by
  have hstart : Reader.IsIdent "Mixin_" := all_eq_true.mp (by decide)
  exact hstart.append (Digest.isIdent_short _ 8)

theorem isIdent_instanceName {name : String} (h : Reader.IsIdent name) (args : List String) :
    Reader.IsIdent (instanceName name args) := by
  have hmark : Reader.IsIdent "_" := all_eq_true.mp (by decide)
  exact (h.append hmark).append (Digest.isIdent_short _ 8)

theorem Module.Sourced.isIdent {m : Module} (h : m.Sourced) : Reader.IsIdent m.cls.name ∧ m.cls.Named := by
  rcases h with ⟨plan, store, found, read, hread, hcls⟩ | ⟨refs, macros, hkey, hcls⟩
  · obtain ⟨file, text, -, -, htext⟩ := classOfFile_eq_some hread
    obtain ⟨cls, hsource, -, hmade, -⟩ := classOfText_eq_some htext
    have hmem : cls ∈ (Reader.source text file.fileName).1 := by simp [hsource]
    rw [hcls]
    refine ⟨?_, ShaderClass.instantiate_named hmade (Reader.source_named hmem)⟩
    rcases ShaderClass.instantiate_cases hmade with ⟨-, hsame⟩ | ⟨complete, σ, -, -, hsame⟩
    · rw [hsame]
      exact Reader.source_isIdent hmem
    · rw [hsame]
      exact isIdent_instanceName (Reader.source_isIdent hmem) complete
  · rw [hcls]
    refine ⟨?_, forall_mem_nil _⟩
    rw [hkey]
    exact isIdent_mixinName refs

namespace Mix

theorem map_name_filledSlots (filled : Composition) (m : Module) :
    ((filledSlots filled m).map FilledSlot.name).Sublist
      (m.hierarchy.flatMap fun a => a.cls.vars.map fun v => v.2.name) := by
  rw [filledSlots, map_flatMap]
  refine List.Sublist.flatMap_right _ fun a _ => ?_
  have hnames : (a.cls.vars.filterMap fun v => if v.2.isComposition then some v.2.name else none) =
      (a.cls.vars.filter fun v => v.2.isComposition).map fun v => v.2.name := by
    rw [← filterMap_eq_map, filterMap_filter]
    rfl
  rw [map_filterMap, filterMap_congr (g := fun v => if v.2.isComposition then some v.2.name else none), hnames]
  · exact filter_sublist.map _
  · intro v _
    dsimp only
    split
    · next hcomp =>
      unfold Decl.isComposition Decl.isVar at hcomp
      unfold Decl.varType?
      cases hkind : v.2.kind <;> simp_all
    · rfl

end Mix

namespace Engine

variable {e : Engine} {r : Request} {macros : List MacroDef}

def Uses (e : Engine) (r : Request) (macros : List MacroDef) (m : Module) : Prop :=
  m.Among (e.loading r macros).loaded.modules

theorem Loads.uses {m : Module} (h : e.Loads r macros m) : e.Uses r macros m := ⟨m, h, .self m⟩

theorem Reachable.uses_sourced (h : e.Reachable) {m : Module} (hm : e.Uses r macros m) : m.Sourced := by
  obtain ⟨origin, horigin, hpart⟩ := hm
  exact h.sourced r macros ⟨origin, mem_append_right _ horigin, hpart⟩

theorem Reachable.uses_unique (h : e.Reachable) {m n : Module} (hm : e.Uses r macros m)
    (hn : e.Uses r macros n) (hid : m.id = n.id) : m = n := by
  obtain ⟨origin, horigin, hpart⟩ := hm
  obtain ⟨origin', horigin', hpart'⟩ := hn
  exact (h.sound.loading r macros).loaded_numbered.unique _ horigin _ horigin' _ _ hpart hpart' hid

theorem Reachable.mem_of_uses (h : e.Reachable) {ms : List Module}
    (hloaded : (e.loading r macros).loaded.modules ⊆ ms) (hms : ∀ m ∈ ms, e.Uses r macros m)
    (hbases : ∀ m ∈ ms, ∀ b ∈ m.bases, ∃ n ∈ ms, n.id = b.id) {m : Module} (hm : e.Uses r macros m) :
    m ∈ ms := by
  obtain ⟨origin, horigin, hpart⟩ := hm
  replace horigin := hloaded horigin
  induction hpart with
  | self => exact horigin
  | base hb _ ih =>
    obtain ⟨n, hn, hid⟩ := hbases _ horigin _ hb
    have hsame := h.uses_unique (hms n hn) ((hms _ horigin).part (.base hb (.self _))) hid
    exact ih (hsame ▸ hn)

theorem Reachable.slots_named (h : e.Reachable) (htidy : Tidy (e.Uses r macros)) {root m : Module}
    (hroot : ((e.loaded r macros).composed (e.contextOf r macros) r).1 = some [root])
    (hm : InTree ((e.loaded r macros).composed (e.contextOf r macros) r).2.filled root m) :
    (∀ slot ∈ filledSlots ((e.loaded r macros).composed (e.contextOf r macros) r).2.filled m,
        Reader.IsIdent slot.name) ∧
      ((filledSlots ((e.loaded r macros).composed (e.contextOf r macros) r).2.filled m).map
        FilledSlot.name).Nodup := by
  obtain ⟨origin, f, horigin, rfl⟩ := h.inTree_renumber hroot hm
  have hnames := map_name_filledSlots ((e.loaded r macros).composed (e.contextOf r macros) r).2.filled
    (origin.renumber f)
  rw [Module.hierarchy_renumber, flatMap_map] at hnames
  simp only [Module.cls_renumber] at hnames
  refine ⟨fun slot hslot => ?_,
    hnames.nodup (htidy.nodup_members (fun a => (MemberTable.vetted_ofModule a).1) horigin.uses)⟩
  obtain ⟨a, ha, hname⟩ := mem_flatMap.mp (hnames.subset (mem_map_of_mem hslot))
  obtain ⟨⟨id, d⟩, hd, hname⟩ := mem_map.mp hname
  have hnamed := (h.uses_sourced (htidy.mem_hierarchy horigin.uses ha)).isIdent.2
  rw [← hname]
  exact hnamed.of_mem_vars hd

theorem Reachable.keyed (h : e.Reachable) (htidy : Tidy (e.Uses r macros))
    (hlink : ∀ m, e.Uses r macros m → ∀ v ∈ m.cls.vars, v.2.attr? "Link" = none) {root : Module}
    {instances : List MixInstance}
    (hroot : ((e.loaded r macros).composed (e.contextOf r macros) r).1 = some [root])
    (his : (instancesOf (e.contextOf r macros)
      ((e.loaded r macros).composed (e.contextOf r macros) r).2.filled root).1 = some instances)
    (hquiet : (instancesOf (e.contextOf r macros)
      ((e.loaded r macros).composed (e.contextOf r macros) r).2.filled root).2.hasErrors = false) :
    Keyed instances := by
  have hinstances : (e.loaded r macros).instances (e.contextOf r macros) r = some instances := by
    rw [Engine.instances, hroot]
    exact his
  -- the classes of an instance take part in the request
  have classes : ∀ i ∈ instances, ∀ cls ∈ i.table.classes, ∃ a, e.Uses r macros a ∧ a.cls = cls := by
    intro i hi cls hcls
    obtain ⟨-, entry, hentry, htable⟩ := instances_loaded hinstances hi
    rw [htable, MemberTable.classes_ofModule] at hcls
    obtain ⟨a, ha, rfl⟩ := mem_map.mp hcls
    exact ⟨a, htidy.mem_hierarchy (Loads.uses (Cache.mem_modules hentry)) ha, rfl⟩
  refine ⟨?_, ?_, ?_, ?_, ?_, ?_⟩
  · intro i hi cls hcls v hv a ha hname
    obtain ⟨m, hm, rfl⟩ := classes i hi cls hcls
    exact find?_eq_none.mp (hlink m hm v hv) a ha (by simpa using hname)
  · intro i hi cls hcls
    obtain ⟨m, hm, rfl⟩ := classes i hi cls hcls
    obtain ⟨hname, hnamed⟩ := (h.uses_sourced hm).isIdent
    refine ⟨hname.not_mem rfl, fun v hv => ?_⟩
    exact (hnamed.of_mem_vars hv).not_mem rfl
  · intro i hi c hc j hj c' hc' hname
    obtain ⟨a, ha, rfl⟩ := classes i hi c hc
    obtain ⟨b, hb, rfl⟩ := classes j hj c' hc'
    rw [htidy.names a b ha hb hname]
  · intro i hi
    obtain ⟨-, entry, -, htable⟩ := instances_loaded hinstances hi
    rw [htable, MemberTable.classes_ofModule, map_map]
    exact entry.2.module.nodup_hierarchy
  · intro i hi cls hcls v hv w hw hname
    obtain ⟨m, hm, rfl⟩ := classes i hi cls hcls
    exact (htidy.variable_unique hm m m.self_mem_hierarchy m m.self_mem_hierarchy v hv w hw hname).2
  · exact instancesOf_paths (fun m hm => h.slots_named htidy hroot hm) his hquiet

/-- Parameters have different keys, if names tell classes apart, none gives keys itself, and
unloaded bases are in order. -/
theorem keys_distinct {e : Engine} (h : e.Reachable) {r : Request} {macros : List MacroDef}
    {context : Context} {outcome : Outcome} {e' : Engine} {shader : Shader} {instances : List MixInstance}
    (hcheck : e.check r macros = (some context, outcome, e'))
    (hmix : (e'.compose context r).1 = some shader) (his : e'.instances context r = some instances)
    (hlink : ∀ m, e.Uses r macros m → ∀ v ∈ m.cls.vars, v.2.attr? "Link" = none)
    (hnames : ∀ m n, e.Uses r macros m → e.Uses r macros n → m.name = n.name → m = n)
    (hbases : ∀ m, e.Uses r macros m →
      e.Loads r macros m ∨ (MemberTable.ofModule m).log.hasErrors = false) :
    (∀ i ∈ linkedVariables shader (ownCount e.builtins instances), (keyAt shader i).isSome = true) ∧
      Set.InjOn (keyAt shader) (linkedVariables shader (ownCount e.builtins instances)) := by
  obtain ⟨rfl, rfl, hquiet⟩ := check_context hcheck
  obtain ⟨root, mixed, hroot, hmixed, hcollected, hlog, rfl⟩ := compose_spec hmix
  have htidy : Tidy (e.Uses r macros) := by
    refine ⟨fun m hm b hb => hm.part (.base hb (.self b)), hnames, fun m hm => ?_⟩
    rcases hbases m hm with hloads | hdeclared
    · obtain ⟨entry, hentry, rfl⟩ := loads_iff.mp hloads
      exact Context.quiet_table hquiet (Context.mem_classes_make.mpr ⟨entry, hentry, rfl⟩)
    · exact hdeclared
  have hkeyed := h.keyed htidy hlink hroot hmixed hcollected
  have hsame : instances = mixed := by
    rw [Engine.instances, hroot] at his
    exact Option.some.inj (his.symm.trans hmixed)
  subst hsame
  have horderly := h.orderly his
  refine ⟨fun i hi => ?_, keyAt_injOn hlog horderly hkeyed⟩
  obtain ⟨_, _, _, _, _, -, -, hkey⟩ := keyAt_eq hlog horderly hkeyed hi
  rw [hkey]
  rfl

theorem alcove_keys_distinct : ∃ shader instances,
    ((alcoveEngine.loaded alcoveRequest []).compose (alcoveEngine.contextOf alcoveRequest [])
      alcoveRequest).1 = some shader ∧
    (alcoveEngine.loaded alcoveRequest []).instances (alcoveEngine.contextOf alcoveRequest [])
      alcoveRequest = some instances ∧
    Set.InjOn (keyAt shader) (linkedVariables shader (ownCount [] instances)) ∧
    shader.table.toList.filterMap Decl.linkText? = ["Alcove.Size", "Light.Gain.light", "Lamp.Time"] := by
  have hreachable : alcoveEngine.Reachable := .new _ {}
  obtain ⟨hchecks, hlink, hnames, hbases, hkeys⟩ :
      alcoveEngine.checksSorted alcoveRequest = true ∧
      (∀ m ∈ (alcoveEngine.loading alcoveRequest []).loaded.modules,
        ∀ v ∈ m.cls.vars, (v.2.attr? "Link").isNone = true) ∧
      (∀ m ∈ (alcoveEngine.loading alcoveRequest []).loaded.modules,
        ∀ n ∈ (alcoveEngine.loading alcoveRequest []).loaded.modules, m.name = n.name → m.id = n.id) ∧
      (∀ m ∈ (alcoveEngine.loading alcoveRequest []).loaded.modules, ∀ b ∈ m.bases,
        ∃ n ∈ (alcoveEngine.loading alcoveRequest []).loaded.modules, n.id = b.id) ∧
      (alcoveEngine.mixesSorted alcoveRequest fun shader _ => decide (shader.table.toList.filterMap Decl.linkText? =
        ["Alcove.Size", "Light.Gain.light", "Lamp.Time"])) = true := by
    decide +kernel
  obtain ⟨-, -, outcome, hcheck⟩ := check_of_sorted hchecks
  obtain ⟨shader, instances, hmix, his, hkeys⟩ := mixes_of_sorted hkeys
  have hused : ∀ m, alcoveEngine.Uses alcoveRequest [] m → alcoveEngine.Loads alcoveRequest [] m :=
    fun m hm => hreachable.mem_of_uses (List.Subset.refl _) (fun _ => Loads.uses) hbases hm
  refine ⟨shader, instances, hmix, his, ?_, of_decide_eq_true hkeys⟩
  refine (keys_distinct hreachable hcheck hmix his (fun m hm v hv => ?_) (fun m n hm hn hname => ?_)
    fun m hm => Or.inl (hused m hm)).2
  · exact Option.isNone_iff_eq_none.mp (hlink m (hused m hm) v hv)
  · exact hreachable.uses_unique hm hn (hnames m (hused m hm) n (hused n hn) hname)

def sofaEngine : Engine where
  options := { fillGenerics := true }
  library := {
    store := {
      inMemory :=
        [("Mixin_04b5a6b5", "shader Mixin_04b5a6b5<int N> { float v; float v; };"),
         ("Rug", "shader Rug { float K; };"),
         ("Sofa", "shader Sofa : Mixin_04b5a6b5 { };")] } }

def sofaRequest : Request := .mixin [⟨"Sofa", []⟩, ⟨"Rug", []⟩] [] []

def sofaModules : List Module :=
  (sofaEngine.loading sofaRequest []).loaded.modules ++
    (sofaEngine.loading sofaRequest []).loaded.modules.flatMap Module.bases

theorem unchecked_base_repeats_key : sofaEngine.Reachable ∧
    (∀ m, sofaEngine.Uses sofaRequest [] m → ∀ v ∈ m.cls.vars, v.2.attr? "Link" = none) ∧
    (∀ m n, sofaEngine.Uses sofaRequest [] m → sofaEngine.Uses sofaRequest [] n → m.name = n.name → m = n) ∧
    ∃ outcome e' shader instances,
      sofaEngine.check sofaRequest [] = (some (sofaEngine.contextOf sofaRequest []), outcome, e') ∧
      (e'.compose (sofaEngine.contextOf sofaRequest []) sofaRequest).1 = some shader ∧
      e'.instances (sofaEngine.contextOf sofaRequest []) sofaRequest = some instances ∧
      ¬ Set.InjOn (keyAt shader) (linkedVariables shader (ownCount sofaEngine.builtins instances)) := by
  have hreachable : sofaEngine.Reachable := .new _ { fillGenerics := true }
  obtain ⟨hchecks, hlink, hnames, hbases, hkeys⟩ :
      sofaEngine.checksSorted sofaRequest = true ∧
      (∀ m ∈ sofaModules, ∀ v ∈ m.cls.vars, (v.2.attr? "Link").isNone = true) ∧
      (∀ m ∈ sofaModules, ∀ n ∈ sofaModules, m.name = n.name → m.id = n.id) ∧
      (∀ m ∈ sofaModules, ∀ b ∈ m.bases, ∃ n ∈ sofaModules, n.id = b.id) ∧
      (sofaEngine.mixesSorted sofaRequest fun shader instances =>
        decide (0 ∈ linkedVariables shader (ownCount [] instances) ∧
          1 ∈ linkedVariables shader (ownCount [] instances) ∧ keyAt shader 0 = keyAt shader 1)) = true := by
    decide +kernel
  obtain ⟨-, -, outcome, hcheck⟩ := check_of_sorted hchecks
  obtain ⟨shader, instances, hmix, his, hkeys⟩ := mixes_of_sorted hkeys
  obtain ⟨hfirst, hsecond, hsame⟩ := of_decide_eq_true hkeys
  have huses : ∀ m ∈ sofaModules, sofaEngine.Uses sofaRequest [] m := by
    intro m hm
    rcases List.mem_append.mp hm with hm | hm
    · exact Loads.uses hm
    · obtain ⟨n, hn, hb⟩ := List.mem_flatMap.mp hm
      exact ⟨n, hn, .base hb (.self m)⟩
  have hused : ∀ m, sofaEngine.Uses sofaRequest [] m → m ∈ sofaModules :=
    fun m hm => hreachable.mem_of_uses (List.subset_append_left _ _) huses hbases hm
  refine ⟨hreachable, fun m hm v hv => ?_, fun m n hm hn hname => ?_, outcome, _, shader, instances, hcheck,
    hmix, his, fun hinj => ?_⟩
  · exact Option.isNone_iff_eq_none.mp (hlink m (hused m hm) v hv)
  · exact hreachable.uses_unique hm hn (hnames m (hused m hm) n (hused n hn) hname)
  · exact absurd (hinj hfirst hsecond hsame) (by decide)

end Engine

end ShaderCompose
