import ShaderCompose.Proofs.Engine.Linked
import ShaderCompose.Proofs.Mix.Distinct

/-!
The names in a mixed shader are different (`Engine.names_distinct`).
-/

namespace ShaderCompose

open List Mix

/-! ## Names of modules -/

theorem Text.mem_hexDigits {count n : Nat} {c : Char} (h : c ∈ hexDigits count n) :
    ∃ k, k < 16 ∧ c = Nat.digitChar k := by
  induction count generalizing n with
  | zero => cases h
  | succ count ih =>
    rcases mem_append.mp h with h | h
    · exact ih h
    · exact ⟨n % 16, Nat.mod_lt _ (by decide), mem_singleton.mp h⟩

theorem Digest.not_mem_short (d : Digest) (count : Nat) {c : Char}
    (hc : ∀ k < 16, c ≠ Nat.digitChar k) : c ∉ (d.short count).toList := by
  intro h
  rw [short, String.toList_ofList] at h
  obtain ⟨w, -, h⟩ := mem_flatMap.mp (mem_of_mem_take h)
  obtain ⟨shift, -, h⟩ := mem_flatMap.mp h
  obtain ⟨k, hk, rfl⟩ := Text.mem_hexDigits h
  exact hc k hk rfl

theorem nameWords_mixinName (refs : List ClassRef) : ∃ words, NameWords (mixinName refs) words := by
  generalize hdigest : Digest.ofString ("+".intercalate (refs.map ClassRef.text)) = digest
  refine ⟨_, .mixin (digest.short 8) ?_ ?_ ?_⟩
  · exact digest.not_mem_short 8 (by decide)
  · exact digest.not_mem_short 8 (by decide)
  · unfold mixinName joined
    rw [hdigest]
    rfl

theorem not_oneWord_append {a b c : String} (hb : '_' ∈ b.toList) : ¬ OneWord (a ++ b ++ c) := by
  intro h
  refine h ?_
  rw [String.toList_append, String.toList_append]
  exact mem_append_left _ (mem_append_right _ hb)

theorem not_oneWord_mixinName (refs : List ClassRef) : ¬ OneWord (mixinName refs) :=
  not_oneWord_append (a := "") (b := "Mixin_") (by decide)

theorem not_oneWord_instanceName (name : String) (args : List String) : ¬ OneWord (instanceName name args) :=
  not_oneWord_append (a := name) (b := "_") (by decide)

theorem ModuleKey.not_isMixin_of_oneWord {k : ModuleKey} (h : OneWord k.name) : ¬ k.IsMixin := by
  rintro ⟨refs, defs, rfl⟩
  exact not_oneWord_mixinName refs h

theorem ShaderClass.instantiate_of_oneWord {c made : ShaderClass} {args : List String} {fill : Bool}
    (h : c.instantiate args fill = .ok made) (hword : OneWord made.name) : args = [] ∧ made = c := by
  refine (instantiate_cases h).resolve_right ?_
  rintro ⟨complete, σ, -, -, rfl⟩
  exact not_oneWord_instanceName c.name complete hword

/-- No underscore stands in the names of the class, its bases and members. -/
structure LoadedClass.PlainNames (c : LoadedClass) : Prop where
  name : c.module.IsMixin ∨ OneWord c.cls.name
  bases : ∀ k ∈ c.baseKeys, OneWord k.name
  members : ∀ v, v ∈ c.cls.vars ∨ v ∈ c.cls.methods → OneWord v.2.name

namespace LoadedClass.PlainNames

variable {c : LoadedClass}

theorem nameWords (h : c.PlainNames) : ∃ words, NameWords c.module.name words := by
  rcases h.name with ⟨refs, macros, hkey, hcls⟩ | hword
  · have hname : c.module.name = mixinName refs := by
      rw [Module.name, hcls, hkey]
      rfl
    rw [hname]
    exact nameWords_mixinName refs
  · exact ⟨_, .plain hword⟩

theorem oneWord_name (h : c.PlainNames) {v : DeclId × Decl} (hv : v ∈ c.cls.vars ∨ v ∈ c.cls.methods) :
    OneWord c.cls.name := by
  refine h.name.resolve_left ?_
  rintro ⟨refs, macros, -, hcls⟩
  rw [LoadedClass.cls, hcls] at hv
  rcases hv with hv | hv <;> exact absurd hv not_mem_nil

theorem key_eq (h : c.PlainNames) (hsourced : c.module.Sourced) :
    c.key.name = c.module.name ∧ c.key.generics = [] := by
  have mixin : c.module.IsMixin → c.key.name = c.module.name ∧ c.key.generics = [] := by
    rintro ⟨refs, macros, hkey, hcls⟩
    refine ⟨?_, by rw [LoadedClass.key, hkey]; rfl⟩
    rw [Module.name, hcls]
    rfl
  rcases hsourced with ⟨plan, store, found, read, hread, hcls⟩ | hmixin
  · rcases h.name with hmixin | hword
    · exact mixin hmixin
    · obtain ⟨file, text, -, -, htext⟩ := classOfFile_eq_some hread
      obtain ⟨cls, -, hname, hmade, -⟩ := classOfText_eq_some htext
      rw [LoadedClass.cls, hcls] at hword
      obtain ⟨hargs, hsame⟩ := ShaderClass.instantiate_of_oneWord hmade hword
      refine ⟨?_, hargs⟩
      rw [Module.name, hcls, hsame]
      exact hname.symm
  · exact mixin hmixin

end LoadedClass.PlainNames

namespace Engine

variable {e : Engine} {r : Request} {macros : List MacroDef}

theorem Reachable.loads_of_name (h : e.Reachable)
    (hplain : ∀ entry ∈ (e.loading r macros).loaded, entry.2.PlainNames) {a b : Module}
    (ha : e.Loads r macros a) (hb : e.Loads r macros b) (hname : a.name = b.name) : a = b := by
  refine h.loads_unique ha hb ?_
  have hsound := h.sound.loading r macros
  have key : ∀ {m : Module}, e.Loads r macros m → m.key = ⟨m.name, [], macros ++ r.collectMacros⟩ := by
    intro m hm
    have hsourced := h.loads_sourced hm
    obtain ⟨entry, hentry, rfl⟩ := loads_iff.mp hm
    obtain ⟨hkey, hgenerics⟩ := (hplain entry hentry).key_eq hsourced
    have hmacros : entry.2.key.macros = macros ++ r.collectMacros := by
      rw [hsound.key entry hentry]
      exact hsound.under entry hentry
    rw [← hkey, ← hgenerics, ← hmacros]
    rfl
  rw [key ha, key hb, hname]

theorem Reachable.tidy_of_plain (h : e.Reachable) {context : Context} {outcome : Outcome} {e' : Engine}
    (hcheck : e.check r macros = (some context, outcome, e'))
    (hplain : ∀ entry ∈ (e.loading r macros).loaded, entry.2.PlainNames) : Tidy (e.Loads r macros) := by
  refine h.tidy hcheck ?_ fun a b ha hb => h.loads_of_name hplain ha hb
  exact fun entry hentry k hk => ModuleKey.not_isMixin_of_oneWord ((hplain entry hentry).bases k hk)

theorem Reachable.spellable (h : e.Reachable) {context : Context} {outcome : Outcome} {e' : Engine}
    (hcheck : e.check r macros = (some context, outcome, e'))
    (hplain : ∀ entry ∈ (e.loading r macros).loaded, entry.2.PlainNames)
    {instances : List MixInstance}
    (his : (e.loaded r macros).instances (e.contextOf r macros) r = some instances) :
    ∃ classWords, Spellable instances classWords := by
  have htidy := h.tidy_of_plain hcheck hplain
  have loads := fun i (hi : i ∈ instances) => h.class_loads htidy his hi
  have classes : ∀ i ∈ instances, ∀ cls ∈ i.table.classes, ∃ a, e.Loads r macros a ∧ a.cls = cls := by
    intro i hi cls hcls
    obtain ⟨m, -, -, hclasses⟩ := loads i hi
    obtain ⟨a, -, ha⟩ := hclasses cls hcls
    exact ⟨a, ha⟩
  have hwords : ∀ n, ∃ words, ∀ i, instances[n]? = some i →
      ∃ name, NameWords name words ∧ i.label = labelOf name n := by
    intro n
    cases hn : instances[n]? with
    | none => exact ⟨[], nofun⟩
    | some i =>
      obtain ⟨m, hm, -, hlabel⟩ := h.instance_loads his hn
      obtain ⟨entry, hentry, rfl⟩ := loads_iff.mp hm
      obtain ⟨words, hwords⟩ := (hplain entry hentry).nameWords
      refine ⟨words, fun i' hi' => ?_⟩
      cases hi'
      exact ⟨_, hwords, hlabel⟩
  obtain ⟨classWords, hlabel⟩ := Classical.skolem.mp hwords
  refine ⟨classWords, hlabel, ?_, ?_, ?_, ?_, ?_⟩
  · intro i hi cls hcls v hv
    obtain ⟨a, ha, rfl⟩ := classes i hi cls hcls
    obtain ⟨entry, hentry, rfl⟩ := loads_iff.mp ha
    exact ⟨(hplain entry hentry).oneWord_name hv, (hplain entry hentry).members v hv⟩
  · intro i hi
    obtain ⟨m, hm, htable, -⟩ := loads i hi
    rw [htable]
    exact htidy.vars_unique hm
  · intro i hi cls hcls
    obtain ⟨a, ha, rfl⟩ := classes i hi cls hcls
    exact MemberTable.nodup_methods (htidy.quiet a ha)
  · intro i hi
    obtain ⟨m, -, htable, -⟩ := loads i hi
    rw [htable, MemberTable.classes_ofModule, map_map]
    exact m.nodup_hierarchy
  · intro i hi c hc j hj c' hc' hname
    obtain ⟨a, ha, rfl⟩ := classes i hi c hc
    obtain ⟨b, hb, rfl⟩ := classes j hj c' hc'
    rw [htidy.names a b ha hb hname]

/-- Without builtins and underscores, variables and methods have different names, if unmarked ones
do. -/
theorem names_distinct {e : Engine} (h : e.Reachable) (hbuiltins : e.builtins = []) {r : Request}
    {macros : List MacroDef} {context : Context} {outcome : Outcome} {e' : Engine} {shader : Shader}
    {instances : List MixInstance} (hcheck : e.check r macros = (some context, outcome, e'))
    (hplain : ∀ entry ∈ (e.loading r macros).loaded, entry.2.PlainNames)
    (hmix : (e'.compose context r).1 = some shader) (his : e'.instances context r = some instances)
    (hapart : Apart instances) :
    ((shader.declared.filter fun d => d.isVar || d.isMethod).map Decl.name).Nodup := by
  obtain ⟨rfl, rfl, -⟩ := check_context hcheck
  obtain ⟨mixed, hmixed, hlog, rfl⟩ := compose_eq_some hmix
  cases his.symm.trans hmixed
  obtain ⟨classWords, hspellable⟩ := h.spellable hcheck hplain his
  have hnone : (e.contextOf r macros).builtins = [] := hbuiltins
  rw [hnone] at hlog ⊢
  exact nodup_names_emit hlog (h.orderly his) hspellable hapart

def alcoveEngine : Engine where
  library := {
    store := {
      inMemory :=
        [("Alcove", "shader Alcove { compose Light light; float Size; float Get() { return light.Get(); } };"),
         ("Lamp", "shader Lamp : Light { stage float Time; override float Get() { return base.Get(); } };"),
         ("Light", "shader Light { float Gain; float Get() { return Gain; } };")] } }

def alcoveRequest : Request := .mixin [⟨"Alcove", []⟩] [("light", .single ⟨"Lamp", []⟩)] []

theorem alcove_names_distinct : ∃ shader,
    ((alcoveEngine.loaded alcoveRequest []).compose (alcoveEngine.contextOf alcoveRequest [])
      alcoveRequest).1 = some shader ∧
    ((shader.declared.filter fun d => d.isVar || d.isMethod).map Decl.name).Nodup := by
  obtain ⟨hchecks, hplain, hapart⟩ :
      alcoveEngine.checksSorted alcoveRequest = true ∧
      (∀ entry ∈ (alcoveEngine.loading alcoveRequest []).loaded,
        OneWord entry.2.cls.name ∧ (∀ k ∈ entry.2.baseKeys, OneWord k.name) ∧
          ∀ v ∈ entry.2.cls.vars ++ entry.2.cls.methods, OneWord v.2.name) ∧
      (alcoveEngine.mixesSorted alcoveRequest fun _ instances => decide (Apart instances)) = true := by
    decide +kernel
  obtain ⟨-, -, outcome, hcheck⟩ := check_of_sorted hchecks
  obtain ⟨shader, instances, hmix, his, hapart⟩ := mixes_of_sorted hapart
  refine ⟨shader, hmix, ?_⟩
  refine names_distinct (.new _ {}) rfl hcheck (fun entry hentry => ?_) hmix his (of_decide_eq_true hapart)
  obtain ⟨hname, hbases, hmembers⟩ := hplain entry hentry
  exact ⟨Or.inr hname, hbases, fun v hv => hmembers v (List.mem_append.mpr hv)⟩

def clockEngine : Engine where
  library := {
    store := {
      inMemory :=
        [("A", "shader A { compose B b; float Time; };"),
         ("B", "shader B { stage float Time; float Get() { return Time; } };")] } }

def clockRequest : Request := .mixin [⟨"A", []⟩] [("b", .single ⟨"B", []⟩)] []

theorem root_repeats_stage : clockEngine.Reachable ∧ clockEngine.builtins = [] ∧
    (∀ entry ∈ (clockEngine.loading clockRequest []).loaded, entry.2.PlainNames) ∧
    ∃ outcome e' shader, clockEngine.check clockRequest [] =
        (some (clockEngine.contextOf clockRequest []), outcome, e') ∧
      (e'.compose (clockEngine.contextOf clockRequest []) clockRequest).1 = some shader ∧
      (shader.declared.filter fun d => d.isVar || d.isMethod).map Decl.name =
        ["Time", "Time", "B_id1_Get"] := by
  obtain ⟨hchecks, hplain, hnames⟩ :
      clockEngine.checksSorted clockRequest = true ∧
      (∀ entry ∈ (clockEngine.loading clockRequest []).loaded,
        OneWord entry.2.cls.name ∧ (∀ k ∈ entry.2.baseKeys, OneWord k.name) ∧
          ∀ v ∈ entry.2.cls.vars ++ entry.2.cls.methods, OneWord v.2.name) ∧
      (clockEngine.mixesSorted clockRequest fun s _ => decide
        ((s.declared.filter fun d => d.isVar || d.isMethod).map Decl.name = ["Time", "Time", "B_id1_Get"])) = true := by
    decide +kernel
  obtain ⟨-, -, outcome, hcheck⟩ := check_of_sorted hchecks
  obtain ⟨shader, -, hmix, -, hnames⟩ := mixes_of_sorted hnames
  refine ⟨.new _ {}, rfl, fun entry hentry => ?_, outcome, _, shader, hcheck, hmix, of_decide_eq_true hnames⟩
  obtain ⟨hname, hbases, hmembers⟩ := hplain entry hentry
  exact ⟨Or.inr hname, hbases, fun v hv => hmembers v (List.mem_append.mpr hv)⟩

end Engine

end ShaderCompose
