import ShaderCompose.Proofs.Check.Body
import ShaderCompose.Proofs.Engine.Names
import ShaderCompose.Proofs.Mix.Closed
import ShaderCompose.Proofs.Module.Dispatch

/-!
The calls of a compiled shader (`Engine.calls_closed`).
-/

namespace ShaderCompose

open List

/-! ## Checked bodies -/

theorem Context.quiet_body {c : Context} (h : c.log.hasErrors = false) {k : KnownClass} (hk : k ∈ c.classes)
    (hmixin : k.loaded.isMixin = false) {e : DeclId × Decl} (he : e ∈ k.loaded.cls.methods) :
    (Check.methodLog c k.table e.2).hasErrors = false := by
  have hbodies : c.bodyLog.hasErrors = false := by
    unfold log at h
    dsimp only at h
    split at h
    · next herrors => cases h.symm.trans herrors
    · rw [Log.hasErrors_append, Bool.or_eq_false_iff] at h
      exact h.2
  refine eq_false_of_ne_true fun hbody => ?_
  obtain ⟨d, hd, herror⟩ := any_eq_true.mp hbody
  have hclass : d ∈ Check.classLog c k := by
    rw [Check.classLog, hmixin]
    exact mem_flatMap.mpr ⟨e, he, hd⟩
  have hany : c.bodyLog.hasErrors = true := any_eq_true.mpr ⟨d, mem_flatMap.mpr ⟨k, hk, hclass⟩, herror⟩
  cases hbodies.symm.trans hany

def Loading.PlainMixins (s : Loading) : Prop :=
  ∀ entry ∈ s.loaded, entry.2.isMixin = true → entry.2.cls.members = []

namespace Engine

open Mix

variable {e : Engine} {r : Request} {macros : List MacroDef}

theorem Reachable.plainMixins (h : e.Reachable) (r : Request) (macros : List MacroDef) :
    (e.loading r macros).PlainMixins := by
  refine (loadBy_each (q := fun c => c.isMixin = true → c.cls.members = []) ⟨?_, ?_⟩ (fun entry he hmixin => ?_)
    r).2.2
  · exact fun _ _ _ _ _ _ _ _ _ => nofun
  · exact fun _ _ _ _ _ _ => rfl
  · cases (h.sound.grounded.isMixin entry he).symm.trans hmixin

theorem Reachable.nodup_builtins (h : e.Reachable) : (e.builtins.map Module.id).Nodup := by
  induction h with
  | new store options => exact nodup_nil
  | @addBuiltin e e' source hreachable hadd ih =>
    have htaken := hreachable.sound.avoids.taken
    obtain ⟨text, classes, rfl⟩ := addBuiltin_ok hadd
    rw [map_append, map_map]
    refine nodup_append.mpr ⟨ih, ?_, ?_⟩
    · have hnodup := (nodup_range' : (List.range' 0 classes.length).Nodup)
      rw [← zipIdx_map_snd] at hnodup
      have hnumbers := hnodup.map fun _ _ => Nat.add_left_cancel (n := e.library.next)
      rwa [map_map] at hnumbers
    · rintro i hi _ hj rfl
      obtain ⟨⟨cls, n⟩, -, hid⟩ := mem_map.mp hj
      have hlt : i < e.library.next := htaken i hi
      simp only [Function.comp_apply] at hid
      omega
  | compile r macros _ ih =>
    rw [compile_engine]
    exact ih
  | analyze r macros _ ih =>
    rw [Engine.analyze, check_engine]
    exact ih
  | evict names _ ih => exact ih
  | edit store _ ih => exact ih

/-- Names tell classes apart, and no base has the name of a mixin. -/
structure Unambiguous (e : Engine) (r : Request) (macros : List MacroDef) : Prop where
  names : ∀ a b, e.Loads r macros a → e.Loads r macros b → a.name = b.name → a = b
  bases : ∀ entry ∈ (e.loading r macros).loaded, ∀ k ∈ entry.2.baseKeys, ¬ k.IsMixin

theorem Unambiguous.of_words (hnames : ((e.loading r macros).loaded.modules.map Module.name).Nodup)
    (hbases : ∀ entry ∈ (e.loading r macros).loaded, ∀ k ∈ entry.2.baseKeys, OneWord k.name) :
    e.Unambiguous r macros := by
  refine ⟨fun a b ha hb hname => inj_on_of_nodup_map hnames ha hb hname, ?_⟩
  exact fun entry hentry k hk => ModuleKey.not_isMixin_of_oneWord (hbases entry hentry k hk)

section

variable (h : e.Reachable) (htidy : Tidy (e.Loads r macros)) {instances : List MixInstance}
  (his : (e.loaded r macros).instances (e.contextOf r macros) r = some instances)

include h htidy his

theorem Reachable.classesByName : ClassesByName instances := by
  intro i hi c hc j hj c' hc' hname
  obtain ⟨_, -, -, hclasses⟩ := h.class_loads htidy his hi
  obtain ⟨_, -, -, hclasses'⟩ := h.class_loads htidy his hj
  obtain ⟨a, -, ha, rfl⟩ := hclasses c hc
  obtain ⟨b, -, hb, rfl⟩ := hclasses' c' hc'
  rw [htidy.names a b ha hb hname]

theorem Reachable.cleared (hquiet : (e.contextOf r macros).log.hasErrors = false) {number : Nat}
    {inst : MixInstance} {cls : ShaderClass} {ref : MemberRef} {d : Decl}
    (hd : HasMethod instances number inst cls ref d) : ∀ spot ∈ d.spots, Cleared e.builtins inst spot := by
  obtain ⟨m, hm, htable, hclasses⟩ := h.class_loads htidy his hd.inst_mem
  obtain ⟨a, ha, hloads, rfl⟩ := hclasses cls hd.cls_mem
  obtain ⟨entry, hentry, rfl⟩ := loads_iff.mp hloads
  have hmixin : entry.2.isMixin = false := by
    refine eq_false_of_ne_true fun hmixin => ?_
    have hmember := (ShaderClass.mem_methods.mp hd.mem).1
    rw [show entry.2.module.cls.members = [] from h.plainMixins r macros entry hentry hmixin] at hmember
    cases hmember
  have hbody := Context.quiet_body hquiet (Context.mem_classes_make.mpr ⟨entry, hentry, rfl⟩) hmixin hd.mem
  obtain ⟨env, hbuiltins, hown, hclears⟩ := Check.clears_of_methodLog hbody
  intro spot hspot haside n hn
  rcases hclears spot hspot haside n hn with hbound | hmethod | hbuiltin | hintrinsic | hnumeric | hstruct
  · exact .inl hbound
  · rw [hown] at hmethod
    rw [htable]
    exact .inr (.inl (htidy.method?_isSome hm ha hmethod))
  · rw [hbuiltins] at hbuiltin
    exact .inr (.inr (.inl hbuiltin))
  · exact .inr (.inr (.inr (.inl hintrinsic)))
  · exact .inr (.inr (.inr (.inr (.inl hnumeric))))
  · rw [hown] at hstruct
    obtain ⟨b, hb, he⟩ := MemberTable.structRef?_isSome.mp (htidy.structRef?_isSome hm ha hstruct)
    refine .inr (.inr (.inr (.inr (.inr ⟨b.cls, ?_, he⟩))))
    rw [htable, MemberTable.classes_ofModule]
    exact mem_map_of_mem hb

end

/-! ## Compiled shaders -/

theorem compile_eq_some {shader : Shader} (h : (e.compile r macros).1.shader = some shader) :
    ∃ outcome mixed start, e.check r macros = (some (e.contextOf r macros), outcome, e.loaded r macros) ∧
      ((e.loaded r macros).compose (e.contextOf r macros) r).1 = some mixed ∧
      start.shader = none ∧ (e.compile r macros).1 = finish e.options mixed start := by
  unfold compile at h ⊢
  split at h
  · next outcome e' hcheck =>
    cases (check_none hcheck).2.1.symm.trans h
  · next context outcome e' hcheck =>
    obtain ⟨rfl, rfl, -⟩ := check_context hcheck
    obtain ⟨-, -, -, hstart, -⟩ := check_some hcheck
    dsimp only at h
    split at h
    · cases hstart.symm.trans h
    · next mixed hmixed =>
      refine ⟨outcome, mixed, { outcome with
        log := outcome.log ++ ((e.loaded r macros).compose (e.contextOf r macros) r).2 }, ?_⟩
      refine ⟨hcheck, hmixed, hstart, ?_⟩
      dsimp only
      rw [hmixed]
      rfl

theorem finish_shader_congr {options : Options} {mixed : Shader} {a b : Outcome}
    (hlog : a.log.hasErrors = b.log.hasErrors) (hshader : a.shader = b.shader) :
    (finish options mixed a).shader = (finish options mixed b).shader := by
  simp only [finish, Log.hasErrors_append, hlog]
  split
  · exact hshader
  · split
    · exact hshader
    · split
      · exact hshader
      · rfl

theorem compile_shader (hload : (e.loading r macros).log.hasErrors = false)
    (hcontext : (e.contextOf r macros).log.hasErrors = false)
    (hmix : ((e.loaded r macros).compose (e.contextOf r macros) r).2.hasErrors = false) :
    (e.compile r macros).1.shader =
      ((e.loaded r macros).compose (e.contextOf r macros) r).1.bind fun mixed =>
        (finish e.options mixed {}).shader := by
  obtain ⟨outcome, hcheck⟩ := check_of_quiet hload hcontext
  obtain ⟨-, -, hlog, hnone, -⟩ := check_some hcheck
  unfold compile
  rw [hcheck]
  dsimp only
  cases hmixed : ((e.loaded r macros).compose (e.contextOf r macros) r).1 with
  | none => exact hnone
  | some mixed =>
    refine finish_shader_congr ?_ hnone
    rw [Log.hasErrors_append, hlog, hmix]
    rfl

def compilesSorted (e : Engine) (r : Request) (test : Shader → Bool) : Bool :=
  e.checksSorted r && !((e.loaded r []).compose (e.orderedContext r) r).2.hasErrors &&
    (((e.loaded r []).compose (e.orderedContext r) r).1.bind fun mixed => (finish e.options mixed {}).shader).any test

theorem compiles_of_sorted {test : Shader → Bool} (h : e.compilesSorted r test = true) :
    ∃ shader, (e.compile r []).1.shader = some shader ∧ test shader = true := by
  simp only [compilesSorted, Bool.and_eq_true, Bool.not_eq_true'] at h
  obtain ⟨⟨hcheck, hmix⟩, htest⟩ := h
  have hsorted : (e.loading r []).loaded.Sorted := by
    simp only [checksSorted, Bool.and_eq_true, decide_eq_true_eq] at hcheck
    exact hcheck.1.2
  obtain ⟨hload, hlog, -⟩ := check_of_sorted hcheck
  rw [← contextOf_sorted hsorted] at hmix htest
  rw [← compile_shader hload hlog hmix] at htest
  exact (Option.any_eq_true _ _).mp htest

/-- The shader of a request is closed under calls, if its classes make plain calls only. -/
theorem calls_closed {e : Engine} (h : e.Reachable) {r : Request} {macros : List MacroDef} {shader : Shader}
    {instances : List MixInstance} (hcompile : (e.compile r macros).1.shader = some shader)
    (his : (e.loaded r macros).instances (e.contextOf r macros) r = some instances)
    (hunambiguous : e.Unambiguous r macros) (hplain : PlainCalls e.builtins instances) : shader.Closed := by
  obtain ⟨outcome, mixed, start, hcheck, hmix, hstart, hfinish⟩ := compile_eq_some hcompile
  have htidy := h.tidy hcheck hunambiguous.bases hunambiguous.names
  obtain ⟨-, -, hquiet⟩ := check_context hcheck
  obtain ⟨mixed', hmixed, hlog, rfl⟩ := compose_eq_some hmix
  cases his.symm.trans hmixed
  rw [hfinish] at hcompile
  refine finish_closed hstart hcompile (emit_closed hlog (h.orderly his) (h.classesByName htidy his)
    h.nodup_builtins hplain ?_)
  exact fun _ _ _ _ _ hd => h.cleared htidy his hquiet hd

def plainDenEngine : Engine where
  library := {
    store := {
      inMemory :=
        [("Den", "shader Den : Room { compose Room r; override float F(float x) { return G(base.F(r.F(x))); } };"),
         ("Room", "shader Room { struct S { float p; }; float F(float x) { return sin(S(x).p); } };")] } }

def denEngine : Engine :=
  (plainDenEngine.addBuiltin "shader Lib { float G(float x) { return float(x); } };").toOption.getD plainDenEngine

def denRequest : Request := .mixin [⟨"Den", []⟩] [("r", .single ⟨"Room", []⟩)] []

theorem denEngine_reachable : denEngine.Reachable := Reachable.addBuiltin_getD (.new _ {}) _

theorem den_calls_closed : ∃ shader, (denEngine.compile denRequest []).1.shader = some shader ∧
    shader.Closed ∧ shader.decls.flatMap Decl.freeCalls =
      ["float", "sin", "S", "G", "Room_F", "Room_id1_F", "sin", "S"] := by
  obtain ⟨hnames, hbases, hplain, hcalls⟩ :
      ((denEngine.loading denRequest []).loaded.modules.map Module.name).Nodup ∧
      (∀ entry ∈ (denEngine.loading denRequest []).loaded, ∀ k ∈ entry.2.baseKeys, OneWord k.name) ∧
      (denEngine.mixesSorted denRequest fun _ instances => decide (PlainCalls denEngine.builtins instances)) = true ∧
      (denEngine.compilesSorted denRequest fun s => decide (s.decls.flatMap Decl.freeCalls =
        ["float", "sin", "S", "G", "Room_F", "Room_id1_F", "sin", "S"])) = true := by
    decide +kernel
  obtain ⟨shader, hcompile, hcalls⟩ := compiles_of_sorted hcalls
  obtain ⟨-, instances, -, his, hplain⟩ := mixes_of_sorted hplain
  exact ⟨shader, hcompile, calls_closed denEngine_reachable hcompile his (.of_words hnames hbases)
    (of_decide_eq_true hplain), of_decide_eq_true hcalls⟩

def bareEngine : Engine where
  library := {
    store := {
      inMemory :=
        [("A", "shader A : B { override float F() { return base.F(); } };"),
         ("B", "shader B { abstract float F(); };")] } }

def bareRequest : Request := .single ⟨"A", []⟩

theorem abstract_base_is_called : bareEngine.Reachable ∧ bareEngine.Unambiguous bareRequest [] ∧
    ∃ shader, (bareEngine.compile bareRequest []).1.shader = some shader ∧
      shader.decls.flatMap Decl.freeCalls = ["B_F"] ∧ ¬ shader.Closed := by
  obtain ⟨hnames, hbases, hcalls⟩ :
      ((bareEngine.loading bareRequest []).loaded.modules.map Module.name).Nodup ∧
      (∀ entry ∈ (bareEngine.loading bareRequest []).loaded, ∀ k ∈ entry.2.baseKeys, OneWord k.name) ∧
      (bareEngine.compilesSorted bareRequest fun s =>
        decide (s.decls.flatMap Decl.freeCalls = ["B_F"] ∧ ¬ s.Closed)) = true := by
    decide +kernel
  obtain ⟨shader, hcompile, hcalls⟩ := compiles_of_sorted hcalls
  exact ⟨.new _ {}, .of_words hnames hbases, shader, hcompile, of_decide_eq_true hcalls⟩

end Engine

end ShaderCompose
