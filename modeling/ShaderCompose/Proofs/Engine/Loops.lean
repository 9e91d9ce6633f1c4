import ShaderCompose.Proofs.Engine.Mixing
import ShaderCompose.Proofs.Engine.Outcome
import ShaderCompose.Proofs.Mix.Closed
import ShaderCompose.Proofs.Mix.Realized
import ShaderCompose.Proofs.Mix.References
import ShaderCompose.Proofs.Mix.Scopes
import ShaderCompose.Proofs.Mix.Unrolled

/-!
Loops over the instances in a slot are unrolled (`Engine.loops_unrolled`).
-/

namespace ShaderCompose

open List

theorem Node.children_method {d : Decl} {type : TypeRef} {semantic : Option String} {body : List Stmt}
    (h : d.kind = .method type [] semantic (some body)) : (Node.decl d).children[3]? = some (.stmts body) := by
  rw [Node.children, h]
  rfl

namespace Mix

/-! ## Members and their names -/

def MixInstance.HasMember (i : MixInstance) (name : String) : Prop :=
  (i.table.method? name).isSome = true ∨
    ∃ cls ∈ i.table.classes, ∃ v ∈ cls.vars, v.2.name = name ∧ v.2.isComposition = false

/-- What the members of an instance are called. -/
inductive MixInstance.Calls (i : MixInstance) : String → String → Prop
  | method {slot : MethodSlot} {ref : MemberRef} {renamed : String} : slot ∈ i.table.methods →
      slot.final? = some ref → Implements i.label i.table ref renamed → Calls i slot.name renamed
  | variable {cls : ShaderClass} {id : DeclId} {d : Decl} : cls ∈ i.table.classes → (id, d) ∈ cls.vars →
      d.isComposition = false → Calls i d.name (variableName i.label cls d)

structure MixInstance.Named (shader : Shader) (i : MixInstance) : Prop where
  found : ∀ name, i.HasMember name → ∃ renamed, i.names.member? name = some renamed
  calls : ∀ name renamed, i.names.member? name = some renamed → i.Calls name renamed ∧ shader.Declares renamed

/-- Loops over array slots have become blocks of copies. -/
structure Unrolls (env : RenameEnv) (inst : MixInstance) (d x : Decl) : Prop where
  renamed : ∃ name entry, x = ((env.decl { d with name, entry }).run (startState d)).1
  loops : ∀ {path image : List Nat} {l : Lead} {v slot : String} {loc : Span} {body : Stmt} {filling : Filling},
    env.Image (.decl d) (Param.scope (d.params?.getD [])) path image (.stmt (.forEach l v (.ident loc slot) body)) →
    ((Node.decl d).boundAt path (Param.scope (d.params?.getD []))).lookup slot = none →
    inst.slots.lookup slot = some filling → filling.isArray = true →
    ∃ copies, (Node.decl x).at? image = some (.stmt (.block l copies)) ∧
      env.Copies v body ((Node.decl d).boundAt path (Param.scope (d.params?.getD []))) filling.instances copies

section

variable {builtins : List Module} {instances : List MixInstance} {number : Nat} {inst : MixInstance}
  {cls : ShaderClass} {ref : MemberRef} {d : Decl}

theorem MixInstance.Orderly.member?_isSome {i : MixInstance} (h : i.Orderly) {name : String}
    (hname : i.HasMember name) : ∃ renamed, i.names.member? name = some renamed := by
  cases hmethod : i.names.methods.lookup name with
  | some renamed => exact ⟨renamed, by simp [Names.member?, hmethod]⟩
  | none =>
    rcases hname with hsome | ⟨cls, hcls, v, hv, rfl, hcomp⟩
    · have := h.methods_isSome hsome
      simp [hmethod] at this
    · have hmem : (v.2.name, variableName i.label cls v.2) ∈ i.names.vars := by
        rw [h.names]
        refine mem_flatMap.mpr ⟨cls, hcls, mem_map.mpr ⟨v.2, mem_filter.mpr ⟨?_, ?_⟩, rfl⟩⟩
        · exact mem_map_of_mem hv
        · simp [hcomp]
      obtain ⟨renamed, hrenamed⟩ := Option.isSome_iff_exists.mp
        (lookup_isSome_of_mem_keys (mem_map_of_mem (f := Prod.fst) hmem))
      exact ⟨renamed, by simpa [Names.member?, hmethod] using hrenamed⟩

theorem MixInstance.Orderly.calls {i : MixInstance} (h : i.Orderly) {name renamed : String}
    (hname : i.names.member? name = some renamed) : i.Calls name renamed := by
  rcases Names.member?_cases hname with hmethod | ⟨-, hvar⟩
  · rw [h.names] at hmethod
    obtain ⟨slot, ref, hslot, rfl, hfinal, himplements⟩ := Names.lookup_methods hmethod
    exact .method hslot hfinal himplements
  · rw [h.names] at hvar
    obtain ⟨ref, cls, d, hcls, hd, hcomp, rfl, rfl⟩ := Names.lookup_vars hvar
    exact .variable (mem_of_getElem? hcls) hd hcomp

theorem named_of_emit (hlog : (emit builtins instances).2.hasErrors = false)
    (horderly : ∀ i ∈ instances, i.Orderly) : ∀ i ∈ instances, i.Named (emit builtins instances).1 := by
  intro i hi
  obtain ⟨n, hn⟩ := mem_iff_getElem?.mp hi
  refine ⟨fun name => (horderly i hi).member?_isSome, fun name renamed hname => ?_⟩
  exact ⟨(horderly i hi).calls hname, member?_declared hlog horderly hn hname⟩

theorem image_decl {env : RenameEnv} {scope : Scope} {path image : List Nat} {m : Node} (name : String)
    (entry : Option Stage) (h : env.Image (.decl d) scope path image m) (hm : m.isAccess = true) :
    env.Image (.decl { d with name, entry }) scope path image m ∧
      (Node.decl { d with name, entry }).boundAt path scope = (Node.decl d).boundAt path scope := by
  cases h with
  | here => cases hm
  | child _ hchild hrest => exact ⟨.child rfl hchild hrest, rfl⟩

theorem HasMethod.unrolls (hd : HasMethod instances number inst cls ref d) (builtins : List Module)
    (es : List Offer) :
    Unrolls ⟨builtins, instances, some ⟨number, ref.cls⟩⟩ inst d
      ((Offer.method (memberOf builtins instances number inst cls ref d)).placed es) := by
  generalize hm : memberOf builtins instances number inst cls ref d = m
  have hplaced : (Offer.method m).placed es = ((m.env.decl
      { m.decl with name := m.methodName?.getD "", entry := m.entry? }).run (startState m.decl)).1 := rfl
  rw [hplaced]
  -- where a method is declared and under which name does not matter for its body
  generalize m.methodName?.getD "" = name
  generalize m.entry? = entry
  subst hm
  refine ⟨⟨name, entry, rfl⟩, ?_⟩
  intro path image l v slot loc body filling himage hfree hslot harray
  obtain ⟨himage, hbounds⟩ := image_decl name entry himage rfl
  rw [← hbounds, ← bounds_startState] at hfree ⊢
  rw [← bounds_startState] at himage
  exact himage.unrolled hd.inst_eq hfree hslot harray

variable {refs : List BuiltinRef}

theorem HasMethod.placed_mem_decls (hmixes : Mixes builtins instances refs)
    (horderly : inst.Orderly) (hd : HasMethod instances number inst cls ref d) (hown : isShared cls d = false) :
    (Offer.method (memberOf builtins instances number inst cls ref d)).placed (entriesOf builtins instances) ∈
      (emit builtins instances).1.decls := by
  have hname := (hd.implementation horderly).name? builtins horderly
  have hoffer := (method_mem_offersOf builtins).mpr ⟨number, inst, cls, ref, d, hd, rfl⟩
  have hentry := mem_entries_of_keyless hoffer (by simp [hname]) (by simp [Offer.key?, Offer.keyOf, memberOf, hown])
  exact (hmixes.decls _).mpr (.inr ⟨_, hentry, rfl, rfl⟩)

theorem method_of_mem_decls (hmixes : Mixes builtins instances refs)
    (horderly : ∀ i ∈ instances, i.Orderly) {x : Decl} (hx : x ∈ (emit builtins instances).1.decls)
    (hmethod : x.isMethod = true) :
    (∃ ref, IsBuiltin builtins ref ∧ builtinDecl? (builtinEnv builtins instances) ref = some x) ∨
      ∃ number inst cls ref d, HasMethod instances number inst cls ref d ∧
        x = (Offer.method (memberOf builtins instances number inst cls ref d)).placed
          (entriesOf builtins instances) := by
  rcases (hmixes.decls x).mp hx with ⟨ref, href, hdecl⟩ | ⟨e, he, -, rfl⟩
  · exact .inl ⟨ref, hmixes.known ref href, hdecl⟩
  · have hoffer := (entries_sublist _).subset he
    obtain ⟨m, rfl⟩ := (Offer.placed_isMethod (fits_of_offered horderly hoffer)).mp hmethod
    obtain ⟨number, inst, cls, ref, d, hd, rfl⟩ := (method_mem_offersOf builtins).mp hoffer
    exact .inr ⟨number, inst, cls, ref, d, hd, rfl⟩

theorem loopless_of_mem_decls (hmixes : Mixes builtins instances refs)
    (horderly : ∀ i ∈ instances, i.Orderly) {x : Decl} (hx : x ∈ (emit builtins instances).1.decls) :
    (Node.decl x).Loopless := by
  cases hmethod : x.isMethod with
  | false => exact RenameEnv.loopless_of_not_isMethod hmethod
  | true =>
    rcases method_of_mem_decls hmixes horderly hx hmethod with ⟨ref, -, hdecl⟩ | ⟨_, _, _, _, _, -, rfl⟩
    · obtain ⟨d, -, rfl⟩ := Option.map_eq_some_iff.mp hdecl
      exact RenameEnv.decl_loopless _ _ _
    · exact RenameEnv.decl_loopless _ _ _

end

end Mix

namespace Engine

open Mix

variable {e : Engine} {r : Request} {macros : List MacroDef}

theorem quiet_of_compose {context : Context} {shader : Shader} (h : (e.compose context r).1 = some shader) :
    (e.composed context r).2.log.hasErrors = false := by
  unfold compose at h
  dsimp only at h
  split at h
  · cases h
  · next hquiet => exact eq_false_of_ne_true hquiet

theorem Reachable.realizes (h : e.Reachable) {shader : Shader}
    (hmix : ((e.loaded r macros).compose (e.contextOf r macros) r).1 = some shader) :
    ∃ element instances, r.elements = [element] ∧
      (e.loaded r macros).instances (e.contextOf r macros) r = some instances ∧
      Realizes (e.contextOf r macros) instances element 0 ∧
      ∀ i ∈ instances, ∀ made ∈ i.slots, made.2.instances.Pairwise (· < ·) ∧ (made.2.instances = [] ∨
        ∃ source ∈ r.sources,
          List.Forall₂ (Realizes (e.contextOf r macros) instances) source.2.elements made.2.instances) := by
  obtain ⟨root, instances, hroot, hinstances, hcollected, -, -⟩ := compose_spec hmix
  have hcomposed : (e.contextOf r macros).compose (e.loaded r macros).options
      ((e.loaded r macros).requestScope (e.contextOf r macros)).scope r
      { next := ((e.loaded r macros).requestScope (e.contextOf r macros)).next } =
      (some [root], ((e.loaded r macros).composed (e.contextOf r macros) r).2) := Prod.ext hroot rfl
  obtain ⟨hsupplies, hstands⟩ := Context.compose_stands (h.sound.requestScope r macros).coherent _ r _ _ [root]
    (Nat.le_refl _) hcomposed (quiet_of_compose hmix)
  -- there is one root, so the request has one element
  have hall := hstands _ (prefix_refl _)
  obtain ⟨element, rest, hstandsRoot, hrest, helements⟩ := forall₂_cons_right_iff.mp hall
  rw [forall₂_nil_right_iff.mp hrest] at helements
  have htables : ∀ k ∈ (e.contextOf r macros).classes, k.table = .ofModule k.loaded.module := by
    intro k hk
    obtain ⟨entry, -, rfl⟩ := Context.mem_classes_make.mp hk
    rfl
  refine ⟨element, instances, helements, ?_, ?_⟩
  · rw [Engine.instances, hroot]
    exact hinstances
  · refine instancesOf_realizes htables hstandsRoot (fun entry hentry => ?_) hinstances hcollected
    rcases hsupplies.new entry hentry with hold | ⟨source, hsource, hforall⟩
    · cases hold
    · exact ⟨source, hsource, hforall _ (prefix_refl _)⟩

/-- A loop over an array slot becomes one copy of its body for each instance, and none is left. -/
theorem loops_unrolled (h : e.Reachable) {shader : Shader}
    (hmix : ((e.loaded r macros).compose (e.contextOf r macros) r).1 = some shader) :
    ∃ element instances, r.elements = [element] ∧
      (e.loaded r macros).instances (e.contextOf r macros) r = some instances ∧
      Realizes (e.contextOf r macros) instances element 0 ∧
      (∀ i ∈ instances, i.Named shader ∧ ∀ made ∈ i.slots, made.2.instances.Pairwise (· < ·) ∧
        (made.2.instances = [] ∨ ∃ source ∈ r.sources,
          List.Forall₂ (Realizes (e.contextOf r macros) instances) source.2.elements made.2.instances)) ∧
      (∀ {number inst cls ref d}, HasMethod instances number inst cls ref d → isShared cls d = false →
        ∃ x ∈ shader.decls, Unrolls ⟨e.builtins, instances, some ⟨number, ref.cls⟩⟩ inst d x) ∧
      ∀ x ∈ shader.decls, (Node.decl x).Loopless ∧ (x.isMethod = true →
        (∃ ref, IsBuiltin e.builtins ref ∧ builtinDecl? (builtinEnv e.builtins instances) ref = some x) ∨
          ∃ number inst cls ref d, HasMethod instances number inst cls ref d ∧
            Unrolls ⟨e.builtins, instances, some ⟨number, ref.cls⟩⟩ inst d x) := by
  obtain ⟨element, instances, helement, his, hrealizes, hslots⟩ := h.realizes hmix
  obtain ⟨instances', his', hlog, rfl⟩ := compose_eq_some hmix
  cases his.symm.trans his'
  have horderly := h.orderly his
  obtain ⟨refs, hmixes⟩ := emit_mixes hlog
  refine ⟨element, instances, helement, his, hrealizes, ?_, ?_, ?_⟩
  · exact fun i hi => ⟨named_of_emit hlog horderly i hi, hslots i hi⟩
  · intro number inst cls ref d hd hown
    have hinst := horderly inst hd.inst_mem
    exact ⟨_, hd.placed_mem_decls hmixes hinst hown, hd.unrolls _ _⟩
  · intro x hx
    refine ⟨loopless_of_mem_decls hmixes horderly hx, fun hmethod => ?_⟩
    rcases method_of_mem_decls hmixes horderly hx hmethod with hbuiltin | ⟨number, inst, cls, ref, d, hd, rfl⟩
    · exact Or.inl hbuiltin
    · exact Or.inr ⟨number, inst, cls, ref, d, hd, hd.unrolls _ _⟩

def barnEngine : Engine where
  library := {
    store := {
      inMemory :=
        [("Barn", "shader Barn { compose Lamp lamps[]; void Dim() { foreach (var lamp in lamps) lamp.Power = 0; } };"),
         ("Bulb", "shader Bulb : Lamp { };"),
         ("Lamp", "shader Lamp { float Power; };")] } }

def barnRequest : Request :=
  .mixin [⟨"Barn", []⟩] [("lamps", .array [.single ⟨"Lamp", []⟩, .array [.single ⟨"Bulb", []⟩]])] []

def assignsEach (v slot member : String) (d : Decl) : Bool :=
  match d.kind with
  | .method _ [] _ (some [.forEach _ bound (.ident _ collection)
      (.simple _ (.expr (.assign _ _ (.member _ (.ident _ target) name) _)))]) =>
    bound == v && collection == slot && target == v && name == member
  | _ => false

theorem assignsEach_image {v slot member : String} {d : Decl} (h : assignsEach v slot member d = true)
    (env : RenameEnv) :
    ∃ l loc body, env.Image (.decl d) (Param.scope (d.params?.getD [])) [3, 0] [3, 0]
        (.stmt (.forEach l v (.ident loc slot) body)) ∧
      ((Node.decl d).boundAt [3, 0] (Param.scope (d.params?.getD []))).lookup slot = none ∧
      ∃ loc' l', env.Image (.stmt body) ((v, .loop) :: (Node.decl d).boundAt [3, 0]
          (Param.scope (d.params?.getD []))) [1, 0, 0] [1, 0, 0] (.expr (.member loc' (.ident l' v) member)) ∧
        ((Node.stmt body).boundAt [1, 0, 0] []).lookup v = none := by
  unfold assignsEach at h
  split at h
  · next returns semantic l bound loc collection l₁ loc₁ op loc₂ loc₃ target name value hkind =>
    simp only [Bool.and_eq_true, beq_iff_eq] at h
    obtain ⟨⟨⟨rfl, rfl⟩, rfl⟩, rfl⟩ := h
    refine ⟨l, loc, _, .child rfl (Node.children_method hkind) (.child rfl rfl .here), ?_, loc₂, loc₃,
      .child rfl rfl (.child rfl rfl (.child rfl rfl .here)), rfl⟩
    simp [Node.boundAt, Node.entering, Node.children, hkind, Node.declaredBy, Node.declares, Param.scope,
      Decl.params?]
  · cases h

theorem barn_loops_unrolled : barnEngine.Reachable ∧ ∃ shader instances,
    ((barnEngine.loaded barnRequest []).compose (barnEngine.contextOf barnRequest []) barnRequest).1 =
      some shader ∧
    (barnEngine.loaded barnRequest []).instances (barnEngine.contextOf barnRequest []) barnRequest =
      some instances ∧
    List.Forall₂ (Realizes (barnEngine.contextOf barnRequest []) instances)
      [.single ⟨"Lamp", []⟩, .single ⟨"Bulb", []⟩] [1, 2] ∧
    ∃ x ∈ shader.decls, (Node.decl x).Loopless ∧ ∃ l first second,
      (Node.decl x).at? [3, 0] = some (.stmt (.block l [first, second])) ∧
      (∃ loc, (Node.stmt first).at? [1, 0, 0] = some (.expr (.ident loc "Lamp_id1_Power"))) ∧
      ∃ loc, (Node.stmt second).at? [1, 0, 0] = some (.expr (.ident loc "Bulb_id2_Power")) := by
  have hreachable : barnEngine.Reachable := .new _ {}
  have hbarn : (barnEngine.mixesSorted barnRequest fun _ instances =>
      (instances[0]?.any fun barn =>
        decide (barn.DeclaresOnce "lamps" ∧ barn.slots.lookup "lamps" = some ⟨true, [1, 2]⟩) &&
          barn.table.classes[0]?.any fun cls => cls.methods.any fun m =>
            !isShared cls m.2 && assignsEach "lamp" "lamps" "Power" m.2) &&
      decide (instances.map (fun i => i.names.member? "Power") =
        [none, some "Lamp_id1_Power", some "Bulb_id2_Power"])) = true := by
    decide +kernel
  obtain ⟨shader, instances, hmix, his, hbarn⟩ := mixes_of_sorted hbarn
  obtain ⟨element, instances', helement, his', hrealizes, -, hmethods, hdecls⟩ := loops_unrolled hreachable hmix
  cases his.symm.trans his'
  obtain ⟨hbarn, hnames⟩ := Bool.and_eq_true_iff.mp hbarn
  obtain ⟨barn, hinst, hbarn⟩ := (Option.any_eq_true _ _).mp hbarn
  obtain ⟨hslot, hmethod⟩ := Bool.and_eq_true_iff.mp hbarn
  obtain ⟨honce, hslot⟩ := of_decide_eq_true hslot
  obtain ⟨cls, hcls, hmethod⟩ := (Option.any_eq_true _ _).mp hmethod
  obtain ⟨⟨id, d⟩, hd, hmethod⟩ := List.any_eq_true.mp hmethod
  obtain ⟨hown, hassigns⟩ := Bool.and_eq_true_iff.mp hmethod
  refine ⟨hreachable, shader, instances, hmix, his, ?_, ?_⟩
  · obtain rfl : barnRequest = element := List.singleton_inj.mp helement
    obtain @⟨_, _, i, _, -, hi, -, hgiven⟩ := hrealizes
    cases hinst.symm.trans hi
    exact hgiven "lamps" _ _ List.mem_cons_self honce hslot
  · have hd : HasMethod instances 0 barn cls ⟨0, id⟩ d := ⟨hinst, hcls, hd⟩
    obtain ⟨x, hx, hunrolls⟩ := hmethods hd (by simpa using hown)
    obtain ⟨l, loc, body, himage, hfree, loc', l', haccess, hshadow⟩ := assignsEach_image hassigns
      ⟨barnEngine.builtins, instances, some ⟨0, 0⟩⟩
    obtain ⟨copies, hblock, hcopies⟩ := hunrolls.loops himage hfree hslot rfl
    obtain ⟨first, second, rfl⟩ := List.length_eq_two.mp hcopies.length
    have hnamed : ∀ (number : Nat) (renamed : String),
        [none, some "Lamp_id1_Power", some "Bulb_id2_Power"][number]? = some (some renamed) →
        ∃ composed, instances[number]? = some composed ∧ composed.names.member? "Power" = some renamed := by
      intro number renamed hrenamed
      rw [← of_decide_eq_true hnames, List.getElem?_map] at hrenamed
      exact Option.map_eq_some_iff.mp hrenamed
    obtain ⟨lamp, hlamp, hpower⟩ := hnamed 1 _ rfl
    obtain ⟨bulb, hbulb, hpower'⟩ := hnamed 2 _ rfl
    have hv : "lamp" ∉ Check.specialNames := by decide
    refine ⟨x, hx, (hdecls x hx).1, l, first, second, hblock, ⟨loc', ?_⟩, loc', ?_⟩
    · exact hcopies.access hv (k := 0) rfl rfl hlamp haccess hshadow hpower
    · exact hcopies.access hv (k := 1) rfl rfl hbulb haccess hshadow hpower'

/-! ## Loops that are unrolled otherwise -/

def isAccessTo (v member : String) : Node → Bool
  | .expr (.member _ (.ident _ target) name) => target == v && name == member
  | _ => false

def isLoopOver (v slot : String) : Node → Bool
  | .stmt (.forEach _ bound (.ident _ collection) _) => bound == v && collection == slot
  | _ => false

def isEmptyBlock : Node → Bool
  | .stmt (.block _ []) => true
  | _ => false

/-- A method of the root of a mixed request becomes a related declaration. -/
def MixesInto (e : Engine) (r : Request) (related : Decl → Decl → Bool) : Prop :=
  (e.check r []).1 = some (e.contextOf r []) ∧
  ∃ shader instances inst cls ref d x, ((e.loaded r []).compose (e.contextOf r []) r).1 = some shader ∧
    (e.loaded r []).instances (e.contextOf r []) r = some instances ∧
    HasMethod instances 0 inst cls ref d ∧ x ∈ shader.decls ∧ related d x = true

theorem mixesInto_of_sorted {related : Decl → Decl → Bool} (h : e.checksSorted r = true ∧
    (e.mixesSorted r fun shader instances => instances[0]?.any fun inst => inst.table.classes.zipIdx.any fun cls =>
      cls.1.methods.any fun m => shader.decls.any (related m.2)) = true) : MixesInto e r related := by
  obtain ⟨hcheck, h⟩ := h
  obtain ⟨-, -, outcome, hcheck⟩ := check_of_sorted hcheck
  obtain ⟨shader, instances, hmix, his, h⟩ := mixes_of_sorted h
  obtain ⟨inst, hinst, h⟩ := (Option.any_eq_true _ _).mp h
  obtain ⟨⟨cls, place⟩, hcls, h⟩ := any_eq_true.mp h
  obtain ⟨⟨id, d⟩, hd, h⟩ := any_eq_true.mp h
  obtain ⟨x, hx, hrelated⟩ := any_eq_true.mp h
  refine ⟨congrArg Prod.fst hcheck, shader, instances, inst, cls, ⟨place, id⟩, d, x, hmix, his, ⟨hinst, ?_, hd⟩, hx,
    hrelated⟩
  exact mk_mem_zipIdx_iff_getElem?.mp hcls

def atticEngine : Engine where
  library := {
    store := {
      inMemory :=
        [("Attic",
          "shader Attic { compose Bell bs[]; void F() { foreach (var b in bs) [loop(b.N)] foreach (var c in bs); } };"),
         ("Bell", "shader Bell { int N; };")] } }

def atticRequest : Request :=
  .mixin [⟨"Attic", []⟩] [("bs", .array [.single ⟨"Bell", []⟩, .single ⟨"Bell", []⟩])] []

def couchEngine : Engine where
  options := { fillGenerics := true }
  library := {
    store := {
      inMemory :=
        [("Bell", "shader Bell { int N; };"),
         ("Mixin_04b5a6b5", "shader Mixin_04b5a6b5<int N> { compose Bell bs[]; compose Bell bs[]; };"),
         ("Rug", "shader Rug { };"),
         ("Sofa", "shader Sofa : Mixin_04b5a6b5 { void F() { foreach (var b in bs) b.N; } };")] } }

def couchRequest : Request :=
  .mixin [⟨"Sofa", []⟩, ⟨"Rug", []⟩] [("bs", .array [.single ⟨"Bell", []⟩, .single ⟨"Bell", []⟩])] []

def leavesAccess (d x : Decl) : Bool :=
  ((Node.decl d).at? [3, 0]).any (isLoopOver "b" "bs") &&
    ((Node.decl d).at? ([3, 0] ++ 2 :: [0, 0, 0])).any (isAccessTo "b" "N") &&
    ((Node.decl x).at? ([3, 0] ++ RenameEnv.copyPath 0 ++ [0, 0, 0])).any (isAccessTo "b" "N")

def leavesNothing (d x : Decl) : Bool :=
  ((Node.decl d).at? [3, 0]).any (isLoopOver "b" "bs") && ((Node.decl x).at? [3, 0]).any isEmptyBlock

theorem attribute_keeps_loop_variable : atticEngine.Reachable ∧ MixesInto atticEngine atticRequest leavesAccess ∧
    couchEngine.Reachable ∧ MixesInto couchEngine couchRequest leavesNothing := by
  exact ⟨.new _ {}, mixesInto_of_sorted (by decide +kernel), .new _ { fillGenerics := true },
    mixesInto_of_sorted (by decide +kernel)⟩

end Engine

end ShaderCompose
