import ShaderCompose.Proofs.Engine.Loops
import ShaderCompose.Proofs.Mix.Jumps

/-!
The jumps of a mixed shader, and the loops they belong to.
-/

namespace ShaderCompose

namespace Mix

variable {builtins : List Module} {instances : List MixInstance} {env : RenameEnv} {scope : Scope} {d x : Decl}
  {path image : List Nat}

inductive MadeFrom (builtins : List Module) (instances : List MixInstance) :
    RenameEnv → Scope → Decl → Decl → Prop
  | method {number : Nat} {inst : MixInstance} {cls : ShaderClass} {ref : MemberRef} {d : Decl} (name : String)
      (entry : Option Stage) : HasMethod instances number inst cls ref d →
      MadeFrom builtins instances ⟨builtins, instances, some ⟨number, ref.cls⟩⟩ (Param.scope (d.params?.getD [])) d
        ((RenameEnv.decl ⟨builtins, instances, some ⟨number, ref.cls⟩⟩ { d with name, entry }).run (startState d)).1
  | builtin {ref : BuiltinRef} {d : Decl} : IsBuiltin builtins ref → ref.1.cls.table[ref.2]? = some d →
      MadeFrom builtins instances (builtinEnv builtins instances) [] d
        (((builtinEnv builtins instances).decl d).run {}).1

theorem image_decl_iff {st : Stmt} (name : String) (entry : Option Stage) :
    env.Image (.decl { d with name, entry }) scope path image (.stmt st) ↔
      env.Image (.decl d) scope path image (.stmt st) :=
  ⟨fun h => (image_decl d.name d.entry h rfl).1, fun h => (image_decl name entry h rfl).1⟩

theorem HasMethod.madeFrom {number : Nat} {inst : MixInstance} {cls : ShaderClass} {ref : MemberRef}
    (hd : HasMethod instances number inst cls ref d) (builtins : List Module) (es : List Offer) :
    MadeFrom builtins instances ⟨builtins, instances, some ⟨number, ref.cls⟩⟩ (Param.scope (d.params?.getD [])) d
      ((Offer.method (memberOf builtins instances number inst cls ref d)).placed es) := by
  obtain ⟨name, entry, hrenamed⟩ := (hd.unrolls builtins es).renamed
  rw [hrenamed]
  exact .method name entry hd

theorem MadeFrom.jumps_follow (h : MadeFrom builtins instances env scope d x) : env.JumpsFollow scope d x := by
  cases h with
  | builtin => exact RenameEnv.jumps_follow (builtinEnv builtins instances) d {}
  | @method number _ _ ref _ name entry hd =>
    obtain ⟨hjumps, hlands⟩ := RenameEnv.jumps_follow ⟨builtins, instances, some ⟨number, ref.cls⟩⟩
      { d with name, entry } (startState d)
    -- the name and the mark of an entry point are no part of what is below the method
    have haround : ∀ path, (Node.decl { d with name, entry }).around? Node.isPlainLoop path =
        (Node.decl d).around? Node.isPlainLoop path := by
      intro path
      cases path <;> rfl
    simp only [RenameEnv.CarriesJump, image_decl_iff, bounds_startState, haround] at hjumps hlands
    exact ⟨hjumps, hlands⟩

theorem MadeFrom.loopless (h : MadeFrom builtins instances env scope d x) : (Node.decl x).Loopless := by
  cases h <;> exact RenameEnv.decl_loopless _ _ _

end Mix

namespace Engine

open Mix

variable {e : Engine} {r : Request} {macros : List MacroDef}

/-- A jump of a `for` or `while` stays with its loop; only jumps out of loops over compositions can
get another one. -/
theorem jumps_keep_loops_iff (h : e.Reachable) {shader : Shader}
    (hmix : ((e.loaded r macros).compose (e.contextOf r macros) r).1 = some shader) :
    ∃ instances, (e.loaded r macros).instances (e.contextOf r macros) r = some instances ∧
      (∀ {number inst cls ref d}, HasMethod instances number inst cls ref d → isShared cls d = false →
        ∃ x ∈ shader.decls, MadeFrom e.builtins instances ⟨e.builtins, instances, some ⟨number, ref.cls⟩⟩
          (Param.scope (d.params?.getD [])) d x) ∧
      (∀ x ∈ shader.decls, x.isMethod = true → ∃ env scope d, MadeFrom e.builtins instances env scope d x) ∧
      ∀ {env scope d x}, MadeFrom e.builtins instances env scope d x →
        env.JumpsFollow scope d x ∧
        (∀ {path image j l loop}, env.CarriesJump scope d path image j → (Node.decl d).loopOf? path = some l →
          (Node.decl d).at? l = some loop → loop.isPlainLoop = true →
          ∃ l', (Node.decl x).loopOf? image = some l' ∧ env.Image (.decl d) scope l l' loop) ∧
        (env.KeepsLoops scope d x ↔ ∀ path image j, env.CarriesJump scope d path image j →
          ((Node.decl d).loopAt? path).any Node.isLoop = false) := by
  obtain ⟨instances, his, hlog, rfl⟩ := compose_eq_some hmix
  have horderly := h.orderly his
  obtain ⟨refs, hmixes⟩ := emit_mixes hlog
  refine ⟨instances, his, ?_, ?_, ?_⟩
  · intro number inst cls ref d hd hown
    have hinst := horderly inst hd.inst_mem
    exact ⟨_, hd.placed_mem_decls hmixes hinst hown, hd.madeFrom _ _⟩
  · intro x hx hmethod
    rcases method_of_mem_decls hmixes horderly hx hmethod with ⟨ref, href, hdecl⟩ | ⟨_, _, _, _, d, hd, rfl⟩
    · obtain ⟨d, hd, rfl⟩ := Option.map_eq_some_iff.mp hdecl
      exact ⟨_, _, d, .builtin href hd⟩
    · exact ⟨_, _, d, hd.madeFrom _ _⟩
  · intro env scope d x hmade
    have hfollow := hmade.jumps_follow
    exact ⟨hfollow, hfollow.stays, RenameEnv.keepsLoops_iff hmade.loopless⟩

def belfryEngine : Engine where
  library := {
    store := {
      inMemory :=
        [("Belfry", "shader Belfry { compose Bell bs[]; void F() { foreach (var b in bs) while (true) break; } };"),
         ("Bell", "shader Bell { int N; };")] } }

def belfryRequest : Request :=
  .mixin [⟨"Belfry", []⟩] [("bs", .array [.single ⟨"Bell", []⟩, .single ⟨"Bell", []⟩])] []

def leavesInner (slot : String) (d : Decl) : Bool :=
  match d.kind with
  | .method _ [] _ (some [.forEach _ _ (.ident _ collection) (.whileLoop _ _ (.breakLoop _))]) => collection == slot
  | _ => false

theorem leavesInner_carries {slot : String} {d : Decl} (h : leavesInner slot d = true) (env : RenameEnv)
    {inst : MixInstance} {filling : Filling} (hinst : env.instance? = some inst)
    (hslot : inst.slots.lookup slot = some filling) (harray : filling.isArray = true) :
    (∀ k < filling.instances.length, env.CarriesJump (Param.scope (d.params?.getD [])) d [3, 0, 2, 2]
        ([3, 0] ++ RenameEnv.copyPath k ++ [2]) .leave) ∧
      (Node.decl d).loopOf? [3, 0, 2, 2] = some [3, 0, 2] ∧
      ∃ loop, (Node.decl d).at? [3, 0, 2] = some loop ∧ loop.isPlainLoop = true := by
  unfold leavesInner at h
  split at h
  · next returns semantic l v loc collection l₁ condition l₂ hkind =>
    obtain rfl := eq_of_beq h
    have hbody := Node.children_method hkind
    refine ⟨fun k hk => ⟨_, .child rfl hbody (.child rfl rfl (.copy ?_ (.child rfl rfl .here))), rfl⟩, ?_, ?_⟩
    · -- the body has no parameters that could hide the slot
      simpa [RenameEnv.targetsIn, Expr.ident?, hinst, hslot, harray, Node.entering, Node.children, hkind,
        Node.declaredBy, Node.declares, Param.scope, Decl.params?] using hk
    · rw [Node.loopOf?, Node.around?_cons hbody]
      rfl
    · rw [Node.at?, hbody]
      exact ⟨_, rfl, rfl⟩
  · cases h

theorem belfry_jumps_keep_loops : belfryEngine.Reachable ∧ ∃ shader instances,
    ((belfryEngine.loaded belfryRequest []).compose (belfryEngine.contextOf belfryRequest []) belfryRequest).1 =
      some shader ∧
    (belfryEngine.loaded belfryRequest []).instances (belfryEngine.contextOf belfryRequest []) belfryRequest =
      some instances ∧
    ∃ x ∈ shader.decls, ∃ env scope d loop, MadeFrom [] instances env scope d x ∧ loop.isPlainLoop = true ∧
      ∀ k < 2, ((Node.decl x).at? ([3, 0] ++ RenameEnv.copyPath k ++ [2])).bind Node.jump? = some .leave ∧
        ∃ l, (Node.decl x).loopOf? ([3, 0] ++ RenameEnv.copyPath k ++ [2]) = some l ∧
          env.Image (.decl d) scope [3, 0, 2] l loop := by
  have hreachable : belfryEngine.Reachable := .new _ {}
  have hbelfry : (belfryEngine.mixesSorted belfryRequest fun _ instances => instances[0]?.any fun belfry =>
      decide (belfry.slots.lookup "bs" = some ⟨true, [1, 2]⟩) && belfry.table.classes[0]?.any fun cls =>
        cls.methods.any fun m => !isShared cls m.2 && leavesInner "bs" m.2) = true := by
    decide +kernel
  obtain ⟨shader, instances, hmix, his, hbelfry⟩ := mixes_of_sorted hbelfry
  obtain ⟨instances', his', hmethods, -, hjumps⟩ := jumps_keep_loops_iff hreachable hmix
  cases his.symm.trans his'
  obtain ⟨belfry, hinst, hbelfry⟩ := (Option.any_eq_true _ _).mp hbelfry
  obtain ⟨hslot, hmethod⟩ := Bool.and_eq_true_iff.mp hbelfry
  obtain ⟨cls, hcls, hmethod⟩ := (Option.any_eq_true _ _).mp hmethod
  obtain ⟨⟨id, d⟩, hd, hmethod⟩ := List.any_eq_true.mp hmethod
  obtain ⟨hown, hleaves⟩ := Bool.and_eq_true_iff.mp hmethod
  have hd : HasMethod instances 0 belfry cls ⟨0, id⟩ d := ⟨hinst, hcls, hd⟩
  obtain ⟨x, hx, hmade⟩ := hmethods hd (by simpa using hown)
  obtain ⟨hfollow, hstays, -⟩ := hjumps hmade
  obtain ⟨hcarries, hloop, loop, hat, hplain⟩ := leavesInner_carries hleaves
    ⟨belfryEngine.builtins, instances, some ⟨0, 0⟩⟩ hinst (of_decide_eq_true hslot) rfl
  refine ⟨hreachable, shader, instances, hmix, his, x, hx, _, _, d, loop, hmade, hplain, fun k hk => ⟨?_, ?_⟩⟩
  · exact (hfollow.jumps _ _).mpr ⟨_, hcarries k hk⟩
  · exact hstays (hcarries k hk) hloop hat hplain

/-! ## Jumps that are left to other loops -/

def abbeyEngine : Engine where
  library := {
    store := {
      inMemory :=
        [("Abbey",
          "shader Abbey { compose Bell bs[]; void F() { while (true) foreach (var b in bs) { b.N; break; } } };"),
         ("Bell", "shader Bell { int N; };")] } }

def abbeyRequest : Request := .mixin [⟨"Abbey", []⟩] [("bs", .array [.single ⟨"Bell", []⟩])] []

def leavesJump (j : Jump) (path image : List Nat) (d x : Decl) : Bool :=
  decide (((Node.decl d).at? path).bind Node.jump? = some j) && ((Node.decl d).loopAt? path).any Node.isLoop &&
    decide (((Node.decl x).at? image).bind Node.jump? = some j) && ((Node.decl x).loopAt? image).any Node.isPlainLoop

theorem jump_left_to_outer_loop : abbeyEngine.Reachable ∧
    MixesInto abbeyEngine abbeyRequest (leavesJump .leave ([3, 0, 2] ++ 2 :: [1, 1, 0])
      ([3, 0, 2] ++ RenameEnv.copyPath 0 ++ [1, 1, 0])) := by
  exact ⟨.new _ {}, mixesInto_of_sorted (by decide +kernel)⟩

end Engine

end ShaderCompose
