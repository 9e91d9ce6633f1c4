import ShaderCompose.Proofs.Engine.Loops

/-!
Members through `this` become what they are called in the instance.
-/

namespace ShaderCompose

namespace Mix

variable {env : RenameEnv} {inst : MixInstance} {d x : Decl}

def boundIn (d : Decl) (path : List Nat) : Scope := (Node.decl d).boundAt path (Param.scope (d.params?.getD []))

structure ResolvesThis (env : RenameEnv) (inst : MixInstance) (d x : Decl) : Prop where
  renamed : ∃ name entry, x = ((env.decl { d with name, entry }).run (startState d)).1
  free : ∀ {path image : List Nat} {loc l : Span} {name renamed : String},
    env.Image (.decl d) (boundIn d []) path image (.expr (.member loc (.ident l "this") name)) →
    (boundIn d path).lookup "this" = none → (boundIn d path).lookup name = none →
    inst.names.member? name = some renamed → (Node.decl x).at? image = some (.expr (.ident loc renamed))
  hidden : ∀ {path image : List Nat} {loc l : Span} {name : String},
    env.Image (.decl d) (boundIn d []) path image (.expr (.member loc (.ident l "this") name)) →
    (boundIn d path).lookup "this" = none → (boundIn d path).lookup name ≠ none →
    ∃ target, (Node.decl x).at? image = some (.expr (.member loc target name))
  leads : ∀ {path image : List Nat} {l : Lead} {v : String} {collection : Expr} {body : Stmt},
    env.Image (.decl d) (boundIn d []) path image (.stmt (.forEach l v collection body)) →
    ∃ copies, (Node.decl x).at? image = some (.stmt (.block l copies))

theorem resolveMember_this {s : RenameState} (hinst : env.instance? = some inst) (hthis : s.binding? "this" = none)
    (l loc : Span) (name : String) : env.resolveMember (.ident l "this") name loc s = env.resolveName name s := by
  obtain ⟨place, hplace, -⟩ := Option.bind_eq_some_iff.mp hinst
  simp [RenameEnv.resolveMember, hplace, hinst, Expr.ident?, hthis]

theorem Unrolls.image (h : Unrolls env inst d x) {path image : List Nat} {m : Node}
    (himage : env.Image (.decl d) (boundIn d []) path image m) (hm : m.isAccess = true) :
    ∃ t : RenameState, t.bounds = boundIn d path ∧ (Node.decl x).at? image = some (env.node m t).1 := by
  obtain ⟨name, entry, rfl⟩ := h.renamed
  obtain ⟨himage, hbounds⟩ := image_decl name entry himage hm
  obtain ⟨t, hvisits⟩ := himage.visits hm (startState d) (bounds_startState d)
  refine ⟨t, ?_, hvisits.renamesAt.result⟩
  rw [hvisits.renamesAt.binds.bounds, bounds_startState, ← Node.boundAt_eq]
  exact hbounds

theorem Unrolls.resolvesThis (h : Unrolls env inst d x) (hinst : env.instance? = some inst) :
    ResolvesThis env inst d x := by
  refine ⟨h.renamed, ?_, ?_, ?_⟩
  · intro path image loc l name renamed himage hthis hfree hname
    obtain ⟨t, ht, hresult⟩ := h.image himage rfl
    rw [← ht, t.lookup_bounds, Option.map_eq_none_iff] at hthis hfree
    have hresolved : env.resolveMember (.ident l "this") name loc t = (some renamed, t) := by
      rw [resolveMember_this hinst hthis]
      simp [RenameEnv.resolveName, hfree, hinst, hname]
    rw [hresult]
    change some (Node.expr (env.expr (.member loc (.ident l "this") name) t).1) = _
    rw [RenameEnv.expr_member_some hresolved]
  · intro path image loc l name himage hthis hbound
    obtain ⟨t, ht, hresult⟩ := h.image himage rfl
    rw [← ht, t.lookup_bounds] at hthis hbound
    have hresolved : env.resolveMember (.ident l "this") name loc t = (none, t) := by
      rw [resolveMember_this hinst (Option.map_eq_none_iff.mp hthis)]
      exact if_pos (by simpa [Option.isSome_iff_ne_none] using hbound)
    refine ⟨(env.expr (.ident l "this") t).1, hresult.trans ?_⟩
    change some (Node.expr (env.expr (.member loc (.ident l "this") name) t).1) = _
    rw [RenameEnv.expr_member_none hresolved]
  · intro path image l v collection body himage
    obtain ⟨t, -, hresult⟩ := h.image himage rfl
    refine ⟨env.copies v body (env.loopTargets collection t) t, hresult.trans ?_⟩
    change some (Node.stmt (env.stmt (.forEach l v collection body) t).1) = _
    rw [RenameEnv.stmt_forEach]

end Mix

namespace Engine

open Mix

variable {e : Engine} {r : Request} {macros : List MacroDef}

/-- Where the name is not bound, `this` and a member become the name of the member. -/
theorem this_resolved (h : e.Reachable) {shader : Shader}
    (hmix : ((e.loaded r macros).compose (e.contextOf r macros) r).1 = some shader) :
    ∃ instances, (e.loaded r macros).instances (e.contextOf r macros) r = some instances ∧
      (∀ i ∈ instances, i.Named shader) ∧
      (∀ {number inst cls ref d}, HasMethod instances number inst cls ref d → isShared cls d = false →
        ∃ x ∈ shader.decls, ResolvesThis ⟨e.builtins, instances, some ⟨number, ref.cls⟩⟩ inst d x) ∧
      ∀ x ∈ shader.decls, x.isMethod = true →
        (∃ ref, IsBuiltin e.builtins ref ∧ builtinDecl? (builtinEnv e.builtins instances) ref = some x) ∨
          ∃ number inst cls ref d, HasMethod instances number inst cls ref d ∧
            ResolvesThis ⟨e.builtins, instances, some ⟨number, ref.cls⟩⟩ inst d x := by
  obtain ⟨instances, his, hlog, rfl⟩ := compose_eq_some hmix
  have horderly := h.orderly his
  obtain ⟨refs, hmixes⟩ := emit_mixes hlog
  refine ⟨instances, his, named_of_emit hlog horderly, ?_, ?_⟩
  · intro number inst cls ref d hd hown
    have hinst := horderly inst hd.inst_mem
    exact ⟨_, hd.placed_mem_decls hmixes hinst hown, (hd.unrolls _ _).resolvesThis hd.inst_eq⟩
  · intro x hx hmethod
    rcases method_of_mem_decls hmixes horderly hx hmethod with hbuiltin | ⟨number, inst, cls, ref, d, hd, rfl⟩
    · exact Or.inl hbuiltin
    · exact Or.inr ⟨number, inst, cls, ref, d, hd, (hd.unrolls _ _).resolvesThis hd.inst_eq⟩

def boxEngine : Engine where
  library := {
    store := {
      inMemory :=
        [("Box", "shader Box { compose Cap cap; };"), ("Cap",
          "shader Cap { float n; compose Lid lids[]; void F(float n) { this.n = n; } void G() { [loop(this.n)] foreach (var l in lids); } };"),
         ("Lid", "shader Lid { float n; void F() { this.n = 1; } };")] } }

def boxRequest : Request :=
  .mixin [⟨"Box", []⟩] [("cap", .mixin [⟨"Cap", []⟩] [("lids", .array [.single ⟨"Lid", []⟩])] [])] []

theorem boxEngine_reachable : boxEngine.Reachable := .new _ {}

def assignsThis (d : Decl) : Bool :=
  match d.kind with
  | .method _ [] _ (some [.simple _ (.expr (.assign _ _ (.member _ (.ident _ "this") "n") _))]) => true
  | _ => false

theorem assignsThis_image {d : Decl} (h : assignsThis d = true) (env : RenameEnv) :
    ∃ loc l, env.Image (.decl d) (boundIn d []) [3, 0, 1, 0, 0] [3, 0, 1, 0, 0]
        (.expr (.member loc (.ident l "this") "n")) ∧ boundIn d [3, 0, 1, 0, 0] = [] := by
  unfold assignsThis at h
  split at h
  · next returns semantic l loc op loc₁ loc₂ value hkind =>
    refine ⟨loc₁, loc₂, .child rfl (Node.children_method hkind) (.child rfl rfl (.child rfl rfl (.child rfl rfl
      (.child rfl rfl .here)))), ?_⟩
    simp [boundIn, Node.boundAt, Node.entering, Node.children, hkind, Node.declaredBy, Node.declares, Param.scope,
      Decl.params?]
  · cases h

def keepsThis (name : String) (path : List Nat) (x : Decl) : Bool :=
  x.name == name && ((Node.decl x).at? path).any (isAccessTo "this" "n")

theorem box_mixes : ∃ shader instances,
    ((boxEngine.loaded boxRequest []).compose (boxEngine.contextOf boxRequest []) boxRequest).1 = some shader ∧
    (boxEngine.loaded boxRequest []).instances (boxEngine.contextOf boxRequest []) boxRequest = some instances ∧
    (∃ lid cls id d, lid.names.member? "n" = some "Lid_id2_n" ∧ HasMethod instances 2 lid cls ⟨0, id⟩ d ∧
      isShared cls d = false ∧ assignsThis d = true) ∧
    ∃ cap, instances[1]? = some cap ∧ cap.names.member? "n" = some "Cap_id1_n" ∧
      (∃ x ∈ shader.decls, keepsThis "Cap_id1_F" [3, 0, 1, 0, 0] x = true) ∧
      ∃ x ∈ shader.decls, keepsThis "Cap_id1_G" [3, 0, 0, 0, 0] x = true := by
  have hbox : (boxEngine.mixesSorted boxRequest fun shader instances =>
      shader.decls.any (keepsThis "Cap_id1_F" [3, 0, 1, 0, 0]) &&
        shader.decls.any (keepsThis "Cap_id1_G" [3, 0, 0, 0, 0]) &&
        (instances[1]?.any fun cap => cap.names.member? "n" == some "Cap_id1_n") &&
        instances[2]?.any fun lid => lid.names.member? "n" == some "Lid_id2_n" &&
          lid.table.classes[0]?.any fun cls => cls.methods.any fun m => !isShared cls m.2 && assignsThis m.2) =
        true := by
    decide +kernel
  obtain ⟨shader, instances, hmix, his, hbox⟩ := mixes_of_sorted hbox
  simp only [Option.any_eq_true, List.any_eq_true, Bool.and_eq_true, Bool.not_eq_true', beq_iff_eq] at hbox
  obtain ⟨⟨hkeeps, cap, hcap, hn⟩, lid, hlid, hn', cls, hcls, ⟨id, d⟩, hd, hsets⟩ := hbox
  exact ⟨shader, instances, hmix, his, ⟨lid, cls, id, d, hn', ⟨hlid, hcls, hd⟩, hsets⟩, cap, hcap, hn, hkeeps⟩

theorem box_this_resolved : boxEngine.Reachable ∧ ∃ shader,
    ((boxEngine.loaded boxRequest []).compose (boxEngine.contextOf boxRequest []) boxRequest).1 = some shader ∧
    ∃ x ∈ shader.decls, ∃ loc,
      (Node.decl x).at? [3, 0, 1, 0, 0] = some (.expr (.ident loc "Lid_id2_n")) := by
  obtain ⟨shader, instances, hmix, his, ⟨lid, cls, id, d, hn, hd, hown, hassigns⟩, -⟩ := box_mixes
  obtain ⟨instances', his', -, hmethods, -⟩ := this_resolved boxEngine_reachable hmix
  cases his.symm.trans his'
  obtain ⟨x, hx, hresolves⟩ := hmethods hd hown
  obtain ⟨loc, l, himage, hbound⟩ := assignsThis_image hassigns _
  exact ⟨boxEngine_reachable, shader, hmix, x, hx, loc, hresolves.free himage (by rw [hbound]; rfl)
    (by rw [hbound]; rfl) hn⟩

theorem parameter_hides_this : boxEngine.Reachable ∧ ∃ shader instances cap,
    ((boxEngine.loaded boxRequest []).compose (boxEngine.contextOf boxRequest []) boxRequest).1 = some shader ∧
    (boxEngine.loaded boxRequest []).instances (boxEngine.contextOf boxRequest []) boxRequest = some instances ∧
    instances[1]? = some cap ∧ cap.names.member? "n" = some "Cap_id1_n" ∧
    (∃ x ∈ shader.decls, keepsThis "Cap_id1_F" [3, 0, 1, 0, 0] x = true) ∧
    ∃ x ∈ shader.decls, keepsThis "Cap_id1_G" [3, 0, 0, 0, 0] x = true := by
  obtain ⟨shader, instances, hmix, his, -, cap, hcap⟩ := box_mixes
  exact ⟨boxEngine_reachable, shader, instances, cap, hmix, his, hcap⟩

end Engine

end ShaderCompose
