import ShaderCompose.Check.Body
import ShaderCompose.Proofs.Mix.Visits

/-!
Loops over compositions.
-/

namespace ShaderCompose

open List

namespace Node

def isAccess : Node → Bool
  | stmt _ | expr (.member ..) => true
  | _ => false

def Loopless (n : Node) : Prop := ∀ path m, n.at? path = some m → m.isLoop = false

def holdsStmts : Node → Bool
  | stmt _ | stmts _ | decl _ => true
  | _ => false

theorem holdsStmts_child {n c : Node} (h : n.holdsStmts = false) (hc : c ∈ n.children) : c.holdsStmts = false := by
  revert c
  cases n with
  | expr e | exprs e | attrs e | option e | params e | simple e | start e =>
    cases e <;> simp [children, holdsStmts]
  | type t =>
    obtain ⟨name, args, array⟩ := t
    cases array with
    | none => simp [children]
    | some size => cases size <;> simp [children, holdsStmts]
  | _ => cases h

theorem holdsStmts_at? {n m : Node} {path : List Nat} (h : n.holdsStmts = false) (hm : n.at? path = some m) :
    m.holdsStmts = false := by
  induction path generalizing n with
  | nil =>
    cases hm
    exact h
  | cons i path ih =>
    obtain ⟨c, hc, hm⟩ := Option.bind_eq_some_iff.mp hm
    exact ih (holdsStmts_child h (mem_of_getElem? hc)) hm

namespace Loopless

theorem of_children {n : Node} (hn : n.isLoop = false) (h : ∀ c ∈ n.children, c.Loopless) : n.Loopless := by
  intro path m hm
  cases path with
  | nil =>
    cases hm
    exact hn
  | cons i path =>
    obtain ⟨c, hc, hm⟩ := Option.bind_eq_some_iff.mp hm
    exact h c (mem_of_getElem? hc) path m hm

theorem of_not_holdsStmts {n : Node} (h : n.holdsStmts = false) : n.Loopless := by
  intro path m hm
  have hbelow := holdsStmts_at? h hm
  cases m <;> first | rfl | cases hbelow

theorem of_stmts {n : Node} {below : List Node} (hn : n.isLoop = false) (hbelow : n.children.filter holdsStmts = below)
    (h : ∀ c ∈ below, c.Loopless) : n.Loopless := by
  refine of_children hn fun c hc => ?_
  cases hholds : c.holdsStmts with
  | false => exact of_not_holdsStmts hholds
  | true => exact h c (hbelow ▸ mem_filter.mpr ⟨hc, hholds⟩)

theorem stmts {sts : List Stmt} (h : ∀ st ∈ sts, (stmt st).Loopless) : (Node.stmts sts).Loopless := by
  induction sts with
  | nil => exact .of_children rfl (forall_mem_nil _)
  | cons st sts ih =>
    rw [forall_mem_cons] at h
    exact .of_children rfl (forall_mem_cons.mpr ⟨h.1, forall_mem_singleton.mpr (ih h.2)⟩)

end Loopless

end Node

namespace Mix.RenameEnv

variable {env : RenameEnv} {n m c : Node} {s t : RenameState} {path image more further : List Nat} {scope : Scope}

def targetsIn (env : RenameEnv) (scope : Scope) (collection : Expr) : List Nat :=
  match collection.ident?, env.instance? with
  | some name, some inst =>
    if (scope.lookup name).isSome then []
    else
      match inst.slots.lookup name with
      | some filling => if filling.isArray then filling.instances else []
      | none => []
  | _, _ => []

theorem loopTargets_eq (env : RenameEnv) (collection : Expr) (s : RenameState) :
    env.loopTargets collection s = env.targetsIn s.bounds collection := by
  unfold loopTargets targetsIn
  cases collection.ident? with
  | none => rfl
  | some name =>
    cases env.instance? with
    | none => rfl
    | some inst => exact if_congr (by rw [s.lookup_bounds, Option.isSome_map]) rfl rfl

/-- A position, and one of what renaming makes of it. -/
inductive Image (env : RenameEnv) : Node → Scope → List Nat → List Nat → Node → Prop
  | here {n : Node} {scope : Scope} : Image env n scope [] [] n
  | child {n c m : Node} {scope : Scope} {i : Nat} {path image : List Nat} : n.isLoop = false →
      n.children[i]? = some c → Image env c (n.entering i ++ scope) path image m →
      Image env n scope (i :: path) (i :: image) m
  | copy {l : Lead} {name : String} {collection : Expr} {body : Stmt} {m : Node} {scope : Scope} {k : Nat}
      {path image : List Nat} : k < (env.targetsIn scope collection).length →
      Image env (.stmt body) ((name, .loop) :: scope) path image m →
      Image env (.stmt (.forEach l name collection body)) scope (2 :: path) (copyPath k ++ image) m

theorem Visits.trans {m' : Node} {u : RenameState} (h : env.Visits n s path image m t)
    (h' : env.Visits m t more further m' u) : env.Visits n s (path ++ more) (image ++ further) m' u := by
  induction h' with
  | here => rwa [append_nil, append_nil]
  | step _ hpart hfound ih =>
    rw [← append_assoc, ← append_assoc]
    exact ih.step hpart hfound

variable {name renamed : String} {loc : Span}

theorem literal_of_slotElement {filling : Filling} {position : Expr} {number : Nat}
    (h : (slotElement name filling (some position) loc s).1 = some number) :
    ∃ l value, position = .literal l value := by
  cases position with
  | literal l value => exact ⟨l, value, rfl⟩
  | _ => cases h

theorem receiver_of_resolved {target : Expr} (h : (env.resolveMember target name loc s).1 = some renamed) :
    (∃ l n, target = .ident l n) ∨ ∃ l l' n l'' value, target = .index l (.ident l' n) (.literal l'' value) := by
  cases hname : target.ident? with
  | some subject =>
    cases target with
    | ident l n => exact .inl ⟨l, n, rfl⟩
    | _ => cases hname
  | none =>
    refine .inr ?_
    have hcomposed : ∃ number, (env.composedInstance target loc s).1 = some number := by
      unfold resolveMember at h
      split at h
      · rw [hname] at h
        simp only [composedMember, bind, StateT.bind] at h
        generalize env.composedInstance target loc s = found at h ⊢
        obtain ⟨number, t⟩ := found
        cases number with
        | none => cases h
        | some number => exact ⟨number, rfl⟩
      · cases h
    obtain ⟨number, hnumber⟩ := hcomposed
    unfold composedInstance at hnumber
    split at hnumber
    · next inst subject position _ hreceiver =>
      cases target with
      | index l slot index =>
        obtain ⟨found, hfound, hpair⟩ := Option.map_eq_some_iff.mp hreceiver
        cases hpair
        have hliteral : ∃ l' value, index = .literal l' value := by
          split at hnumber
          · contradiction
          · cases hnumber
          · split at hnumber
            · exact literal_of_slotElement hnumber
            · cases hnumber
        obtain ⟨l', value, rfl⟩ := hliteral
        cases slot with
        | ident l'' n => exact ⟨l, l'', n, l', value, rfl⟩
        | _ => cases hfound
      | ident => cases hname
      | _ => cases hreceiver
    · cases hnumber

theorem Image.not_isAccess {target : Expr} (h : env.Image (.expr target) scope path image m)
    (hresolved : (env.resolveMember target name loc s).1 = some renamed) : m.isAccess = false := by
  have leaf : ∀ {n : Node} {scope path image}, n.children = [] → n.isLoop = false →
      env.Image n scope path image m → m = n := by
    intro n scope path image hnone hloop himage
    cases himage with
    | here => rfl
    | child _ hchild => simp [hnone] at hchild
    | copy => cases hloop
  rcases receiver_of_resolved hresolved with ⟨l, n, rfl⟩ | ⟨l, l', n, l'', value, rfl⟩
  · rw [leaf rfl rfl h]
    rfl
  · cases h with
    | here => rfl
    | @child _ c _ _ i _ _ _ hchild hrest =>
      match i, hchild with
      | 0, rfl | 1, rfl =>
        rw [leaf rfl rfl hrest]
        rfl

theorem parts_ordered (hloop : n.isLoop = false) (hmember : ∀ loc target name, n ≠ .expr (.member loc target name))
    (s : RenameState) :
    env.parts n s = (inOrder env.after 0 n.children s).map fun part => ([part.1], [part.1], part.2) := by
  unfold parts
  split
  · exact absurd rfl (hmember _ _ _)
  · cases hloop
  · rfl

theorem entering_eq (hloop : n.isLoop = false) (i : Nat) : n.entering i = Node.declaredBy (n.children.take i) := by
  unfold Node.entering
  split
  · cases hloop
  · rfl

theorem Image.visits (h : env.Image n scope path image m) (hm : m.isAccess = true) :
    ∀ s : RenameState, s.bounds = scope → ∃ t, env.Visits n s path image m t := by
  induction h with
  | here => exact fun s _ => ⟨s, .here⟩
  | @child n c m scope i path image hloop hchild hrest ih =>
    intro s hs
    -- a member is not gone into where its receiver is resolved, but then there is no access inside of it
    by_cases hmember : ∃ loc target name, n = .expr (.member loc target name)
    · obtain ⟨loc, target, name, rfl⟩ := hmember
      match i, hchild with
      | 0, rfl =>
        have hscope := (resolveMember_looks env target name loc s).scope
        cases hresolved : env.resolveMember target name loc s with
        | mk renamed u =>
          rw [hresolved] at hscope
          cases renamed with
          | some renamed =>
            have hnone := hrest.not_isAccess (congrArg Prod.fst hresolved)
            rw [hm] at hnone
            cases hnone
          | none =>
            have hpart : ([0], [0], u) ∈ env.parts (.expr (.member loc target name)) s := by
              rw [parts, hresolved]
              exact mem_singleton_self _
            have hu : u.bounds = s.bounds := by rw [RenameState.bounds, hscope]; rfl
            obtain ⟨t, ht⟩ := ih hm u (hu.trans hs)
            exact ⟨t, (Visits.here.step hpart rfl).trans ht⟩
    · have hpart : ([i], [i], runAll env.after (n.children.take i) s) ∈ env.parts n s := by
        rw [parts_ordered hloop (fun loc target name h => hmember ⟨loc, target, name, h⟩)]
        have hlt := (List.getElem?_eq_some_iff.mp hchild).1
        exact mem_map_of_mem (mem_inOrder.mpr ⟨i, hlt, (Nat.zero_add i).symm, rfl⟩)
      have hbounds : (runAll env.after (n.children.take i) s).bounds = n.entering i ++ scope := by
        rw [(runAll_extends env _ s).bounds, entering_eq hloop, hs]
      obtain ⟨t, ht⟩ := ih hm _ hbounds
      exact ⟨t, (Visits.here.step hpart (Node.at?_child.trans hchild)).trans ht⟩
  | @copy l name collection body m scope k path image hk hrest ih =>
    intro s hs
    rw [← hs, ← loopTargets_eq, ← length_copyStates s] at hk
    obtain ⟨u, hu⟩ : ∃ u, (env.copyStates name body (env.loopTargets collection s) s)[k]? = some u :=
      ⟨_, getElem?_eq_getElem hk⟩
    obtain ⟨number, -, hscope⟩ := scope_copyStates hu
    have hbounds : u.bounds = (name, Bound.loop) :: scope := by
      rw [RenameState.bounds, hscope, ← hs]
      rfl
    obtain ⟨t, ht⟩ := ih hm u hbounds
    have hpart : ([2], copyPath k, u) ∈ env.parts (.stmt (.forEach l name collection body)) s := by
      refine mem_of_getElem? (i := k) ?_
      rw [parts, getElem?_mapIdx, hu]
      rfl
    exact ⟨t, (Visits.here.step hpart rfl).trans ht⟩

theorem expr_member_composed {l : Span} {v : String} {number : Nat} {composed : MixInstance}
    (hplaced : env.instance?.isSome = true) (hv : v ∉ Check.specialNames)
    (hbinding : s.binding? v = some (.composed number)) (hnumber : env.instances[number]? = some composed)
    (hname : composed.names.member? name = some renamed) :
    (env.expr (.member loc (.ident l v) name) s).1 = .ident loc renamed := by
  obtain ⟨inst, hinst⟩ := Option.isSome_iff_exists.mp hplaced
  obtain ⟨place, hplace, -⟩ := Option.bind_eq_some_iff.mp hinst
  have hinstance : env.composedInstance (.ident l v) loc s = (some number, s) := by
    unfold composedInstance
    simp only [hinst, receiver?, hbinding]
  have hresolved : env.resolveMember (.ident l v) name loc s = (some renamed, s) := by
    unfold resolveMember
    simp only [hplace, hinst, Expr.ident?, hbinding, reduceCtorEq, Option.some.injEq, if_false]
    split
    · exact absurd (by decide) hv
    · exact absurd (by decide) hv
    · exact absurd (by decide) hv
    · simp only [composedMember, bind, StateT.bind, hinstance, hnumber, Option.bind_some, hname]
      rfl
  rw [expr_member_some hresolved]

/-- One copy of the body for each instance, in order. -/
structure Copies (env : RenameEnv) (v : String) (body : Stmt) (scope : Scope) (numbers : List Nat)
    (copies : List Stmt) : Prop where
  length : copies.length = numbers.length
  renamed : ∀ {k : Nat} {copy : Stmt} {number : Nat}, copies[k]? = some copy → numbers[k]? = some number →
    ∃ t : RenameState, t.bounds = (v, .loop) :: scope ∧ t.binding? v = some (.composed number) ∧
      copy = (env.stmt body t).1
  access : v ∉ Check.specialNames → ∀ {k : Nat} {copy : Stmt} {number : Nat} {composed : MixInstance},
    copies[k]? = some copy → numbers[k]? = some number → env.instances[number]? = some composed →
    ∀ {path image : List Nat} {loc l : Span} {name renamed : String},
      env.Image (.stmt body) ((v, .loop) :: scope) path image (.expr (.member loc (.ident l v) name)) →
      ((Node.stmt body).boundAt path []).lookup v = none → composed.names.member? name = some renamed →
      (Node.stmt copy).at? image = some (.expr (.ident loc renamed))

theorem Image.unrolled {l : Lead} {v slot : String} {body : Stmt} {inst : MixInstance} {filling : Filling}
    (h : env.Image n s.bounds path image (.stmt (.forEach l v (.ident loc slot) body)))
    (hinst : env.instance? = some inst) (hfree : (n.boundAt path s.bounds).lookup slot = none)
    (hslot : inst.slots.lookup slot = some filling) (harray : filling.isArray = true) :
    ∃ copies, (env.node n s).1.at? image = some (.stmt (.block l copies)) ∧
      env.Copies v body (n.boundAt path s.bounds) filling.instances copies := by
  obtain ⟨t, hvisits⟩ := h.visits rfl s rfl
  have hwithin := hvisits.renamesAt
  have hbounds : t.bounds = n.boundAt path s.bounds := by
    rw [hwithin.binds.bounds, ← Node.boundAt_eq]
  have htargets : env.loopTargets (.ident loc slot) t = filling.instances := by
    rw [loopTargets_eq, hbounds]
    unfold targetsIn
    simp [Expr.ident?, hinst, hfree, hslot, harray]
  have hcopies : ∀ {k : Nat} {copy : Stmt} {number : Nat},
      (env.copies v body filling.instances t)[k]? = some copy → filling.instances[k]? = some number →
      ∃ u : RenameState, u.bounds = (v, .loop) :: n.boundAt path s.bounds ∧
        u.binding? v = some (.composed number) ∧ copy = (env.stmt body u).1 := by
    intro k copy number hcopy hnumber
    rw [getElem?_copies] at hcopy
    obtain ⟨u, hu, rfl⟩ := Option.map_eq_some_iff.mp hcopy
    obtain ⟨found, hfound, hscope⟩ := scope_copyStates hu
    cases hnumber.symm.trans hfound
    refine ⟨u, ?_, ?_, rfl⟩
    · rw [RenameState.bounds, hscope, ← hbounds]
      rfl
    · rw [RenameState.binding?, hscope, lookup_cons_self]
  refine ⟨env.copies v body filling.instances t, ?_, ?_, hcopies, ?_⟩
  · rw [hwithin.result]
    change some (Node.stmt (env.stmt (.forEach l v (.ident loc slot) body) t).1) = _
    rw [stmt_forEach, htargets]
  · exact length_copies ..
  · intro hv k copy number composed hcopy hnumber hcomposed p q loc l name renamed himage hshadow hname
    obtain ⟨u, hubounds, hubinding, rfl⟩ := hcopies hcopy hnumber
    obtain ⟨w, hw⟩ := himage.visits rfl u hubounds
    -- nothing on the way down binds the variable anew, so that it still stands for the instance
    have haccess := hw.renamesAt
    have hbinding : w.binding? v = some (.composed number) := (haccess.binds.binding? hshadow).trans hubinding
    refine haccess.result.trans ?_
    change some (Node.expr (env.expr (.member loc (.ident l v) name) w).1) = _
    rw [expr_member_composed (by simp [hinst]) hv hbinding hcomposed hname]

/-! ## No loop is left -/

mutual

theorem stmt_loopless (env : RenameEnv) (st : Stmt) (s : RenameState) : (Node.stmt (env.stmt st s).1).Loopless := by
  match st with
  | .block l body =>
    exact .of_stmts rfl rfl (forall_mem_singleton.mpr (stmts_loopless env body _))
  | .ifThen l condition body | .whileLoop l condition body | .forLoop l init condition step body =>
    exact .of_stmts rfl rfl (forall_mem_singleton.mpr (stmt_loopless env body _))
  | .ifElse l condition yes no =>
    exact .of_stmts rfl rfl (forall_mem_cons.mpr ⟨stmt_loopless env yes _,
      forall_mem_singleton.mpr (stmt_loopless env no _)⟩)
  | .forEach l name collection body =>
    rw [stmt_forEach]
    -- the block in the place of the loop holds nothing but copies of the body, which is smaller
    refine .of_stmts rfl rfl (forall_mem_singleton.mpr (.stmts fun copy hcopy => ?_))
    obtain ⟨k, hk⟩ := mem_iff_getElem?.mp hcopy
    rw [getElem?_copies] at hk
    obtain ⟨t, -, rfl⟩ := Option.map_eq_some_iff.mp hk
    exact stmt_loopless env body t
  | .simple l what | .ret l value | .breakLoop l | .continueLoop l | .discard l | .empty l =>
    exact .of_stmts rfl rfl (forall_mem_nil _)

theorem stmts_loopless (env : RenameEnv) (sts : List Stmt) (s : RenameState) :
    (Node.stmts (env.stmts sts s).1).Loopless := by
  match sts with
  | [] =>
    exact .of_children rfl (forall_mem_nil _)
  | st :: sts =>
    exact .of_children rfl (forall_mem_cons.mpr ⟨stmt_loopless env st s,
      forall_mem_singleton.mpr (stmts_loopless env sts _)⟩)

end

theorem loopless_of_not_isMethod {d : Decl} (h : d.isMethod = false) : (Node.decl d).Loopless := by
  refine .of_children rfl ?_
  rw [Node.children]
  unfold Decl.isMethod at h
  cases hkind : d.kind with
  | method => simp [hkind] at h
  | _ => exact forall_mem_singleton.mpr (.of_not_holdsStmts rfl)

theorem decl_loopless (env : RenameEnv) (d : Decl) (s : RenameState) :
    (Node.decl ((env.decl d).run s).1).Loopless := by
  refine .of_children rfl ?_
  have plain : ∀ a : List Attribute, ∀ c ∈ [Node.attrs a], c.Loopless := fun a =>
    forall_mem_singleton.mpr (.of_not_holdsStmts rfl)
  change ∀ c ∈ (Node.decl { d with
    attrs := (env.attrs d.attrs s).1, kind := (env.kind d.kind (env.attrs d.attrs s).2).1 }).children, c.Loopless
  cases d.kind with
  | method returns ps semantic body =>
    have head : ∀ (a : List Attribute) (t : TypeRef) (ps : List Param),
        ∀ c ∈ [Node.attrs a, .type t, .params ps], c.Loopless := fun a t ps =>
      forall_mem_cons.mpr ⟨.of_not_holdsStmts rfl, forall_mem_cons.mpr ⟨.of_not_holdsStmts rfl,
        forall_mem_singleton.mpr (.of_not_holdsStmts rfl)⟩⟩
    cases body with
    | none => exact forall_mem_append.mpr ⟨head _ _ _, forall_mem_nil _⟩
    | some body =>
      exact forall_mem_append.mpr ⟨head _ _ _, forall_mem_singleton.mpr (stmts_loopless env body _)⟩
  | var t semantic init => cases init <;> exact plain _
  | _ => exact plain _

end Mix.RenameEnv

end ShaderCompose
