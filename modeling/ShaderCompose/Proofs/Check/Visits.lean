import ShaderCompose.Proofs.Check.Body
import ShaderCompose.Proofs.Lang.Nodes

/-!
What the check of a body visits, and with which names bound.
-/

namespace ShaderCompose.Check

open List

namespace BodyEnv

def check (env : BodyEnv) : Node → BodyState → BodyState
  | .expr e, s => env.checkExpr e s
  | .exprs es, s => env.checkExprs es s
  | .option e, s => env.checkOption e s
  | .simple what, s => env.checkSimple what s
  | .start (some (_, what)), s => env.checkSimple what s
  | .stmt st, s => env.checkStmt st s
  | .stmts sts, s => env.checkStmts sts s
  | .decl d, s =>
    match d.kind with
    | .method _ _ _ (some body) => s.within (env.checkStmts body)
    | _ => s
  | .start none, s | .attrs _, s | .type _, s | .params _, s => s

def receiverParts (env : BodyEnv) (path : List Nat) (receiver : Expr) (name : String) (count : Option Nat)
    (loc : Span) (s : BodyState) : List (List Nat × BodyState) :=
  match receiver with
  | .index _ target position =>
    let t := env.checkExpr position s
    (path ++ [1], s) ::
      if (env.checkMember? target true name count loc t).isSome then [] else [(path ++ [0], t)]
  | target => if (env.checkMember? target false name count loc s).isSome then [] else [(path, s)]

def parts (env : BodyEnv) : Node → BodyState → List (List Nat × BodyState)
  | .attrs _, _ | .type _, _ | .params _, _ => []
  | .expr (.member loc target name), s => env.receiverParts [0] target name none loc s
  | .expr (.call _ (.ident ..) _), s => [([1], s)]
  | .expr (.call _ (.member loc target name) args), s =>
    ([1], s) :: env.receiverParts [0, 0] target name (some args.length) loc (env.checkExprs args s)
  | .expr (.call _ _ args), s => [([1], s), ([0], env.checkExprs args s)]
  | .stmt (.ret l value), s => [([1], env.checkReturn l.loc value s)]
  | .stmt (.forEach _ name collection _), s =>
    let (what, s) := env.loopVariable collection s
    [([2], s.declare name what)]
  | n, s => (inOrder env.check 0 n.children s).map fun part => ([part.1], part.2)

/-- The check of a node comes to the node at a position. -/
inductive Visits (env : BodyEnv) (n : Node) (s : BodyState) : List Nat → Node → BodyState → Prop
  | here : Visits env n s [] n s
  | step {path more : List Nat} {m m' : Node} {t u : BodyState} : Visits env n s path m t →
      (more, u) ∈ env.parts m t → m.at? more = some m' → Visits env n s (path ++ more) m' u

variable {env : BodyEnv} {n m : Node} {s t : BodyState} {path more : List Nat}

theorem check_passes (n : Node) (s : BodyState) : env.Passes s (env.check n s) n.declares [] := by
  have silent : ∀ {t binds spots}, env.Passes s t binds spots → env.Passes s t binds [] := fun h =>
    ⟨h.bounds, h.log, fun _ => forall_mem_nil _⟩
  match n with
  | .expr e => exact silent (.expr e s)
  | .exprs es =>
    have h : env.Checks s _ _ := checkExprs_checks es s
    exact ⟨h.bounds, h.log, fun _ => forall_mem_nil _⟩
  | .option e => exact silent (.option e s)
  | .simple what => exact silent (.simple what s)
  | .start (some (_, what)) => exact silent (.simple what s)
  | .stmt st => exact silent (checkStmt_passes st s)
  | .stmts sts => exact silent (checkStmts_passes sts s)
  | .start none | .attrs _ | .type _ | .params _ => exact .refl s
  | .decl d =>
    rw [check]
    split
    · exact silent (.within _ _ (checkStmts_passes _ s))
    · exact .refl s

theorem runAll_log (ns : List Node) (s : BodyState) : s.log <+: (runAll env.check ns s).log := by
  induction ns generalizing s with
  | nil => exact prefix_refl _
  | cons n ns ih => exact (check_passes n s).log.trans (ih _)

def checkReceiver (env : BodyEnv) (receiver : Expr) (name : String) (count : Option Nat) (loc : Span)
    (s : BodyState) : BodyState :=
  match receiver with
  | .index _ target position =>
    (env.checkMember? target true name count loc (env.checkExpr position s)).getD
      (env.checkExpr target (env.checkExpr position s))
  | target => (env.checkMember? target false name count loc s).getD (env.checkExpr target s)

theorem checkExpr_member_eq (loc : Span) (target : Expr) (name : String) (s : BodyState) :
    env.checkExpr (.member loc target name) s = env.checkReceiver target name none loc s := by
  cases target with
  | index l t p => exact checkExpr_member_index s
  | _ => exact checkExpr_member s nofun

theorem checkExpr_call_member_eq (l loc : Span) (target : Expr) (name : String) (args : List Expr)
    (s : BodyState) : env.checkExpr (.call l (.member loc target name) args) s =
      env.checkReceiver target name (some args.length) loc (env.checkExprs args s) := by
  cases target with
  | index l t p => exact checkExpr_call_member_index s
  | _ => exact checkExpr_call_member s nofun

theorem checkReceiver_log (receiver : Expr) (name : String) (count : Option Nat) (loc : Span) (s : BodyState) :
    s.log <+: (env.checkReceiver receiver name count loc s).log := by
  cases receiver with
  | index l target position =>
    have hposition : env.Checks s _ _ := checkExpr_checks position s
    exact hposition.log.trans ((checkExpr_checks target _).receiver true name count loc).log
  | _ => exact ((checkExpr_checks _ s).receiver false name count loc).log

/-- A check at a position, with the names of that position bound. -/
structure ChecksAt (env : BodyEnv) (n : Node) (s : BodyState) (path : List Nat) (m : Node) (t : BodyState) :
    Prop where
  found : n.at? path = some m
  log : (env.check m t).log <+: (env.check n s).log
  bounds : (env.check n s).log.hasErrors = false → t.bounds = n.boundAt path s.bounds

namespace ChecksAt

theorem refl (n : Node) (s : BodyState) : env.ChecksAt n s [] n s := ⟨rfl, prefix_refl _, fun _ => rfl⟩

theorem trans {m' : Node} {u : BodyState} (h : env.ChecksAt n s path m t) (h' : env.ChecksAt m t more m' u) :
    env.ChecksAt n s (path ++ more) m' u where
  found := (Node.at?_append h.found more).trans h'.found
  log := h'.log.trans h.log
  bounds hquiet := by
    rw [Node.boundAt_append h.found, ← h.bounds hquiet]
    exact h'.bounds (Log.quiet_of_prefix h.log hquiet)

theorem expr (h : n.isExpr = true) (hfound : n.at? path = some m) (hbounds : t.bounds = s.bounds)
    (hlog : (env.check m t).log <+: (env.check n s).log) : env.ChecksAt n s path m t :=
  ⟨hfound, hlog, fun _ => by rw [Node.boundAt_of_isExpr h, hbounds]⟩

theorem inOrder {i : Nat} (hchild : n.children[i]? = some m) (hpart : (i, t) ∈ inOrder env.check 0 n.children s)
    (hentering : n.entering i = Node.declaredBy (n.children.take i))
    (hlog : (runAll env.check n.children s).log <+: (env.check n s).log) : env.ChecksAt n s [i] m t := by
  obtain ⟨k, hk, hi, rfl⟩ := mem_inOrder.mp hpart
  rw [Nat.zero_add] at hi
  subst hi
  refine ⟨Node.at?_child.trans hchild, List.IsPrefix.trans ?_ hlog, fun _ => ?_⟩
  · have hsplit : n.children = n.children.take i ++ m :: n.children.drop (i + 1) := by
      obtain ⟨hlt, rfl⟩ := List.getElem?_eq_some_iff.mp hchild
      rw [getElem_cons_drop, take_append_drop]
    have hrest : runAll env.check n.children s = runAll env.check (n.children.drop (i + 1))
        (env.check m (runAll env.check (n.children.take i) s)) := by
      conv => lhs; rw [hsplit]
      exact foldl_append
    rw [hrest]
    exact runAll_log _ _
  · rw [Node.boundAt_child hchild, hentering]
    exact runAll_bounds (fun c _ s => (check_passes c s).bounds) s

theorem receiver {receiver : Expr} {name : String} {count : Option Nat} {loc : Span} {top : List Nat}
    {u : BodyState} (hpart : (path, t) ∈ env.receiverParts top receiver name count loc u)
    (hfound : n.at? path = some m) (hn : n.isExpr = true) (htop : n.at? top = some (.expr receiver))
    (hbounds : u.bounds = s.bounds)
    (hlog : (env.checkReceiver receiver name count loc u).log <+: (env.check n s).log) :
    env.ChecksAt n s path m t := by
  have plain : ∀ (target : Expr) (indexed : Bool) (top : List Nat) (u : BodyState), n.at? top = some (.expr target) →
      (path, t) ∈ (if (env.checkMember? target indexed name count loc u).isSome then [] else [(top, u)]) →
      u.bounds = s.bounds →
      ((env.checkMember? target indexed name count loc u).getD (env.checkExpr target u)).log <+:
        (env.check n s).log → env.ChecksAt n s path m t := by
    intro target indexed top u htop hpart hbounds hlog
    split at hpart
    · cases hpart
    · next hnone =>
      cases mem_singleton.mp hpart
      cases hfound.symm.trans htop
      rw [Option.not_isSome_iff_eq_none.mp hnone] at hlog
      exact .expr hn hfound hbounds hlog
  cases receiver with
  | index l target position =>
    rcases mem_cons.mp hpart with hpart | hpart
    · cases hpart
      cases hfound.symm.trans (Node.at?_append htop [1])
      refine .expr hn hfound hbounds (List.IsPrefix.trans ?_ hlog)
      exact ((checkExpr_checks target _).receiver true name count loc).log
    · refine plain target true (top ++ [0]) _ (Node.at?_append htop [0]) hpart ?_ hlog
      exact (checkExpr_checks position u).bounds.trans hbounds
  | _ => exact plain _ false top u htop hpart hbounds hlog

theorem ordered (hfound : n.at? path = some m)
    (hpart : (path, t) ∈ (ShaderCompose.inOrder env.check 0 n.children s).map fun part => ([part.1], part.2))
    (hentering : ∀ i, n.entering i = Node.declaredBy (n.children.take i))
    (hlog : (runAll env.check n.children s).log <+: (env.check n s).log) : env.ChecksAt n s path m t := by
  obtain ⟨part, hmem, heq⟩ := mem_map.mp hpart
  cases heq
  exact .inOrder (Node.at?_child.symm.trans hfound) hmem (hentering _) hlog

end ChecksAt

theorem expr_part {e : Expr} (hpart : (path, t) ∈ env.parts (.expr e) s)
    (hfound : (Node.expr e).at? path = some m) : env.ChecksAt (.expr e) s path m t := by
  cases e with
  | literal | ident => cases hpart
  | member loc target name =>
    refine .receiver hpart hfound rfl rfl rfl ?_
    rw [check, checkExpr_member_eq]
  | call l callee args =>
    have hargs : env.Checks s (env.checkExprs args s) _ := checkExprs_checks args s
    -- the arguments are checked before the callee, whatever the callee is
    have first : (path, t) = ([1], s) → (env.checkExprs args s).log <+: (env.checkExpr (.call l callee args) s).log →
        env.ChecksAt (.expr (.call l callee args)) s path m t := by
      intro heq hlog
      cases heq
      cases hfound
      exact .expr rfl rfl rfl hlog
    cases callee with
    | ident loc name =>
      refine first (mem_singleton.mp hpart) ?_
      exact (checkCall_checks name args.length loc _).log
    | member loc target name =>
      rcases mem_cons.mp hpart with hpart | hpart
      · refine first hpart ?_
        rw [checkExpr_call_member_eq]
        exact checkReceiver_log ..
      · refine .receiver hpart hfound rfl rfl hargs.bounds ?_
        rw [check, checkExpr_call_member_eq]
    | _ =>
      rcases mem_cons.mp hpart with hpart | hpart
      · refine first hpart ?_
        exact (checkExpr_checks _ _).log
      · cases mem_singleton.mp hpart
        cases hfound
        refine .expr rfl rfl hargs.bounds ?_
        rw [check, check, checkExpr_call s rfl]
  | _ => exact .ordered hfound hpart (fun _ => rfl) (prefix_refl _)

theorem stmt_part {st : Stmt} (hpart : (path, t) ∈ env.parts (.stmt st) s)
    (hfound : (Node.stmt st).at? path = some m) : env.ChecksAt (.stmt st) s path m t := by
  cases st with
  | ret l value =>
    cases mem_singleton.mp hpart
    cases hfound
    refine ⟨rfl, ?_, fun _ => (Passes.ret l.loc value s).bounds⟩
    rw [check, check, checkStmt]
  | forEach l name collection body =>
    obtain ⟨hcollection, hloop⟩ := Passes.loopVariable env collection s
    have hcheck : env.check (.stmt (.forEach l name collection body)) s =
        (env.loopVariable collection s).2.within fun u =>
          env.checkStmt body (u.declare name (env.loopVariable collection s).1) := by
      rw [check, checkStmt]
    rw [parts] at hpart
    generalize env.loopVariable collection s = found at hcollection hloop hcheck hpart
    cases mem_singleton.mp hpart
    cases hfound
    refine ⟨rfl, hcheck ▸ prefix_refl _, fun hquiet => ?_⟩
    have hlog : found.2.log <+: (env.checkStmt body (found.2.declare name found.1)).log :=
      (checkStmt_passes body (found.2.declare name found.1)).log
    rw [hcheck] at hquiet
    -- the variable is bound to a composition only if the collection gave no reason to complain
    have hwhat := hloop (Log.quiet_of_prefix hlog hquiet)
    change (name, found.1.bound) :: found.2.bounds = (name, .loop) :: s.bounds
    rw [hwhat, hcollection.bounds, nil_append]
  | forLoop l init condition step body =>
    refine .ordered hfound hpart (fun _ => rfl) ?_
    cases init <;> exact prefix_refl _
  | _ => exact .ordered hfound hpart (fun _ => rfl) (prefix_refl _)

theorem part_checksAt (hpart : (path, t) ∈ env.parts n s) (hfound : n.at? path = some m) :
    env.ChecksAt n s path m t := by
  cases n with
  | expr e => exact expr_part hpart hfound
  | stmt st => exact stmt_part hpart hfound
  | attrs | type | params => cases hpart
  | exprs es | stmts es | option es | simple es | start es =>
    cases es <;> exact .ordered hfound hpart (fun _ => rfl) (prefix_refl _)
  | decl d =>
    refine .ordered hfound hpart (fun _ => rfl) ?_
    rw [check, Node.children]
    cases d.kind with
    | method returns ps semantic body =>
      cases body <;> exact prefix_refl _
    | _ => exact prefix_refl _

theorem Visits.checksAt (h : env.Visits n s path m t) : env.ChecksAt n s path m t := by
  induction h with
  | here => exact .refl n s
  | step _ hpart hfound ih => exact ih.trans (part_checksAt hpart hfound)

end BodyEnv

def bodyEnv (context : Context) (table : MemberTable) (d : Decl) : BodyEnv where
  slotTable? := context.slotTable?
  builtins := context.builtins
  table := table
  method := d.name
  returnsValue :=
    match d.kind with
    | .method returns .. => !returns.isVoid
    | _ => false

def bodyStart (d : Decl) : BodyState :=
  (d.params?.getD []).foldl (fun s p => s.declare p.name .value) {}

theorem methodLog_eq (context : Context) (table : MemberTable) (d : Decl) :
    methodLog context table d = ((bodyEnv context table d).check (.decl d) (bodyStart d)).log := by
  have hlog : ∀ (params : List Param) (s : BodyState),
      (params.foldl (fun s p => s.declare p.name .value) s).log = s.log := by
    intro params
    induction params with
    | nil => exact fun _ => rfl
    | cons p params ih => exact fun s => ih _
  have hstart : (bodyStart d).log = [] := hlog (d.params?.getD []) {}
  rw [methodLog, BodyEnv.check]
  cases hkind : d.kind with
  | method returns ps semantic body =>
    cases body with
    | none => exact hstart.symm
    | some body => simp only [bodyEnv, bodyStart, Decl.params?, hkind, BodyState.within, Option.getD_some]
  | _ => exact hstart.symm

theorem bounds_bodyStart (d : Decl) : (bodyStart d).bounds = Param.scope (d.params?.getD []) := by
  rw [bodyStart, bounds_params]
  exact append_nil _

end ShaderCompose.Check
