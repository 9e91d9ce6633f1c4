import ShaderCompose.Proofs.Lang.Nodes
import ShaderCompose.Proofs.Mix.Calls

/-!
What renaming visits, and with which names bound.
-/

namespace ShaderCompose.Mix

open List

namespace RenameEnv

def node (env : RenameEnv) : Node → Rename Node
  | .expr e => return .expr (← env.expr e)
  | .exprs es => return .exprs (← env.exprs es)
  | .attrs as => return .attrs (← env.attrs as)
  | .option e => return .option (← env.option e)
  | .type t => return .type (← env.type t)
  | .params ps => return .params (← ps.mapM env.param)
  | .simple what => return .simple (← env.simple what)
  | .start init => return .start (← env.loopStart init)
  | .stmt st => return .stmt (← env.stmt st)
  | .stmts sts => return .stmts (← env.stmts sts)
  | .decl d => Rename.within [] do return .decl (← env.decl d)

def after (env : RenameEnv) (n : Node) (s : RenameState) : RenameState := (env.node n s).2

def nodes (env : RenameEnv) : List Node → RenameState → List Node
  | [], _ => []
  | n :: ns, s => (env.node n s).1 :: nodes env ns (env.after n s)

def copyStates (env : RenameEnv) (name : String) (body : Stmt) : List Nat → RenameState → List RenameState
  | [], _ => []
  | number :: numbers, s =>
    let t := s.declare name (.composed number)
    t :: copyStates env name body numbers { (env.stmt body t).2 with scope := s.scope }

def copyPath (k : Nat) : List Nat := 1 :: (List.replicate k 1 ++ [0])

def parts (env : RenameEnv) : Node → RenameState → List (List Nat × List Nat × RenameState)
  | .expr (.member loc target name), s =>
    match env.resolveMember target name loc s with
    | (some _, _) => []
    | (none, t) => [([0], [0], t)]
  | .stmt (.forEach _ name collection body), s =>
    (env.copyStates name body (env.loopTargets collection s) s).mapIdx fun k t => ([2], copyPath k, t)
  | n, s => (inOrder env.after 0 n.children s).map fun part => ([part.1], [part.1], part.2)

/-- The renaming of a node comes to the node at a position. -/
inductive Visits (env : RenameEnv) (n : Node) (s : RenameState) :
    List Nat → List Nat → Node → RenameState → Prop
  | here : Visits env n s [] [] n s
  | step {path more image further : List Nat} {m m' : Node} {t u : RenameState} :
      Visits env n s path image m t → (more, further, u) ∈ env.parts m t → m.at? more = some m' →
      Visits env n s (path ++ more) (image ++ further) m' u

end RenameEnv

section

variable (env : RenameEnv)

theorem after_extends (n : Node) (s : RenameState) : Extends s (env.after n s) n.declares := by
  cases n with
  | expr e => exact .of_scope (expr_turns env e s).same
  | exprs es => exact .of_scope (exprs_turns env es s).same
  | attrs as => exact (Step.lead env ⟨.generated, as⟩ s).extended
  | option e => exact (Step.option env e s).extended
  | type t => exact (Step.type env t s).extended
  | params ps => exact (params_step env ps s).2.extended
  | simple what => exact (Step.simple env what s).extended
  | start init => exact (Step.start env init s).extended
  | stmt st => exact (stmt_step env st s).extended
  | stmts sts => exact (stmts_step env sts s).extended
  | decl d => exact .of_scope rfl

theorem runAll_extends (ns : List Node) (s : RenameState) :
    Extends s (runAll env.after ns s) (Node.declaredBy ns) := by
  induction ns generalizing s with
  | nil => exact .of_scope rfl
  | cons n ns ih => exact (after_extends env n s).trans (ih _)

end

namespace RenameEnv

variable {env : RenameEnv} {n m : Node} {s t : RenameState} {path image more further : List Nat}

theorem getElem?_nodes (ns : List Node) (i : Nat) (s : RenameState) :
    (env.nodes ns s)[i]? = (ns[i]?).map fun n => (env.node n (runAll env.after (ns.take i) s)).1 := by
  induction ns generalizing i s with
  | nil => rfl
  | cons n ns ih =>
    cases i with
    | zero => rfl
    | succ i => exact ih i _

/-- A step at a position, whose result stands there. -/
structure RenamesAt (env : RenameEnv) (n : Node) (s : RenameState) (path image : List Nat) (m : Node)
    (t : RenameState) : Prop where
  found : n.at? path = some m
  result : (env.node n s).1.at? image = some (env.node m t).1
  binds : Extends s t (n.boundAt path [])

namespace RenamesAt

theorem refl (n : Node) (s : RenameState) : env.RenamesAt n s [] [] n s := ⟨rfl, rfl, .of_scope rfl⟩

theorem trans {m' : Node} {u : RenameState} (h : env.RenamesAt n s path image m t)
    (h' : env.RenamesAt m t more further m' u) :
    env.RenamesAt n s (path ++ more) (image ++ further) m' u where
  found := (Node.at?_append h.found more).trans h'.found
  result := (Node.at?_append h.result further).trans h'.result
  binds := by
    rw [Node.boundAt_append h.found, Node.boundAt_eq]
    exact h.binds.trans h'.binds

theorem ordered (hfound : n.at? path = some m) (hpart : (path, image, t) ∈
      (inOrder env.after 0 n.children s).map fun part => ([part.1], [part.1], part.2))
    (hentering : ∀ i, n.entering i = Node.declaredBy (n.children.take i))
    (hresult : (env.node n s).1.children = env.nodes n.children s) : env.RenamesAt n s path image m t := by
  obtain ⟨part, hmem, heq⟩ := mem_map.mp hpart
  cases heq
  obtain ⟨k, hk, hi, ht⟩ := mem_inOrder.mp hmem
  rw [Nat.zero_add] at hi
  rw [Node.at?_child] at hfound
  refine ⟨Node.at?_child.trans hfound, ?_, ?_⟩
  · rw [Node.at?_child, hresult, getElem?_nodes, hfound, ht, hi]
    rfl
  · rw [Node.boundAt_child hfound, hentering, append_nil, ht, hi]
    exact runAll_extends env _ s

end RenamesAt

section

variable {name : String} {body : Stmt} {targets : List Nat}

def copies (env : RenameEnv) (name : String) (body : Stmt) (targets : List Nat) (s : RenameState) : List Stmt :=
  ((targets.mapM fun number => Rename.within [(name, .composed number)] (env.stmt body)) s).1

theorem stmt_forEach (l : Lead) (collection : Expr) (s : RenameState) :
    (env.stmt (.forEach l name collection body) s).1 =
      .block l (env.copies name body (env.loopTargets collection s) s) := by
  rfl

theorem getElem?_copies (k : Nat) (s : RenameState) : (env.copies name body targets s)[k]? =
      ((env.copyStates name body targets s)[k]?).map fun t => (env.stmt body t).1 := by
  induction targets generalizing k s with
  | nil => rfl
  | cons number targets ih =>
    rw [copies, mapM_cons]
    cases k with
    | zero => rfl
    | succ k => exact ih k { (env.stmt body (s.declare name (.composed number))).2 with scope := s.scope }

theorem scope_copyStates {k : Nat} (h : (env.copyStates name body targets s)[k]? = some t) :
    ∃ number, targets[k]? = some number ∧ t.scope = (name, .composed number) :: s.scope := by
  induction targets generalizing k s with
  | nil => cases h
  | cons number targets ih =>
    cases k with
    | zero =>
      cases h
      exact ⟨number, rfl, rfl⟩
    | succ k =>
      obtain ⟨found, hfound, hscope⟩ := ih h
      exact ⟨found, hfound, hscope⟩

theorem length_copyStates (s : RenameState) : (env.copyStates name body targets s).length = targets.length := by
  induction targets generalizing s with
  | nil => rfl
  | cons number targets ih => exact congrArg (· + 1) (ih _)

theorem length_copies (s : RenameState) : (env.copies name body targets s).length = targets.length := by
  induction targets generalizing s with
  | nil => rfl
  | cons number targets ih =>
    rw [copies, mapM_cons]
    exact congrArg (· + 1) (ih { (env.stmt body (s.declare name (.composed number))).2 with scope := s.scope })

end

theorem at?_copyPath (l : Lead) (copies : List Stmt) (k : Nat) :
    (Node.stmt (.block l copies)).at? (copyPath k) = (copies[k]?).map Node.stmt := by
  have hstmts : ∀ (k : Nat) (copies : List Stmt),
      (Node.stmts copies).at? (List.replicate k 1 ++ [0]) = (copies[k]?).map Node.stmt := by
    intro k
    induction k with
    | zero => intro copies; cases copies <;> rfl
    | succ k ih =>
      intro copies
      cases copies with
      | nil => rfl
      | cons copy copies => exact ih copies
  exact hstmts k copies

theorem expr_member_none {loc : Span} {target : Expr} {name : String}
    (h : env.resolveMember target name loc s = (none, t)) :
    env.expr (.member loc target name) s = (.member loc (env.expr target t).1 name, (env.expr target t).2) := by
  simp only [RenameEnv.expr, bind, StateT.bind, h]
  rfl

theorem expr_member_some {loc : Span} {target : Expr} {name renamed : String}
    (h : env.resolveMember target name loc s = (some renamed, t)) :
    env.expr (.member loc target name) s = (.ident loc renamed, t) := by
  simp only [RenameEnv.expr, bind, StateT.bind, h]
  rfl

theorem expr_part {e : Expr} (hpart : (path, image, t) ∈ env.parts (.expr e) s)
    (hfound : (Node.expr e).at? path = some m) : env.RenamesAt (.expr e) s path image m t := by
  cases e with
  | literal | ident => cases hpart
  | member loc target name =>
    have hscope := (resolveMember_looks env target name loc s).scope
    rw [parts] at hpart
    split at hpart
    · cases hpart
    · next u hmember =>
      cases mem_singleton.mp hpart
      cases hfound
      rw [hmember] at hscope
      refine ⟨rfl, ?_, .of_scope hscope⟩
      change (Node.expr (env.expr (.member loc target name) s).1).at? [0] = _
      rw [expr_member_none hmember]
      rfl
  | _ => exact .ordered hfound hpart (fun _ => rfl) rfl

theorem stmt_part {st : Stmt} (hpart : (path, image, t) ∈ env.parts (.stmt st) s)
    (hfound : (Node.stmt st).at? path = some m) : env.RenamesAt (.stmt st) s path image m t := by
  cases st with
  | forEach l name collection body =>
    obtain ⟨k, hk, hkt⟩ := mem_mapIdx.mp hpart
    cases hkt
    cases hfound
    obtain ⟨number, hnumber, hscope⟩ := scope_copyStates (getElem?_eq_getElem hk)
    refine ⟨rfl, ?_, [(name, .composed number)], hscope, rfl⟩
    change (Node.stmt (env.stmt (.forEach l name collection body) s).1).at? (copyPath k) = _
    rw [stmt_forEach, at?_copyPath, getElem?_copies, getElem?_eq_getElem hk]
    rfl
  | _ => exact .ordered hfound hpart (fun _ => rfl) rfl

theorem children_decl (d : Decl) (s : RenameState) :
    (env.node (.decl d) s).1.children = env.nodes (Node.decl d).children s := by
  have hresult : (env.node (.decl d) s).1 = .decl { d with
      attrs := (env.attrs d.attrs s).1, kind := (env.kind d.kind (env.attrs d.attrs s).2).1 } := rfl
  rw [hresult, Node.children, Node.children]
  cases d.kind with
  | method returns ps semantic body => cases body <;> rfl
  | var t semantic init => cases init <;> rfl
  | _ => rfl

theorem children_node (hloop : n.isLoop = false) (hexpr : n.isExpr = false) (s : RenameState) :
    (env.node n s).1.children = env.nodes n.children s := by
  cases n with
  | stmt st =>
    cases st with
    | forEach => cases hloop
    | _ => rfl
  | stmts sts => cases sts <;> rfl
  | decl d => exact children_decl d s
  | option e | simple e | start e => cases e <;> rfl
  | attrs as =>
    cases as with
    | nil => rfl
    | cons a as =>
      rw [node, RenameEnv.attrs, mapM_cons]
      rfl
  | params ps =>
    cases ps with
    | nil => rfl
    | cons p ps =>
      rw [node, mapM_cons]
      rfl
  | type t =>
    obtain ⟨name, args, array⟩ := t
    cases array with
    | none => rfl
    | some size => cases size <;> rfl
  | expr e | exprs es => cases hexpr

theorem part_renamesAt (hpart : (path, image, t) ∈ env.parts n s) (hfound : n.at? path = some m) :
    env.RenamesAt n s path image m t := by
  cases n with
  | expr e => exact expr_part hpart hfound
  | stmt st => exact stmt_part hpart hfound
  | exprs es => cases es <;> exact .ordered hfound hpart (fun _ => rfl) rfl
  | _ => exact .ordered hfound hpart (fun _ => rfl) (children_node rfl rfl s)

theorem Visits.renamesAt (h : env.Visits n s path image m t) : env.RenamesAt n s path image m t := by
  induction h with
  | here => exact .refl n s
  | step _ hpart hfound ih => exact ih.trans (part_renamesAt hpart hfound)

end RenameEnv

end ShaderCompose.Mix
