import ShaderCompose.Proofs.Lang.Calls

/-!
Positions in a method, as ways down a tree of nodes.
-/

namespace ShaderCompose

open List

inductive Node where
  | expr (e : Expr)
  | exprs (es : List Expr)
  | attrs (as : List Attribute)
  | option (e : Option Expr)
  | type (t : TypeRef)
  | params (ps : List Param)
  | simple (what : Simple)
  | start (init : Option (Span × Simple))
  | stmt (st : Stmt)
  | stmts (sts : List Stmt)
  | decl (d : Decl)

namespace Node

def children : Node → List Node
  | expr (.literal ..) | expr (.ident ..) | exprs [] | attrs [] | option none | params [] | start none
  | stmts [] => []
  | expr (.member _ target _) => [expr target]
  | expr (.call _ callee args) => [expr callee, exprs args]
  | expr (.index _ target position) => [expr target, expr position]
  | expr (.unary _ _ operand) => [expr operand]
  | expr (.binary _ _ lhs rhs) => [expr lhs, expr rhs]
  | expr (.assign _ _ target value) => [expr target, expr value]
  | expr (.ternary _ condition yes no) => [expr condition, expr yes, expr no]
  | expr (.list _ items) => [exprs items]
  | exprs (e :: es) => [expr e, exprs es]
  | attrs (a :: as) => [exprs a.args, attrs as]
  | option (some e) => [expr e]
  | type t => match t.array with
    | some (.fixed size) => [expr size]
    | _ => []
  | params (p :: ps) => [type p.type, option p.default, params ps]
  | simple (.declare _ t _ init) => [type t, option init]
  | simple (.expr value) => [expr value]
  | start (some (_, what)) => [simple what]
  | stmt (.block l body) => [attrs l.attrs, stmts body]
  | stmt (.simple l what) => [attrs l.attrs, simple what]
  | stmt (.ret l value) => [attrs l.attrs, option value]
  | stmt (.ifThen l condition yes) => [attrs l.attrs, expr condition, stmt yes]
  | stmt (.ifElse l condition yes no) => [attrs l.attrs, expr condition, stmt yes, stmt no]
  | stmt (.forLoop l init condition step body) =>
    [attrs l.attrs, start init, option condition, option step, stmt body]
  | stmt (.whileLoop l condition body) => [attrs l.attrs, expr condition, stmt body]
  | stmt (.forEach l _ collection body) => [attrs l.attrs, expr collection, stmt body]
  | stmt (.breakLoop l) | stmt (.continueLoop l) | stmt (.discard l) | stmt (.empty l) => [attrs l.attrs]
  | stmts (st :: sts) => [stmt st, stmts sts]
  | decl d => match d.kind with
    | .method returns ps _ body => [attrs d.attrs, type returns, params ps] ++ (body.map stmts).toList
    | _ => [attrs d.attrs]

def at? : Node → List Nat → Option Node
  | n, [] => some n
  | n, i :: path => (n.children[i]?).bind fun child => child.at? path

def declares : Node → Scope
  | simple what => what.binds
  | start init => Simple.bindsIn init
  | stmt st => st.binds
  | stmts sts => Stmt.bindsAll sts
  | _ => []

def declaredBy : List Node → Scope
  | [] => []
  | n :: ns => declaredBy ns ++ n.declares

def entering : Node → Nat → Scope
  -- the variable of a loop is bound in the body only
  | stmt (.forEach _ name _ _), i => if i = 2 then [(name, .loop)] else []
  | n, i => declaredBy (n.children.take i)

def boundAt : Node → List Nat → Scope → Scope
  | _, [], scope => scope
  | n, i :: path, scope =>
    match n.children[i]? with
    | some child => child.boundAt path (n.entering i ++ scope)
    | none => scope

variable {n m : Node} {path more : List Nat}

theorem at?_append (h : n.at? path = some m) (more : List Nat) : n.at? (path ++ more) = m.at? more := by
  induction path generalizing n with
  | nil =>
    cases h
    rfl
  | cons i path ih =>
    obtain ⟨child, hchild, hpath⟩ := Option.bind_eq_some_iff.mp h
    rw [cons_append, at?, hchild]
    exact ih hpath

theorem boundAt_append (h : n.at? path = some m) (more : List Nat) (scope : Scope) :
    n.boundAt (path ++ more) scope = m.boundAt more (n.boundAt path scope) := by
  induction path generalizing n scope with
  | nil =>
    cases h
    rfl
  | cons i path ih =>
    obtain ⟨child, hchild, hpath⟩ := Option.bind_eq_some_iff.mp h
    simp only [cons_append, boundAt, hchild]
    exact ih hpath _

theorem boundAt_child {i : Nat} (h : n.children[i]? = some m) (scope : Scope) :
    n.boundAt [i] scope = n.entering i ++ scope := by
  simp only [boundAt, h]

theorem boundAt_eq (n : Node) (path : List Nat) (scope : Scope) :
    n.boundAt path scope = n.boundAt path [] ++ scope := by
  induction path generalizing n scope with
  | nil => rfl
  | cons i path ih =>
    rw [boundAt, boundAt]
    split
    · next child _ => rw [ih child, ih child (n.entering i ++ []), append_nil, append_assoc]
    · rfl

theorem declaredBy_eq_nil {ns : List Node} (h : ∀ n ∈ ns, n.declares = []) : declaredBy ns = [] := by
  induction ns with
  | nil => rfl
  | cons n ns ih => rw [declaredBy, h n (by simp), ih fun m hm => h m (mem_cons_of_mem _ hm), append_nil]

def isLoop : Node → Bool
  | stmt (.forEach ..) => true
  | _ => false

def isExpr : Node → Bool
  | expr _ | exprs _ => true
  | _ => false

theorem isExpr_children (h : n.isExpr = true) : ∀ child ∈ n.children, child.isExpr = true := by
  cases n with
  | expr e => cases e <;> simp [children, isExpr]
  | exprs es => cases es <;> simp [children, isExpr]
  | _ => cases h

theorem declares_of_isExpr (h : n.isExpr = true) : n.declares = [] := by
  cases n <;> first | rfl | cases h

theorem boundAt_of_isExpr (h : n.isExpr = true) (path : List Nat) (scope : Scope) : n.boundAt path scope = scope := by
  induction path generalizing n with
  | nil => rfl
  | cons i path ih =>
    have hentering : n.entering i = [] := by
      have hnil : declaredBy (n.children.take i) = [] :=
        declaredBy_eq_nil fun m hm => declares_of_isExpr (isExpr_children h m (mem_of_mem_take hm))
      cases n with
      | stmt => cases h
      | _ => exact hnil
    rw [boundAt, hentering]
    split
    · next child hchild => exact ih (isExpr_children h child (mem_of_getElem? hchild))
    · rfl

theorem at?_child {i : Nat} : n.at? [i] = n.children[i]? := by
  rw [at?]
  cases n.children[i]? <;> rfl

end Node

/-! ## Taking nodes one after another -/

section

variable {σ : Type} (run : Node → σ → σ)

def inOrder : Nat → List Node → σ → List (Nat × σ)
  | _, [], _ => []
  | i, n :: ns, s => (i, s) :: inOrder (i + 1) ns (run n s)

def runAll (ns : List Node) (s : σ) : σ := ns.foldl (fun s n => run n s) s

variable {run}

theorem mem_inOrder {start i : Nat} {ns : List Node} {s t : σ} : (i, t) ∈ inOrder run start ns s ↔
      ∃ k < ns.length, i = start + k ∧ t = runAll run (ns.take k) s := by
  induction ns generalizing start s with
  | nil => simp [inOrder]
  | cons n ns ih =>
    simp only [inOrder, mem_cons, Prod.mk.injEq, ih, length_cons]
    constructor
    · rintro (⟨rfl, rfl⟩ | ⟨k, hk, rfl, rfl⟩)
      · exact ⟨0, by omega, rfl, rfl⟩
      · exact ⟨k + 1, by omega, by omega, rfl⟩
    · rintro ⟨k, hk, rfl, rfl⟩
      cases k with
      | zero => exact .inl ⟨rfl, rfl⟩
      | succ k => exact .inr ⟨k, by omega, by omega, rfl⟩

theorem runAll_bounds {bounds : σ → Scope} {ns : List Node}
    (h : ∀ n ∈ ns, ∀ s, bounds (run n s) = n.declares ++ bounds s) (s : σ) :
    bounds (runAll run ns s) = Node.declaredBy ns ++ bounds s := by
  induction ns generalizing s with
  | nil => rfl
  | cons n ns ih =>
    rw [Node.declaredBy, append_assoc, ← h n (by simp)]
    exact ih (fun m hm => h m (mem_cons_of_mem _ hm)) (run n s)

end

end ShaderCompose
