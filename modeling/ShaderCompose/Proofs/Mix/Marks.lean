import ShaderCompose.Proofs.Mix.Jumps
import ShaderCompose.Shader.Clean

/-!
The syntax of mixing inside of declarations.
-/

namespace ShaderCompose

open List

def Qualifiers.isMixin (q : Qualifiers) : Bool :=
  q.stage || q.stream || q.compose || q.override || q.abstract || q.clone

def Attribute.isMixin (a : Attribute) : Bool := mixinAttributes.contains a.name

/-- The syntax of mixing inside of declarations. -/
inductive MixinSyntax where
  | loop
  | mark

namespace Node

variable {k : MixinSyntax} {n m c : Node} {path : List Nat}

def shows : MixinSyntax → Node → Bool
  | .loop, n => n.isLoop
  | .mark, attrs (a :: _) => a.isMixin
  | .mark, params (p :: _) => p.quals.isMixin
  | .mark, simple (.declare quals ..) => quals.isMixin
  | .mark, _ => false

def FreeOf (k : MixinSyntax) (n : Node) : Prop := ∀ path m, n.at? path = some m → m.shows k = false

theorem at?_stmts {sts : List Stmt} (h : (stmts sts).at? path = some m) :
    (∃ rest, m = stmts rest) ∨ ∃ st ∈ sts, ∃ below, below.length < path.length ∧ (stmt st).at? below = some m := by
  induction path generalizing sts with
  | nil => exact .inl ⟨sts, (Option.some.inj h).symm⟩
  | cons i path ih =>
    obtain ⟨c, hc, h⟩ := Option.bind_eq_some_iff.mp h
    cases sts with
    | nil => cases hc
    | cons st sts =>
      match i, hc with
      | 0, rfl => exact .inr ⟨st, mem_cons_self .., path, Nat.lt_succ_self _, h⟩
      | 1, rfl =>
        refine (ih h).imp_right ?_
        rintro ⟨st', hst', below, hlt, hbelow⟩
        exact ⟨st', mem_cons_of_mem _ hst', below, Nat.lt_succ_of_lt hlt, hbelow⟩

namespace FreeOf

theorem of_children (hn : n.shows k = false) (h : ∀ c ∈ n.children, c.FreeOf k) : n.FreeOf k := by
  intro path m hm
  cases path with
  | nil =>
    cases hm
    exact hn
  | cons i path =>
    obtain ⟨c, hc, hm⟩ := Option.bind_eq_some_iff.mp hm
    exact h c (mem_of_getElem? hc) path m hm

theorem child (h : n.FreeOf k) (hc : c ∈ n.children) : c.FreeOf k := by
  intro path m hm
  obtain ⟨i, hi⟩ := mem_iff_getElem?.mp hc
  refine h (i :: path) m ?_
  rw [at?, hi]
  exact hm

theorem of_isExpr (h : n.isExpr = true) : n.FreeOf k := by
  intro path m hm
  induction path generalizing n with
  | nil =>
    cases hm
    cases k <;> cases m <;> first | rfl | cases h
  | cons i path ih =>
    obtain ⟨c, hc, hm⟩ := Option.bind_eq_some_iff.mp hm
    exact ih (isExpr_children h c (mem_of_getElem? hc)) hm

theorem option (e : Option Expr) : (Node.option e).FreeOf k := by
  refine of_children (by cases k <;> rfl) ?_
  cases e with
  | none => exact forall_mem_nil _
  | some e => exact forall_mem_singleton.mpr (of_isExpr rfl)

theorem type (t : TypeRef) : (Node.type t).FreeOf k := by
  refine of_children (by cases k <;> rfl) ?_
  obtain ⟨name, args, array⟩ := t
  cases array with
  | none => exact forall_mem_nil _
  | some size =>
    cases size with
    | unsized => exact forall_mem_nil _
    | fixed size => exact forall_mem_singleton.mpr (of_isExpr rfl)

end FreeOf

theorem freeOf_stmts {sts : List Stmt} : (stmts sts).FreeOf k ↔ ∀ st ∈ sts, (stmt st).FreeOf k := by
  constructor
  · intro h
    induction sts with
    | nil => exact forall_mem_nil _
    | cons st sts ih =>
      exact forall_mem_cons.mpr ⟨h.child (by simp [children]), ih (h.child (by simp [children]))⟩
  · intro h path m hm
    rcases at?_stmts hm with ⟨rest, rfl⟩ | ⟨st, hst, below, -, hbelow⟩
    · cases k <;> rfl
    · exact h st hst below m hbelow

theorem freeOf_params {ps : List Param} : (params ps).FreeOf k ↔ ∀ p ∈ ps, k = .mark → p.quals.isMixin = false := by
  induction ps with
  | nil =>
    refine iff_of_true (.of_children ?_ (forall_mem_nil _)) (forall_mem_nil _)
    cases k <;> rfl
  | cons p ps ih =>
    have hshows : (params (p :: ps)).shows k = false ↔ (k = .mark → p.quals.isMixin = false) := by
      cases k <;> simp [shows, isLoop]
    rw [forall_mem_cons, ← hshows]
    refine ⟨fun h => ⟨h [] _ rfl, ih.mp (h.child (by simp [children]))⟩, fun h => .of_children h.1 ?_⟩
    simpa [children] using ⟨FreeOf.type _, FreeOf.option _, ih.mpr h.2⟩

end Node

namespace Decl

variable {k : MixinSyntax} {d : Decl}

def parts (d : Decl) : List Node :=
  match d.kind with
  | .method returns ps _ body => [.type returns, .params ps] ++ (body.map Node.stmts).toList
  | .struct fields => [.params fields]
  | _ => []

def FreeOf (k : MixinSyntax) (d : Decl) : Prop := ∀ n ∈ d.parts, n.FreeOf k

theorem mem_parts {i : Nat} {n : Node} (h : (Node.decl d).children[i + 1]? = some n) : n ∈ d.parts := by
  rw [Node.children] at h
  unfold parts
  cases hkind : d.kind with
  | method returns ps semantic body =>
    rw [hkind] at h
    exact mem_of_getElem? (i := i) h
  | _ =>
    rw [hkind] at h
    cases h

theorem freeOf_loop : d.FreeOf .loop ↔ (Node.decl d).Loopless := by
  unfold FreeOf parts
  cases hkind : d.kind with
  | method returns ps semantic body =>
    have hchildren : (Node.decl d).children =
        .attrs d.attrs :: ([.type returns, .params ps] ++ (body.map Node.stmts).toList) := by
      rw [Node.children, hkind]
      rfl
    refine ⟨fun h => .of_children rfl ?_, fun h n hn => Node.FreeOf.child (n := .decl d) h ?_⟩
    · rw [hchildren]
      exact forall_mem_cons.mpr ⟨.of_not_holdsStmts rfl, h⟩
    · rw [hchildren]
      exact mem_cons_of_mem _ hn
  | struct fields =>
    exact iff_of_true (forall_mem_singleton.mpr (Node.Loopless.of_not_holdsStmts rfl))
      (Mix.RenameEnv.loopless_of_not_isMethod (by simp [isMethod, hkind]))
  | _ =>
    exact iff_of_true (forall_mem_nil _) (Mix.RenameEnv.loopless_of_not_isMethod (by simp [isMethod, hkind]))

end Decl

namespace Mix.RenameEnv

open Node

variable {k : MixinSyntax} {n : Node} {d : Decl}

variable (env : RenameEnv)

theorem isExpr_node (n : Node) (s : RenameState) : (env.node n s).1.isExpr = n.isExpr := by
  cases n <;> rfl

theorem shows_node (h : n.shows k = false) (s : RenameState) : (env.node n s).1.shows k = false := by
  cases k with
  | loop =>
    cases n with
    | stmt st => exact stmt_loopless env st s [] _ rfl
    | _ => rfl
  | mark =>
    cases n with
    | attrs as =>
      cases as with
      | nil => rfl
      | cons a as =>
        rw [node, RenameEnv.attrs, mapM_cons]
        exact h
    | params ps =>
      cases ps with
      | nil => rfl
      | cons p ps =>
        rw [node, mapM_cons]
        exact h
    | simple what => cases what <;> exact h
    | _ => rfl

theorem node_freeOf (h : n.FreeOf k) (s : RenameState) : (env.node n s).1.FreeOf k := by
  intro path m hm
  induction hlength : path.length using Nat.strongRecOn generalizing path n s with
  | _ length ih =>
  subst hlength
  cases path with
  | nil =>
    cases hm
    exact shows_node env (h [] n rfl) s
  | cons i path =>
    cases hloop : n.isLoop with
    | true =>
      -- the attributes of a loop stay before the block, which holds copies of the body
      obtain ⟨l, name, collection, body, rfl⟩ := eq_forEach hloop
      change (Node.stmt (env.stmt (.forEach l name collection body) s).1).at? (i :: path) = _ at hm
      rw [stmt_forEach] at hm
      obtain ⟨c, hc, hm⟩ := Option.bind_eq_some_iff.mp hm
      match i, hc with
      | 0, rfl => exact h (0 :: path) m hm
      | 1, rfl =>
        rcases at?_stmts hm with ⟨rest, rfl⟩ | ⟨copy, hcopy, below, hlt, hbelow⟩
        · cases k <;> rfl
        · obtain ⟨j, hj⟩ := mem_iff_getElem?.mp hcopy
          rw [getElem?_copies] at hj
          obtain ⟨t, -, rfl⟩ := Option.map_eq_some_iff.mp hj
          have hbody : (Node.stmt body).FreeOf k := h.child (by simp [children])
          exact ih _ (Nat.lt_succ_of_lt hlt) hbody t below hbelow rfl
    | false =>
      cases hexpr : n.isExpr with
      | true => exact FreeOf.of_isExpr ((isExpr_node env n s).trans hexpr) _ m hm
      | false =>
        obtain ⟨c, hc, hm⟩ := Option.bind_eq_some_iff.mp hm
        rw [children_node hloop hexpr, getElem?_nodes] at hc
        obtain ⟨part, hpart, rfl⟩ := Option.map_eq_some_iff.mp hc
        exact ih _ (Nat.lt_succ_self _) (h.child (mem_of_getElem? hpart)) _ path hm rfl

theorem decl_freeOf (h : d.FreeOf k) (s : RenameState) : ((env.decl d).run s).1.FreeOf k := by
  change Decl.FreeOf k { d with
    attrs := (env.attrs d.attrs s).1, kind := (env.kind d.kind (env.attrs d.attrs s).2).1 }
  unfold Decl.FreeOf Decl.parts at h ⊢
  cases hkind : d.kind with
  | var t semantic init => cases init <;> exact forall_mem_nil _
  | buffer kind members => exact forall_mem_nil _
  | struct fields =>
    rw [hkind] at h
    exact forall_mem_singleton.mpr (node_freeOf env (forall_mem_singleton.mp h) _)
  | method returns ps semantic body =>
    rw [hkind] at h
    have hps := node_freeOf env (h (.params ps) (by simp))
    cases body with
    | none => exact forall_mem_cons.mpr ⟨.type _, forall_mem_singleton.mpr (hps _)⟩
    | some body =>
      have hbody := node_freeOf env (h (.stmts body) (by simp))
      exact forall_mem_cons.mpr ⟨.type _, forall_mem_cons.mpr ⟨hps _, forall_mem_singleton.mpr (hbody _)⟩⟩

end Mix.RenameEnv

end ShaderCompose
