import ShaderCompose.Proofs.Pairs
import ShaderCompose.Stream.Interface

/-!
What the walk over an entry point does.
-/

namespace ShaderCompose

open List

namespace Expr

mutual

def parts : Expr → List Expr
  | e@(.literal ..) | e@(.ident ..) => [e]
  | e@(.member _ target _) => e :: target.parts
  | e@(.index _ target position) => e :: (target.parts ++ position.parts)
  | e@(.call _ callee args) =>
    match callee with
    | .ident .. => e :: partsAll args
    | _ => e :: (callee.parts ++ partsAll args)
  | e@(.unary _ _ operand) => e :: operand.parts
  | e@(.binary _ _ lhs rhs) => e :: (lhs.parts ++ rhs.parts)
  | e@(.assign _ _ target value) => e :: (target.parts ++ value.parts)
  | e@(.ternary _ condition yes no) => e :: (condition.parts ++ (yes.parts ++ no.parts))
  | e@(.list _ items) => e :: partsAll items

def partsAll : List Expr → List Expr
  | [] => []
  | e :: es => e.parts ++ partsAll es

end

def calledName? : Expr → Option String
  | .call _ callee _ => callee.ident?
  | _ => none

def root? : Expr → Option String
  | .ident _ name => some name
  | .member _ target _ | .index _ target _ => target.root?
  | _ => none

def passedOut (args : List Expr) (ps : List Param) : List String :=
  ((args.zip ps).filter fun a => a.2.quals.output).filterMap fun a => a.1.root?

def changes (params : String → List Param) : Expr → List String
  | .assign _ _ target _ => target.root?.toList
  | .unary _ op operand => if Stream.changesOperand op then operand.root?.toList else []
  | .call _ (.ident _ name) args => passedOut args (params name)
  | _ => []

end Expr

def Simple.roots : Simple → List Expr
  | .declare _ _ _ init => init.toList
  | .expr value => [value]

namespace Stmt

mutual

def roots : Stmt → List Expr
  | .block _ body => rootsAll body
  | .simple _ what => what.roots
  | .ret _ value => value.toList
  | .ifThen _ condition yes => condition :: yes.roots
  | .ifElse _ condition yes no => condition :: (yes.roots ++ no.roots)
  | .forLoop _ init condition step body =>
    init.toList.flatMap (fun s => s.2.roots) ++ condition.toList ++ body.roots ++ step.toList
  | .whileLoop _ condition body => condition :: body.roots
  | .forEach _ _ collection body => collection :: body.roots
  | .breakLoop _ | .continueLoop _ | .discard _ | .empty _ => []

def rootsAll : List Stmt → List Expr
  | [] => []
  | s :: ss => s.roots ++ rootsAll ss

end

def partsAll (body : List Stmt) : List Expr := (rootsAll body).flatMap Expr.parts

end Stmt

namespace Stream

inductive Use where
  | read (name : String)
  | write (name : String)
  | call (name : String)
  deriving DecidableEq

section

variable (params : String → List Param)

mutual

def uses : Access → Expr → List Use
  | _, .literal .. => []
  | .value, .ident _ name => [.read name]
  | .target, .ident _ name => [.write name]
  | access, .member _ target _ => uses access target
  | .value, .index _ target position => uses .value target ++ uses .value position
  | .target, .index _ target position => uses .value position ++ uses .target target
  | _, .call _ callee args =>
    match callee with
    | .ident _ name => usesOfArgs args (params name) ++ [.call name]
    | _ => uses .value callee ++ usesOfList args
  | _, .unary _ op operand => uses .value operand ++ if changesOperand op then uses .target operand else []
  | _, .binary _ _ lhs rhs => uses .value lhs ++ uses .value rhs
  | _, .assign _ op target value =>
    uses .value value ++ ((if op.isSome then uses .value target else []) ++ uses .target target)
  | _, .ternary _ condition yes no => uses .value condition ++ (uses .value yes ++ uses .value no)
  | _, .list _ items => usesOfList items

def usesOfList : List Expr → List Use
  | [] => []
  | e :: es => uses .value e ++ usesOfList es

def usesOfArgs : List Expr → List Param → List Use
  | [], _ => []
  | e :: es, ps =>
    (if (Passing.of ps.head?).read then uses .value e else []) ++
      ((if (Passing.of ps.head?).written then uses .target e else []) ++ usesOfArgs es ps.tail)

end

end

section

variable (streams : StreamIndex) (enter : String → Usage → Usage)

def Use.run (u : Usage) : Use → Usage
  | read name => useName streams .value name u
  | write name => useName streams .target name u
  | call name => enter name u

variable {params : String → List Param}

mutual

theorem walkExpr_eq (access : Access) (e : Expr) (u : Usage) :
    walkExpr streams params enter access e u = (uses params access e).foldl (Use.run streams enter) u := by
  match access, e with
  | _, .literal .. | .value, .ident .. | .target, .ident .. => rfl
  | access, .member _ target _ => exact walkExpr_eq access target u
  | .value, .index _ target position | .target, .index _ target position =>
    simp only [walkExpr, uses, foldl_append, walkExpr_eq]
  | _, .call _ callee args =>
    have hcallee := walkExpr_eq .value callee
    cases callee with
    | ident loc name => simp only [walkExpr, uses, foldl_append, walkArgs_eq]; rfl
    | _ =>
      refine (walkList_eq args _).trans ?_
      rw [hcallee]
      exact foldl_append.symm
  | _, .unary _ op operand =>
    simp only [walkExpr, uses, foldl_append, walkExpr_eq]
    split <;> rfl
  | _, .binary .. | _, .ternary .. => simp only [walkExpr, uses, foldl_append, walkExpr_eq]
  | _, .assign _ op target value =>
    simp only [walkExpr, uses, foldl_append, walkExpr_eq]
    split <;> rfl
  | _, .list _ items => exact walkList_eq items u

theorem walkList_eq (es : List Expr) (u : Usage) :
    walkList streams params enter es u = (usesOfList params es).foldl (Use.run streams enter) u := by
  match es with
  | [] => rfl
  | e :: es => simp only [walkList, usesOfList, foldl_append, walkExpr_eq, walkList_eq]

theorem walkArgs_eq (es : List Expr) (ps : List Param) (u : Usage) :
    walkArgs streams params enter es ps u = (usesOfArgs params es ps).foldl (Use.run streams enter) u := by
  match es with
  | [] => rfl
  | e :: es =>
    simp only [walkArgs, usesOfArgs, foldl_append, walkExpr_eq, walkArgs_eq]
    split <;> split <;> rfl

end

theorem walkOption_eq (e : Option Expr) (u : Usage) : walkOption streams params enter e u =
    e.toList.foldl (fun u e => walkExpr streams params enter .value e u) u := by
  cases e <;> rfl

theorem walkSimple_eq (what : Simple) (u : Usage) : walkSimple streams params enter what u =
    what.roots.foldl (fun u e => walkExpr streams params enter .value e u) u := by
  cases what with
  | declare quals type name init => exact walkOption_eq streams enter init u
  | expr value => rfl

mutual

theorem walkStmt_eq (s : Stmt) (u : Usage) : walkStmt streams params enter s u =
    s.roots.foldl (fun u e => walkExpr streams params enter .value e u) u := by
  match s with
  | .block _ body => exact walkStmts_eq body u
  | .simple _ what => exact walkSimple_eq streams enter what u
  | .ret _ value => exact walkOption_eq streams enter value u
  | .forLoop _ init condition step body =>
    simp only [walkStmt, Stmt.roots, foldl_append, walkOption_eq, walkStmt_eq]
    cases init with
    | none => rfl
    | some start => simp [walkSimple_eq]
  | .ifThen .. | .ifElse .. | .whileLoop .. | .forEach .. =>
    simp only [walkStmt, Stmt.roots, foldl_append, foldl_cons, walkStmt_eq]
  | .breakLoop _ | .continueLoop _ | .discard _ | .empty _ => rfl

theorem walkStmts_eq (ss : List Stmt) (u : Usage) : walkStmts streams params enter ss u =
    (Stmt.rootsAll ss).foldl (fun u e => walkExpr streams params enter .value e u) u := by
  match ss with
  | [] => rfl
  | s :: ss => simp only [walkStmts, Stmt.rootsAll, foldl_append, walkStmt_eq, walkStmts_eq]

end

def usesIn (params : String → List Param) (body : List Stmt) : List Use :=
  (Stmt.rootsAll body).flatMap (uses params .value)

theorem walkStmts_eq_foldl (body : List Stmt) (u : Usage) :
    walkStmts streams params enter body u = (usesIn params body).foldl (Use.run streams enter) u := by
  rw [walkStmts_eq, usesIn, foldl_flatMap]
  simp only [walkExpr_eq]

end

/-! ## What is used -/

section

variable {params : String → List Param} {n : String}

structure Agree (params : String → List Param) (targets : List String) (xs : List Expr) (us : List Use) : Prop where
  name : ∀ n, .read n ∈ us ∨ .write n ∈ us ↔ ∃ x ∈ xs, x.ident? = some n
  write : ∀ n, .write n ∈ us ↔ n ∈ targets ∨ ∃ x ∈ xs, n ∈ x.changes params
  call : ∀ n, .call n ∈ us ↔ ∃ x ∈ xs, x.calledName? = some n

namespace Agree

variable {targets targets' : List String} {xs ys : List Expr} {us vs : List Use}

theorem nil : Agree params [] [] [] := ⟨by simp, by simp, by simp⟩

theorem append (h : Agree params targets xs us) (h' : Agree params targets' ys vs) :
    Agree params (targets ++ targets') (xs ++ ys) (us ++ vs) := by
  obtain ⟨hname, hwrite, hcall⟩ := h
  obtain ⟨hname', hwrite', hcall'⟩ := h'
  constructor <;> grind

theorem congr (h : Agree params targets xs us) (ht : ∀ n, n ∈ targets' ↔ n ∈ targets) (hx : ∀ x, x ∈ ys ↔ x ∈ xs)
    (hu : ∀ use, use ∈ vs ↔ use ∈ us) : Agree params targets' ys vs := by
  obtain ⟨hname, hwrite, hcall⟩ := h
  constructor <;> simp_all

theorem around (x : Expr) (h : Agree params (x.changes params ++ targets) xs us) (hname : x.ident? = none)
    (hcall : x.calledName? = none) : Agree params targets (x :: xs) us := by
  obtain ⟨hnames, hwrites, hcalls⟩ := h
  constructor <;> grind

theorem byName (x : Expr) (h : Agree params (x.changes params ++ targets) xs us) (hname : x.ident? = none)
    (hcall : x.calledName? = some n) : Agree params targets (x :: xs) (us ++ [.call n]) := by
  obtain ⟨hnames, hwrites, hcalls⟩ := h
  constructor <;> grind

end Agree

def Access.targets (e : Expr) : Access → List String
  | .value => []
  | .target => e.root?.toList

mutual

theorem uses_agree (access : Access) (e : Expr) : Agree params (access.targets e) e.parts (uses params access e) := by
  match e with
  | .literal loc value => cases access <;> exact Agree.nil.around _ rfl rfl
  | .ident loc name =>
    cases access <;> constructor <;>
      simp [uses, Expr.parts, Access.targets, Expr.root?, Expr.ident?, Expr.changes, Expr.calledName?, @eq_comm _ name]
  | .member loc target name =>
    have htarget := uses_agree access target
    cases access <;> exact htarget.around _ rfl rfl
  | .index loc target position =>
    have htarget := uses_agree access target
    have hposition := uses_agree .value position
    cases access with
    | value => exact (htarget.append hposition).around _ rfl rfl
    | target =>
      refine Agree.around _ ?_ rfl rfl
      exact (hposition.append htarget).congr (fun _ => .rfl) (by simp [or_comm]) (fun _ => .rfl)
  | .call loc callee args =>
    have hcallee := uses_agree .value callee
    have hargs := usesOfList_agree args
    cases callee with
    | ident loc' name =>
      have hpassed := usesOfArgs_agree args (params name)
      have htargets : access.targets (.call loc (.ident loc' name) args) = [] := by cases access <;> rfl
      rw [htargets]
      exact .byName _ (hpassed.congr (by simp [Expr.changes]) (fun _ => .rfl) fun _ => .rfl) rfl rfl
    | _ => cases access <;> exact (hcallee.append hargs).around _ rfl rfl
  | .unary loc op operand =>
    have hvalue := uses_agree .value operand
    have hboth := hvalue.append (uses_agree .target operand)
    have htargets : access.targets (.unary loc op operand) = [] := by cases access <;> rfl
    rw [htargets]
    refine Agree.around _ ?_ rfl rfl
    cases hchanges : changesOperand op
    · exact hvalue.congr (by simp [Expr.changes, hchanges, Access.targets]) (by simp) (by simp [uses, hchanges])
    · exact hboth.congr (by simp [Expr.changes, hchanges, Access.targets]) (by simp) (by simp [uses, hchanges])
  | .binary loc op lhs rhs =>
    cases access <;> exact ((uses_agree .value lhs).append (uses_agree .value rhs)).around _ rfl rfl
  | .assign loc op target value =>
    have htarget := uses_agree .target target
    have hvalue := uses_agree .value value
    have hread := uses_agree .value target
    have htargets : access.targets (.assign loc op target value) = [] := by cases access <;> rfl
    rw [htargets]
    refine Agree.around _ ?_ rfl rfl
    cases hop : op.isSome
    · refine (hvalue.append htarget).congr ?_ ?_ ?_ <;> simp [Expr.changes, Access.targets, uses, hop, or_comm]
    · refine (hvalue.append (hread.append htarget)).congr ?_ ?_ ?_ <;>
        simp [Expr.changes, Access.targets, uses, hop, or_comm]
  | .ternary loc condition yes no =>
    have hbranches := (uses_agree .value condition).append ((uses_agree .value yes).append (uses_agree .value no))
    cases access <;> exact hbranches.around _ rfl rfl
  | .list loc items => cases access <;> exact (usesOfList_agree items).around _ rfl rfl

theorem usesOfList_agree (es : List Expr) : Agree params [] (Expr.partsAll es) (usesOfList params es) := by
  match es with
  | [] => exact .nil
  | e :: es => exact (uses_agree .value e).append (usesOfList_agree es)

theorem usesOfArgs_agree (es : List Expr) (ps : List Param) :
    Agree params (Expr.passedOut es ps) (Expr.partsAll es) (usesOfArgs params es ps) := by
  match es with
  | [] => exact .nil
  | e :: es =>
    have hvalue := uses_agree .value e
    have htarget := uses_agree .target e
    have hrest := usesOfArgs_agree es ps.tail
    match ps with
    | [] =>
      refine (hvalue.append hrest).congr ?_ ?_ ?_ <;>
        simp [Expr.passedOut, Access.targets, Expr.partsAll, usesOfArgs, Passing.of]
    | p :: ps =>
      cases hout : p.quals.output
      · refine (hvalue.append hrest).congr ?_ ?_ ?_ <;>
          simp [Expr.passedOut, Access.targets, Expr.partsAll, usesOfArgs, Passing.of, hout]
      · cases hin : p.quals.input
        · refine (htarget.append hrest).congr ?_ ?_ ?_ <;>
            simp [Expr.passedOut, Access.targets, Expr.partsAll, usesOfArgs, Passing.of, hout, hin]
        · refine (hvalue.append (htarget.append hrest)).congr ?_ ?_ ?_ <;>
            simp [Expr.passedOut, Access.targets, Expr.partsAll, usesOfArgs, Passing.of, hout, hin]

end

theorem usesIn_agree (body : List Stmt) : Agree params [] (Stmt.partsAll body) (usesIn params body) := by
  rw [Stmt.partsAll, usesIn]
  induction Stmt.rootsAll body with
  | nil => exact .nil
  | cons e es ih => exact (uses_agree .value e).append ih

end

/-! ## What was recorded -/

namespace Usage

def Used (u : Usage) (k : Nat) : Prop := k ∈ u.inputs ∨ k ∈ u.outputs

structure Le (u v : Usage) : Prop where
  log : u.log <+: v.log
  used : ∀ k, u.Used k → v.Used k
  outputs : u.outputs ⊆ v.outputs

variable {u v w : Usage} {k : Nat}

theorem Le.refl (u : Usage) : u.Le u := ⟨prefix_refl _, fun _ hk => hk, List.Subset.refl _⟩

theorem Le.trans (h : u.Le v) (h' : v.Le w) : u.Le w :=
  ⟨h.log.trans h'.log, fun k hk => h'.used k (h.used k hk), List.Subset.trans h.outputs h'.outputs⟩

theorem le_read (u : Usage) (k : Nat) : u.Le (u.read k) := by
  rw [read]
  split
  · exact .refl u
  · exact ⟨prefix_refl _, fun j hj => hj.imp_left (mem_append_left _), List.Subset.refl _⟩

theorem le_write (u : Usage) (k : Nat) : u.Le (u.write k) := by
  rw [write]
  split
  · exact .refl u
  · exact ⟨prefix_refl _, fun j hj => hj.imp_right (mem_append_left _), subset_append_left ..⟩

theorem log_read (u : Usage) (k : Nat) : (u.read k).log = u.log := by
  rw [read]
  split <;> rfl

theorem log_write (u : Usage) (k : Nat) : (u.write k).log = u.log := by
  rw [write]
  split <;> rfl

theorem used_read (u : Usage) (k : Nat) : (u.read k).Used k := by
  rw [read]
  split
  · next h =>
    simp only [Bool.or_eq_true, contains_iff_mem] at h
    exact h.symm
  · exact .inl (by simp)

theorem mem_outputs_write (u : Usage) (k : Nat) : k ∈ (u.write k).outputs := by
  rw [write]
  split
  · next h => exact contains_iff_mem.mp h
  · simp

structure Tidy (P Q : Nat → Prop) (u : Usage) : Prop where
  inputs_nodup : u.inputs.Nodup
  outputs_nodup : u.outputs.Nodup
  inputs : ∀ k ∈ u.inputs, P k
  outputs : ∀ k ∈ u.outputs, Q k

variable {P Q : Nat → Prop}

theorem Tidy.read (h : u.Tidy P Q) (hk : P k) : (u.read k).Tidy P Q := by
  rw [Usage.read]
  split
  · exact h
  · next hnew =>
    refine { h with inputs_nodup := ?_, inputs := ?_ }
    · exact nodup_append.mpr ⟨h.inputs_nodup, nodup_singleton k, by grind⟩
    · simpa [or_imp, forall_and] using ⟨h.inputs, hk⟩

theorem Tidy.write (h : u.Tidy P Q) (hk : Q k) : (u.write k).Tidy P Q := by
  rw [Usage.write]
  split
  · exact h
  · next hnew =>
    refine { h with outputs_nodup := ?_, outputs := ?_ }
    · exact nodup_append.mpr ⟨h.outputs_nodup, nodup_singleton k, by grind⟩
    · simpa [or_imp, forall_and] using ⟨h.outputs, hk⟩

end Usage

/-! ## A walk -/

section

variable {streams : StreamIndex} {enter : String → Usage → Usage} {params : String → List Param} {use : Use}
  {body : List Stmt} {u : Usage}

theorem Use.run_cases (streams : StreamIndex) (enter : String → Usage → Usage) (use : Use) (u : Usage) :
    use.run streams enter u = u ∨
    (∃ name k, use = .read name ∧ streams.lookup name = some k ∧ use.run streams enter u = u.read k) ∨
    (∃ name k, use = .write name ∧ streams.lookup name = some k ∧ use.run streams enter u = u.write k) ∨
    ∃ name, use = .call name ∧ use.run streams enter u = enter name u := by
  cases use with
  | read name =>
    cases hk : streams.lookup name with
    | none => exact .inl (by simp [run, useName.eq_def, hk])
    | some k => exact .inr (.inl ⟨name, k, rfl, hk, by simp [run, useName.eq_def, hk]⟩)
  | write name =>
    cases hk : streams.lookup name with
    | none => exact .inl (by simp [run, useName.eq_def, hk])
    | some k => exact .inr (.inr (.inl ⟨name, k, rfl, hk, by simp [run, useName.eq_def, hk]⟩))
  | call name => exact .inr (.inr (.inr ⟨name, rfl, rfl⟩))

theorem walkStmts_keeps {P : Usage → Prop} (body : List Stmt)
    (hrun : ∀ use ∈ usesIn params body, ∀ v, P v → P (Use.run streams enter v use)) (hu : P u) :
    P (walkStmts streams params enter body u) := by
  rw [walkStmts_eq_foldl]
  exact List.foldlRecOn _ _ hu fun v hv use huse => hrun use huse v hv

variable (hgrows : ∀ name u, Usage.Le u (enter name u))

include hgrows

theorem Use.le_run (use : Use) (u : Usage) : u.Le (use.run streams enter u) := by
  rcases use.run_cases streams enter u with heq | ⟨name, k, -, -, heq⟩ | ⟨name, k, -, -, heq⟩ | ⟨name, -, heq⟩ <;>
    rw [heq]
  exacts [.refl u, u.le_read k, u.le_write k, hgrows name u]

theorem exists_run_le (huse : use ∈ usesIn params body) (u : Usage) :
    ∃ w, u.Le w ∧ (use.run streams enter w).Le (walkStmts streams params enter body u) := by
  have hfold : ∀ (us : List Use) (v : Usage), v.Le (us.foldl (Use.run streams enter) v) := fun us v =>
    List.foldlRecOn us _ (.refl v) fun w hw use _ => hw.trans (use.le_run hgrows w)
  obtain ⟨before, after, heq⟩ := append_of_mem huse
  rw [walkStmts_eq_foldl, heq, foldl_append]
  exact ⟨_, hfold before u, hfold after _⟩

end

open Relation

section

variable {shader : Shader} {streams : StreamIndex} {fuel : Nat} {path : List String} {name : String} {u v w x : Usage}

def bodyOf? (shader : Shader) (name : String) : Option (List Stmt) :=
  (shader.methods.find? fun m => m.name == name).bind Decl.body?

variable {body : List Stmt}

theorem mem_names_of_bodyOf? {name : String} (h : bodyOf? shader name = some body) :
    name ∈ shader.methods.map Decl.name := by
  obtain ⟨method, hmethod, -⟩ := Option.bind_eq_some_iff.mp h
  have hname : method.name = name := by simpa using find?_some hmethod
  exact mem_map.mpr ⟨method, mem_of_find?_eq_some hmethod, hname⟩

theorem walkMethod_cases (fuel : Nat) (path : List String) (name : String) (u : Usage) :
    (bodyOf? shader name = none ∧ walkMethod shader streams (fuel + 1) path name u = u) ∨
    (∃ method ∈ shader.methods, method.name = name ∧ (bodyOf? shader name).isSome ∧ name ∈ path ∧
      walkMethod shader streams (fuel + 1) path name u =
        { u with log := u.log ++ [.errorAt method.loc (.recursiveCall name)] }) ∨
    ∃ body, bodyOf? shader name = some body ∧ name ∉ path ∧ walkMethod shader streams (fuel + 1) path name u =
        walkStmts streams (methodParams shader) (walkMethod shader streams fuel (name :: path)) body u := by
  cases hmethod : shader.methods.find? fun m => m.name == name with
  | none => exact .inl ⟨by simp [bodyOf?, hmethod], by simp only [walkMethod, hmethod]⟩
  | some method =>
    have hbodyOf : bodyOf? shader name = method.body? := by simp [bodyOf?, hmethod]
    cases hbody : method.body? with
    | none => exact .inl ⟨hbodyOf.trans hbody, by simp only [walkMethod, hmethod, hbody]⟩
    | some body =>
      by_cases hpath : path.contains name = true
      · refine .inr (.inl ⟨method, mem_of_find?_eq_some hmethod, by simpa using find?_some hmethod, ?_,
          by simpa using hpath, by simp only [walkMethod, hmethod, hbody, if_pos hpath]⟩)
        rw [hbodyOf, hbody, Option.isSome_some]
      · refine .inr (.inr ⟨body, hbodyOf.trans hbody, by simpa using hpath, ?_⟩)
        simp only [walkMethod, hmethod, hbody, if_neg hpath]

theorem le_walkMethod (fuel : Nat) (path : List String) (name : String) (u : Usage) :
    u.Le (walkMethod shader streams fuel path name u) := by
  induction fuel generalizing path name u with
  | zero => exact .refl u
  | succ fuel ih =>
    rcases walkMethod_cases fuel path name u with ⟨-, heq⟩ | ⟨method, -, -, -, -, heq⟩ | ⟨body, -, -, heq⟩
    · rw [heq]
      exact .refl u
    · rw [heq]
      exact ⟨prefix_append .., fun _ hk => hk, List.Subset.refl _⟩
    · rw [heq]
      exact walkStmts_keeps body (fun use _ v hv => hv.trans (Use.le_run (ih (name :: path)) use v)) (.refl u)

def Calls (shader : Shader) (a b : String) : Prop :=
  ∃ body, bodyOf? shader a = some body ∧ ∃ x ∈ Stmt.partsAll body, x.calledName? = some b

def InReach (shader : Shader) (entry : String) (x : Expr) : Prop :=
  ∃ name body, ReflTransGen (Calls shader) entry name ∧ bodyOf? shader name = some body ∧ x ∈ Stmt.partsAll body

theorem walkMethod_keeps {entry : String} {P : Usage → Prop}
    (hread : ∀ {u n k}, (∃ x, InReach shader entry x ∧ x.ident? = some n) → streams.lookup n = some k → P u →
      P (u.read k))
    (hwrite : ∀ {u n k}, (∃ x, InReach shader entry x ∧ x.ident? = some n) →
      (∃ x, InReach shader entry x ∧ n ∈ x.changes (methodParams shader)) → streams.lookup n = some k → P u →
      P (u.write k))
    (hcomplain : ∀ {u}, ∀ method ∈ shader.methods, ReflTransGen (Calls shader) entry method.name →
      TransGen (Calls shader) method.name method.name → P u →
      P { u with log := u.log ++ [.errorAt method.loc (.recursiveCall method.name)] })
    (fuel : Nat) (hname : ReflTransGen (Calls shader) entry name)
    (hpath : ∀ p ∈ path, TransGen (Calls shader) p name) (hu : P u) :
    P (walkMethod shader streams fuel path name u) := by
  induction fuel generalizing path name u with
  | zero => exact hu
  | succ fuel ih =>
    rcases walkMethod_cases fuel path name u with ⟨-, heq⟩ | ⟨method, hmethod, rfl, -, hmem, heq⟩ |
      ⟨body, hbody, -, heq⟩ <;> rw [heq]
    · exact hu
    · exact hcomplain method hmethod hname (hpath _ hmem) hu
    · have hagree : Agree (methodParams shader) [] _ (usesIn (methodParams shader) body) := usesIn_agree body
      have hhere : ∀ {x}, x ∈ Stmt.partsAll body → InReach shader entry x := fun hx => ⟨name, body, hname, hbody, hx⟩
      have hnamed : ∀ {n}, .read n ∈ usesIn (methodParams shader) body ∨ .write n ∈ usesIn (methodParams shader) body →
          ∃ x, InReach shader entry x ∧ x.ident? = some n := fun huse => by
        obtain ⟨x, hx, hn⟩ := (hagree.name _).mp huse
        exact ⟨x, hhere hx, hn⟩
      refine walkStmts_keeps body (fun use huse v hv => ?_) hu
      rcases use.run_cases streams (walkMethod shader streams fuel (name :: path)) v with
        heq | ⟨n, k, rfl, hk, heq⟩ | ⟨n, k, rfl, hk, heq⟩ | ⟨n, rfl, heq⟩ <;> rw [heq]
      · exact hv
      · exact hread (hnamed (.inl huse)) hk hv
      · obtain ⟨x, hx, hn⟩ := ((hagree.write n).mp huse).resolve_left not_mem_nil
        exact hwrite (hnamed (.inr huse)) ⟨x, hhere hx, hn⟩ hk hv
      · have hcall : Calls shader name n := ⟨body, hbody, (hagree.call n).mp huse⟩
        exact ih (hname.tail hcall) (forall_mem_cons.mpr ⟨.single hcall, fun p hp => (hpath p hp).tail hcall⟩) hv

theorem log_eq_of_between (huw : u.Le w) (hwx : w.Le x) (hxv : x.Le v) (hlog : v.log = u.log) : x.log = w.log := by
  have hback : x.log <+: w.log := (hlog ▸ hxv.log).trans huw.log
  exact hback.eq_of_length_le hwx.log.length_le

structure Entered (shader : Shader) (streams : StreamIndex) (fuel : Nat) (path : List String) (body : List Stmt)
    (v : Usage) : Prop where
  used : ∀ x ∈ Stmt.partsAll body, ∀ n k, x.ident? = some n → streams.lookup n = some k → v.Used k
  changed : ∀ x ∈ Stmt.partsAll body, ∀ n ∈ x.changes (methodParams shader), ∀ k, streams.lookup n = some k →
    k ∈ v.outputs
  called : ∀ x ∈ Stmt.partsAll body, ∀ n, x.calledName? = some n →
    ∃ w, (walkMethod shader streams fuel path n w).log = w.log ∧ (walkMethod shader streams fuel path n w).Le v

theorem Entered.mono (h : Entered shader streams fuel path body u) (huv : u.Le v) :
    Entered shader streams fuel path body v where
  used := fun x hx n k hn hk => huv.used k (h.used x hx n k hn hk)
  changed := fun x hx n hn k hk => huv.outputs (h.changed x hx n hn k hk)
  called := fun x hx n hn => by
    obtain ⟨w, hlog, hle⟩ := h.called x hx n hn
    exact ⟨w, hlog, hle.trans huv⟩

theorem entered_of_log_eq (hlog : (walkMethod shader streams (fuel + 1) path name u).log = u.log)
    (hbody : bodyOf? shader name = some body) :
    name ∉ path ∧ Entered shader streams fuel (name :: path) body
      (walkMethod shader streams (fuel + 1) path name u) := by
  rcases walkMethod_cases fuel path name u with ⟨hnone, -⟩ | ⟨method, -, -, -, -, heq⟩ | ⟨body', hbody', hpath, heq⟩
  · cases hnone.symm.trans hbody
  · rw [heq] at hlog
    simp at hlog
  · cases hbody.symm.trans hbody'
    have hgrows : ∀ n u, Usage.Le u (walkMethod shader streams fuel (name :: path) n u) := le_walkMethod fuel _
    have hagree : Agree (methodParams shader) [] (Stmt.partsAll body) (usesIn (methodParams shader) body) :=
      usesIn_agree body
    have hpast : ∀ use ∈ usesIn (methodParams shader) body, ∃ w, u.Le w ∧
        (use.run streams (walkMethod shader streams fuel (name :: path)) w).Le
          (walkMethod shader streams (fuel + 1) path name u) := fun use huse => heq ▸ exists_run_le hgrows huse u
    have hwrite : ∀ n k, .write n ∈ usesIn (methodParams shader) body → streams.lookup n = some k →
        k ∈ (walkMethod shader streams (fuel + 1) path name u).outputs := fun n k huse hk => by
      obtain ⟨w, -, hle⟩ := hpast _ huse
      refine hle.outputs ?_
      rw [Use.run, useName.eq_def, hk]
      exact w.mem_outputs_write k
    refine ⟨hpath, fun x hx n k hn hk => ?_, fun x hx n hn k hk => ?_, fun x hx n hn => ?_⟩
    · rcases (hagree.name n).mpr ⟨x, hx, hn⟩ with huse | huse
      · obtain ⟨w, -, hle⟩ := hpast _ huse
        refine hle.used k ?_
        rw [Use.run, useName.eq_def, hk]
        exact w.used_read k
      · exact .inr (hwrite n k huse hk)
    · exact hwrite n k ((hagree.write n).mpr (.inr ⟨x, hx, hn⟩)) hk
    · obtain ⟨w, huw, hle⟩ := hpast _ ((hagree.call n).mpr ⟨x, hx, hn⟩)
      exact ⟨w, log_eq_of_between huw (hgrows n w) hle hlog, hle⟩

def unvisited (shader : Shader) (path : List String) : List String :=
  (shader.methods.map Decl.name).filter (· ∉ path)

theorem length_unvisited_lt (hbody : bodyOf? shader name = some body) (hnew : name ∉ path) :
    (unvisited shader (name :: path)).length < (unvisited shader path).length :=
  length_filter_notMem_lt (mem_names_of_bodyOf? hbody) hnew

theorem length_unvisited_nil_lt (shader : Shader) : (unvisited shader []).length < shader.methods.length + 1 := by
  simp [unvisited]

theorem lt_of_lookup_streamIndex {vars : List StreamVar} {name : String} {k : Nat}
    (h : (streamIndex vars).lookup name = some k) : k < vars.length := by
  have hmem := mem_reverse.mp (mem_of_lookup h)
  obtain ⟨⟨v, i⟩, hv, heq⟩ := mem_map.mp hmem
  cases heq
  have hlt := (mem_zipIdx hv).2.1
  simpa using hlt

theorem tidy_usageOf {P Q : Nat → Prop} {entry : String}
    (hP : ∀ {n k}, (∃ x, InReach shader entry x ∧ x.ident? = some n) → streams.lookup n = some k → P k)
    (hQ : ∀ {n k}, (∃ x, InReach shader entry x ∧ x.ident? = some n) →
      (∃ x, InReach shader entry x ∧ n ∈ x.changes (methodParams shader)) → streams.lookup n = some k → Q k) :
    (usageOf shader streams entry).Tidy P Q := by
  refine walkMethod_keeps (fun hn hk h => h.read (hP hn hk)) (fun hn hc hk h => h.write (hQ hn hc hk))
    (fun _ _ _ _ h => ⟨h.1, h.2, h.3, h.4⟩) _ .refl (fun _ hp => absurd hp not_mem_nil) ?_
  exact ⟨nodup_nil, nodup_nil, fun _ hk => absurd hk not_mem_nil, fun _ hk => absurd hk not_mem_nil⟩

end

end Stream

end ShaderCompose
