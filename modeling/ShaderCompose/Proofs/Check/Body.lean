import Mathlib.Data.List.Infix
import ShaderCompose.Check.Body
import ShaderCompose.Proofs.Lang.Calls
import ShaderCompose.Proofs.Pairs

/-!
In a body without findings every call by name is to something that can be called.
-/

namespace ShaderCompose.Check

open List

def Local.bound : Local → Bound
  | .value => .value
  | .composition _ => .loop

def BodyState.bounds (s : BodyState) : Scope := s.scope.map fun e => (e.1, e.2.bound)

theorem BodyState.isBound_iff {s : BodyState} {name : String} :
    s.isBound name = true ↔ (s.bounds.lookup name).isSome = true := by
  have hlookup : s.bounds.lookup name = (s.scope.lookup name).map Local.bound :=
    lookup_map Function.injective_id Local.bound name s.scope
  rw [hlookup, Option.isSome_map]
  rfl

namespace BodyEnv

def CanCall (env : BodyEnv) (name : String) : Prop :=
  (env.table.method? name).isSome ∨ (builtinMember? env.builtins name).isSome ∨
    (intrinsicArity? name).isSome ∨ isNumericType name ∨ (env.table.structRef? name).isSome

/-- Without complaints, a call by name is to something that is bound or can be called. -/
structure Checks (env : BodyEnv) (s t : BodyState) (calls : List Callee) : Prop where
  scope : t.scope = s.scope
  log : s.log <+: t.log
  called : t.log.hasErrors = false → ∀ n, .name n ∈ calls → (s.bounds.lookup n).isSome ∨ env.CanCall n

section

variable {env : BodyEnv} {s t u : BodyState} {calls more : List Callee}

namespace Checks

theorem refl (s : BodyState) : env.Checks s s [] := ⟨rfl, prefix_refl _, fun _ _ h => by cases h⟩

theorem report (s : BodyState) (loc : Span) (message : Message) (calls : List Callee) :
    env.Checks s (s.report loc message) calls := by
  refine ⟨rfl, prefix_append _ _, fun hquiet => ?_⟩
  simp [BodyState.report, Log.hasErrors, Diagnostic.errorAt] at hquiet

theorem bounds (h : env.Checks s t calls) : t.bounds = s.bounds := by
  rw [BodyState.bounds, h.scope]
  rfl

theorem trans (h : env.Checks s t calls) (h' : env.Checks t u more) : env.Checks s u (calls ++ more) where
  scope := h'.scope.trans h.scope
  log := h.log.trans h'.log
  called hquiet n hn := by
    rcases mem_append.mp hn with hn | hn
    · exact h.called (Log.quiet_of_prefix h'.log hquiet) n hn
    · rw [← h.bounds]
      exact h'.called hquiet n hn

theorem mono (h : env.Checks s t calls) (hsub : ∀ n, .name n ∈ more → .name n ∈ calls) : env.Checks s t more :=
  ⟨h.scope, h.log, fun hquiet n hn => h.called hquiet n (hsub n hn)⟩

theorem call {name : String} (h : env.Checks s t [])
    (hname : (s.bounds.lookup name).isSome ∨ env.CanCall name) : env.Checks s t [.name name] := by
  refine ⟨h.scope, h.log, fun _ n hn => ?_⟩
  cases mem_singleton.mp hn
  exact hname

end Checks

variable (name : String)

theorem checkArity_checks (arity : Option (Nat × Nat)) (actual : Nat) (loc : Span)
    (s : BodyState) : env.Checks s (checkArity name arity actual loc s) [] := by
  unfold checkArity
  split
  · split
    · exact .report s _ _ []
    · exact .refl s
  · exact .refl s

theorem checkName_checks (loc : Span) (s : BodyState) :
    env.Checks s (env.checkName name loc s) [] := by
  unfold checkName
  split
  · exact .refl s
  · exact .report s _ _ []

theorem checkCall_checks (count : Nat) (loc : Span) (s : BodyState) :
    env.Checks s (env.checkCall name count loc s) [.name name] := by
  unfold checkCall
  split
  · next hbound => exact (Checks.refl s).call (.inl (BodyState.isBound_iff.mp hbound))
  · split
    · next slot hslot => exact (checkArity_checks ..).call (.inr (.inl (by simp [hslot])))
    · split
      · next hbuiltin =>
        exact (checkArity_checks ..).call (.inr (.inr (.inl (by simp [hbuiltin]))))
      · split
        · next hintrinsic =>
          exact (checkArity_checks ..).call (.inr (.inr (.inr (.inl (by simp [hintrinsic])))))
        · split
          · next hknown =>
            rw [Bool.or_eq_true] at hknown
            exact (Checks.refl s).call (.inr (.inr (.inr (.inr hknown))))
          · exact .report s _ _ _

theorem checkSlotMember_checks (composition : String) (type : TypeRef) (name : String)
    (count : Option Nat) (loc : Span) (s : BodyState) :
    env.Checks s (env.checkSlotMember composition type name count loc s) [] := by
  unfold checkSlotMember
  split
  · exact .refl s
  · split
    · exact checkArity_checks ..
    · exact .refl s
    · split
      · exact .refl s
      · exact .report s _ _ []

theorem checkBase_checks (count : Option Nat) (loc : Span) (s : BodyState) :
    env.Checks s (env.checkBase name count loc s) [] := by
  unfold checkBase
  split
  · exact .report s _ _ []
  · split
    · exact checkArity_checks ..
    · exact .refl s

variable {name : String} {loc l : Span} {target : Expr} {args : List Expr}

theorem checkSpecial?_checks {receiver : String} {count : Option Nat}
    (h : env.checkSpecial? receiver name count loc s = some t) : env.Checks s t [] := by
  unfold checkSpecial? at h
  split at h
  · split at h
    · cases h
      exact .refl s
    · cases h
      exact .report s _ _ _
  · cases h
    exact checkBase_checks ..
  · split at h
    · cases h
      exact (checkCall_checks ..).mono nofun
    · cases h
      exact checkName_checks ..
  · cases h

theorem checkMember?_checks {receiver : Expr} {indexed : Bool} {count : Option Nat}
    (h : env.checkMember? receiver indexed name count loc s = some t) :
    receiver.calls = [] ∧ env.Checks s t [] := by
  unfold checkMember? at h
  split at h
  · cases h
  · next subject hsubject =>
    refine ⟨Expr.calls_of_ident? hsubject, ?_⟩
    generalize hspecial : (if (indexed || s.isBound subject) = true then none
      else env.checkSpecial? subject name count loc s) = special at h
    cases special with
    | some special =>
      cases h
      split at hspecial
      · cases hspecial
      · exact checkSpecial?_checks hspecial
    | none =>
      obtain ⟨type, -, rfl⟩ := Option.map_eq_some_iff.mp h
      exact checkSlotMember_checks ..

theorem Checks.receiver (h : env.Checks s (env.checkExpr target s) target.calls) (indexed : Bool)
    (name : String) (count : Option Nat) (loc : Span) :
    env.Checks s ((env.checkMember? target indexed name count loc s).getD (env.checkExpr target s))
      target.calls := by
  cases hmember : env.checkMember? target indexed name count loc s with
  | some t =>
    obtain ⟨hnil, hchecks⟩ := checkMember?_checks hmember
    rw [hnil]
    exact hchecks
  | none => exact h

theorem checkExpr_member_index {position : Expr} (s : BodyState) :
    env.checkExpr (.member loc (.index l target position) name) s =
      ((env.checkMember? target true name none loc (env.checkExpr position s)).getD
        (env.checkExpr target (env.checkExpr position s))) := by
  simp only [checkExpr]
  split <;> simp_all

theorem checkExpr_member (s : BodyState) (h : ∀ l t p, target ≠ .index l t p) :
    env.checkExpr (.member loc target name) s =
      ((env.checkMember? target false name none loc s).getD (env.checkExpr target s)) := by
  cases target with
  | index l t p => exact absurd rfl (h l t p)
  | _ =>
    simp only [checkExpr]
    split <;> simp_all

theorem checkExpr_call_member_index {l' : Span} {position : Expr} (s : BodyState) :
    env.checkExpr (.call l (.member loc (.index l' target position) name) args) s =
      ((env.checkMember? target true name (some args.length) loc
          (env.checkExpr position (env.checkExprs args s))).getD
        (env.checkExpr target (env.checkExpr position (env.checkExprs args s)))) := by
  simp only [checkExpr]
  split <;> simp_all

theorem checkExpr_call_member (s : BodyState) (h : ∀ l t p, target ≠ .index l t p) :
    env.checkExpr (.call l (.member loc target name) args) s =
      ((env.checkMember? target false name (some args.length) loc (env.checkExprs args s)).getD
        (env.checkExpr target (env.checkExprs args s))) := by
  cases target with
  | index l t p => exact absurd rfl (h l t p)
  | _ =>
    simp only [checkExpr]
    split <;> simp_all

theorem checkExpr_call {callee : Expr} (s : BodyState) (h : callee.callee? = none) :
    env.checkExpr (.call l callee args) s = env.checkExpr callee (env.checkExprs args s) := by
  cases callee with
  | ident => cases h
  | member => cases h
  | _ => simp only [checkExpr]

mutual

theorem checkExpr_checks (e : Expr) (s : BodyState) : env.Checks s (env.checkExpr e s) e.calls := by
  match e with
  | .literal .. =>
    exact .refl s
  | .ident loc name =>
    exact checkName_checks name loc s
  | .member loc target name =>
    by_cases hindex : ∃ l t p, target = .index l t p
    · obtain ⟨l, t, p, rfl⟩ := hindex
      rw [checkExpr_member_index]
      refine ((checkExpr_checks p s).trans ((checkExpr_checks t _).receiver true name none loc)).mono ?_
      simp [Expr.calls, or_comm]
    · rw [checkExpr_member s fun l t p h => hindex ⟨l, t, p, h⟩]
      exact (checkExpr_checks target s).receiver false name none loc
  | .call l callee args =>
    have hargs := checkExprs_checks args s
    cases hcallee : callee.callee? with
    | none =>
      rw [checkExpr_call s hcallee]
      refine (hargs.trans (checkExpr_checks callee _)).mono ?_
      simp [Expr.calls, hcallee, or_comm]
    | some c =>
      match callee with
      | .ident loc name =>
        refine (hargs.trans (checkCall_checks name args.length loc _)).mono ?_
        simp [Expr.calls, Expr.callee?, or_comm]
      | .member loc target name =>
        by_cases hindex : ∃ l t p, target = .index l t p
        · obtain ⟨l', t, p, rfl⟩ := hindex
          rw [checkExpr_call_member_index]
          refine ((hargs.trans (checkExpr_checks p _)).trans
            ((checkExpr_checks t _).receiver true name _ loc)).mono ?_
          simp only [Expr.calls, mem_append]
          tauto
        · rw [checkExpr_call_member s fun l t p h => hindex ⟨l, t, p, h⟩]
          refine (hargs.trans ((checkExpr_checks target _).receiver false name _ loc)).mono ?_
          simp [Expr.calls, Expr.callee?, or_comm]
  | .index _ lhs rhs | .assign _ _ lhs rhs | .binary _ _ lhs rhs =>
    exact (checkExpr_checks lhs s).trans (checkExpr_checks rhs _)
  | .unary l op operand =>
    exact checkExpr_checks operand s
  | .ternary l condition yes no =>
    refine (checkExpr_checks condition s).trans ?_
    exact (checkExpr_checks yes _).trans (checkExpr_checks no _)
  | .list l items =>
    exact checkExprs_checks items s

theorem checkExprs_checks (es : List Expr) (s : BodyState) :
    env.Checks s (env.checkExprs es s) (Expr.callsAll es) := by
  match es with
  | [] =>
    exact .refl s
  | e :: es =>
    exact (checkExpr_checks e s).trans (checkExprs_checks es _)

end

def Clears (env : BodyEnv) (spot : Spot) : Prop :=
  spot.isAside = false → ∀ n, .name n ∈ spot.expr.calls → (spot.scope.lookup n).isSome ∨ env.CanCall n

/-- Without complaints, the given spots are clear. -/
structure Passes (env : BodyEnv) (s t : BodyState) (binds : Scope) (spots : List Spot) : Prop where
  bounds : t.bounds = binds ++ s.bounds
  log : s.log <+: t.log
  clears : t.log.hasErrors = false → ∀ spot ∈ spots, env.Clears spot

variable {binds binds' : Scope} {spots spots' : List Spot}

namespace Passes

theorem refl (s : BodyState) : env.Passes s s [] [] := ⟨rfl, prefix_refl _, fun _ => forall_mem_nil _⟩

theorem trans (h : env.Passes s t binds spots) (h' : env.Passes t u binds' spots') :
    env.Passes s u (binds' ++ binds) (spots ++ spots') where
  bounds := by rw [h'.bounds, h.bounds, append_assoc]
  log := h.log.trans h'.log
  clears hquiet := forall_mem_append.mpr ⟨h.clears (Log.quiet_of_prefix h'.log hquiet), h'.clears hquiet⟩

theorem aside (h : env.Passes s t binds spots) {more : List Spot} (hmore : ∀ spot ∈ more, spot.isAside = true) :
    env.Passes s t binds (more ++ spots) := by
  refine ⟨h.bounds, h.log, fun hquiet => forall_mem_append.mpr ⟨fun spot hspot haside => ?_, h.clears hquiet⟩⟩
  rw [hmore spot hspot] at haside
  cases haside

theorem lead (h : env.Passes s t binds spots) (l : Lead) (scope : Scope) :
    env.Passes s t binds (l.spots scope ++ spots) := by
  refine h.aside fun spot hspot => ?_
  obtain ⟨a, -, hspot⟩ := mem_flatMap.mp hspot
  obtain ⟨e, -, rfl⟩ := mem_map.mp hspot
  rfl

theorem within (step : BodyState → BodyState) (binds : Scope) (h : env.Passes s (step s) binds spots) :
    env.Passes s (s.within step) [] spots :=
  ⟨rfl, h.log, h.clears⟩

theorem declare (s : BodyState) (name : String) (what : Local) :
    env.Passes s (s.declare name what) [(name, what.bound)] [] :=
  ⟨rfl, prefix_refl _, fun _ => forall_mem_nil _⟩

theorem expr (e : Expr) (s : BodyState) : env.Passes s (env.checkExpr e s) [] [⟨s.bounds, false, e⟩] := by
  have h : env.Checks s _ e.calls := checkExpr_checks e s
  exact ⟨h.bounds, h.log, fun hquiet => forall_mem_singleton.mpr fun _ => h.called hquiet⟩

theorem option (e : Option Expr) (s : BodyState) :
    env.Passes s (env.checkOption e s) [] (Spot.ofOption s.bounds e) := by
  cases e with
  | none => exact .refl s
  | some e => exact .expr e s

theorem simple (what : Simple) (s : BodyState) :
    env.Passes s (env.checkSimple what s) what.binds (what.spots s.bounds) := by
  cases what with
  | declare quals type name init =>
    have hinit : env.Passes s _ [] _ := .option init s
    have h := hinit.trans (.declare _ name .value)
    rw [append_nil, append_nil] at h
    refine h.aside fun spot hspot => ?_
    unfold TypeRef.spots at hspot
    split at hspot
    · rw [mem_singleton.mp hspot]
    · cases hspot
  | expr value => exact .expr value s

theorem ret (loc : Span) (value : Option Expr) (s : BodyState) :
    env.Passes s (env.checkReturn loc value s) [] [] := by
  have report : ∀ message, env.Passes s (s.report loc message) [] [] := fun message =>
    ⟨rfl, prefix_append _ _, fun _ => forall_mem_nil _⟩
  unfold checkReturn
  split
  · exact report _
  · exact report _
  · exact .refl s

theorem loopVariable (env : BodyEnv) (collection : Expr) (s : BodyState) :
    env.Passes s (env.loopVariable collection s).2 [] [⟨s.bounds, false, collection⟩] ∧
      ((env.loopVariable collection s).2.log.hasErrors = false →
        (env.loopVariable collection s).1.bound = .loop) := by
  unfold BodyEnv.loopVariable
  split
  · next type htype =>
    refine ⟨⟨rfl, prefix_refl _, fun _ => forall_mem_singleton.mpr fun _ n hn => ?_⟩, fun _ => rfl⟩
    obtain ⟨name, hname, -⟩ := Option.bind_eq_some_iff.mp (Option.filter_eq_some_iff.mp htype).1
    rw [Expr.calls_of_ident? hname] at hn
    cases hn
  · have hloud : ¬ (s.report collection.loc (.invalidForEach (describe collection))).log.hasErrors = false := by
      simp [BodyState.report, Log.hasErrors, Diagnostic.errorAt]
    exact ⟨⟨rfl, prefix_append _ _, fun hquiet => absurd hquiet hloud⟩, fun hquiet => absurd hquiet hloud⟩

end Passes

mutual

theorem checkStmt_passes (st : Stmt) (s : BodyState) :
    env.Passes s (env.checkStmt st s) st.binds (st.spots s.bounds) := by
  match st with
  | .block l body =>
    exact Passes.lead (.within _ _ (checkStmts_passes body s)) l s.bounds
  | .simple l what =>
    exact (Passes.simple what s).lead l s.bounds
  | .ret l value =>
    have hret : env.Passes s _ [] _ := .ret l.loc value s
    have h := hret.trans (.option value _)
    rw [hret.bounds] at h
    exact h.lead l s.bounds
  | .ifThen l condition body | .whileLoop l condition body =>
    have hcondition : env.Passes s _ [] _ := .expr condition s
    have h := hcondition.trans (checkStmt_passes body _)
    rw [hcondition.bounds, append_nil] at h
    exact h.lead l s.bounds
  | .ifElse l condition yes no =>
    have hcondition : env.Passes s _ [] _ := .expr condition s
    have hyes := checkStmt_passes yes (env.checkExpr condition s)
    have h := hcondition.trans (hyes.trans (checkStmt_passes no _))
    rw [hyes.bounds, hcondition.bounds, append_nil] at h
    exact h.lead l s.bounds
  | .forLoop l init condition step body =>
    refine Passes.lead (.within _ (body.binds ++ Simple.bindsIn init) ?_) l s.bounds
    have rest : ∀ t, env.Passes s t (Simple.bindsIn init) (Simple.spotsIn s.bounds init) →
        env.Passes s (env.checkStmt body (env.checkOption step (env.checkOption condition t)))
          (body.binds ++ Simple.bindsIn init) (Simple.spotsIn s.bounds init ++
            (Spot.ofOption (Simple.bindsIn init ++ s.bounds) condition ++
              (Spot.ofOption (Simple.bindsIn init ++ s.bounds) step ++
                body.spots (Simple.bindsIn init ++ s.bounds)))) := by
      intro t hstart
      have hcondition : env.Passes t _ [] _ := .option condition t
      have hstep : env.Passes _ _ [] _ := .option step (env.checkOption condition t)
      have h := hstart.trans (hcondition.trans (hstep.trans (checkStmt_passes body _)))
      rw [hstep.bounds, hcondition.bounds, hstart.bounds] at h
      simpa only [append_nil, nil_append] using h
    cases init with
    | none => exact rest s (.refl s)
    | some init => exact rest _ (.simple init.2 s)
  | .forEach l name collection body =>
    rw [checkStmt]
    obtain ⟨hcollection, hloop⟩ := Passes.loopVariable env collection s
    generalize env.loopVariable collection s = found at hcollection hloop ⊢
    obtain ⟨what, t⟩ := found
    have hdeclare : env.Passes t _ [(name, what.bound)] [] := .declare t name what
    have hbody := hdeclare.trans (checkStmt_passes body _)
    have h := hcollection.trans (.within (fun s => env.checkStmt body (s.declare name what)) _ hbody)
    refine Passes.lead ⟨h.bounds, h.log, fun hquiet => ?_⟩ l s.bounds
    have hspots := h.clears hquiet
    have hwhat := hloop (Log.quiet_of_prefix hbody.log hquiet)
    rw [hdeclare.bounds, hcollection.bounds, hwhat] at hspots
    exact hspots
  | .breakLoop l | .continueLoop l | .discard l | .empty l =>
    have h : env.Passes s s [] _ := (Passes.refl s).lead l s.bounds
    rwa [append_nil] at h

theorem checkStmts_passes (sts : List Stmt) (s : BodyState) :
    env.Passes s (env.checkStmts sts s) (Stmt.bindsAll sts) (Stmt.spotsAll s.bounds sts) := by
  match sts with
  | [] =>
    exact .refl s
  | st :: sts =>
    have hst := checkStmt_passes st s
    have h := hst.trans (checkStmts_passes sts _)
    rw [hst.bounds] at h
    exact h

end

end

end BodyEnv

theorem bounds_params (params : List Param) (s : BodyState) :
    (params.foldl (fun s p => s.declare p.name .value) s).bounds = Param.scope params ++ s.bounds := by
  induction params generalizing s with
  | nil => rfl
  | cons p params ih =>
    rw [foldl_cons, ih]
    simp [Param.scope, BodyState.bounds, BodyState.declare, Local.bound]

theorem clears_of_methodLog {context : Context} {table : MemberTable} {d : Decl}
    (h : (methodLog context table d).hasErrors = false) :
    ∃ env : BodyEnv, env.builtins = context.builtins ∧ env.table = table ∧
      ∀ spot ∈ d.spots, env.Clears spot := by
  unfold methodLog at h
  split at h
  · next returns params semantic body hkind =>
    refine ⟨⟨context.slotTable?, context.builtins, table, d.name, !returns.isVoid⟩, rfl, rfl, ?_⟩
    have hclears := (BodyEnv.checkStmts_passes body _).clears h
    rw [bounds_params] at hclears
    rw [Decl.spots, hkind, DeclKind.spots_method (append_nil _).symm]
    exact hclears
  · next hother =>
    refine ⟨⟨context.slotTable?, context.builtins, table, d.name, true⟩, rfl, rfl, ?_⟩
    rw [Decl.spots, DeclKind.spots_eq_nil hother]
    exact forall_mem_nil _

end ShaderCompose.Check
