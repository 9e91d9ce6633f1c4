import ShaderCompose.Proofs.Lang.Calls
import ShaderCompose.Proofs.Mix.Noted
import ShaderCompose.Proofs.Pairs

/-!
The calls in a renamed declaration.
-/

namespace ShaderCompose.Mix

open List

inductive Becomes (env : RenameEnv) (scope : Scope) (noted : List BuiltinRef) : Callee → String → Prop
  | bound {n : String} : (scope.lookup n).isSome = true → Becomes env scope noted (.name n) n
  | kept {n : String} : scope.lookup n = none → (env.instance?.bind fun i => i.names.member? n) = none →
      (∀ ref, builtinMember? env.builtins n = some ref → ref ∈ noted) →
      Becomes env scope noted (.name n) n
  | own {i : MixInstance} {called n : String} : env.instance? = some i → i.names.member? called = some n →
      Becomes env scope noted (.name called) n
  | member {i : MixInstance} {receiver : Option String} {called n : String} : env.instance?.isSome = true →
      i ∈ env.instances → i.names.member? called = some n → Becomes env scope noted (.member receiver called) n
  | base {place : Place} {inst : MixInstance} {called n : String} : env.place = some place →
      env.instances[place.number]? = some inst → RenameEnv.baseMember? inst place.cls called = some n →
      Becomes env scope noted (.member (some "base") called) n
  | stream {called n : String} : env.instance?.isSome = true →
      Becomes env scope noted (.member (some "streams") called) n

theorem Becomes.mono {env : RenameEnv} {scope : Scope} {noted more : List BuiltinRef} {c : Callee}
    {n : String} (h : Becomes env scope noted c n) (hsub : noted ⊆ more) : Becomes env scope more c n := by
  cases h with
  | bound hbound => exact .bound hbound
  | kept hfree hmember hnoted => exact .kept hfree hmember fun ref href => hsub (hnoted ref href)
  | own hi hmember => exact .own hi hmember
  | member hplaced hi hmember => exact .member hplaced hi hmember
  | base hplace hinst hbase => exact .base hplace hinst hbase
  | stream hplaced => exact .stream hplaced

def Bounded (bound : List (String × Binding)) (scope : Scope) : Prop :=
  ∀ n, (bound.lookup n).isSome = true → (scope.lookup n).isSome = true

section

variable {env : RenameEnv} {scope : Scope}

theorem instance_mem {i : MixInstance} (h : env.instance? = some i) : i ∈ env.instances := by
  obtain ⟨place, -, hi⟩ := Option.bind_eq_some_iff.mp h
  exact mem_of_getElem? hi

theorem resolveName_some {name renamed : String} {s : RenameState} (h : (env.resolveName name s).1 = some renamed) :
    ∃ i, env.instance? = some i ∧ i.names.member? name = some renamed := by
  unfold RenameEnv.resolveName at h
  split at h
  · cases h
  · split at h
    · next found hfound =>
      cases h
      exact Option.bind_eq_some_iff.mp hfound
    · split at h <;> cases h

theorem resolveName_none {name : String} {s : RenameState} (hscope : Bounded s.scope scope)
    (h : (env.resolveName name s).1 = none) :
    Becomes env scope (env.resolveName name s).2.builtins (.name name) name := by
  unfold RenameEnv.resolveName at h ⊢
  split at h
  · next hbound => exact .bound (hscope name hbound)
  · next hfree =>
    rw [if_neg hfree]
    split at h
    · cases h
    · next hmember =>
      cases hlookup : scope.lookup name with
      | some b => exact .bound (by simp [hlookup])
      | none =>
        refine .kept hlookup hmember fun ref href => ?_
        simp [href]

theorem composedMember_some {target : Expr} {name renamed : String} {loc : Span} {s : RenameState}
    (h : (env.composedMember target name loc s).1 = some renamed) :
    ∃ i ∈ env.instances, i.names.member? name = some renamed := by
  simp only [RenameEnv.composedMember, bind, StateT.bind] at h
  generalize env.composedInstance target loc s = found at h
  obtain ⟨number, t⟩ := found
  cases number with
  | none => cases h
  | some number =>
    obtain ⟨i, hi, hmember⟩ := Option.bind_eq_some_iff.mp h
    exact ⟨i, mem_of_getElem? hi, hmember⟩

theorem resolveMember_some {target : Expr} {name renamed : String} {loc : Span} {s : RenameState}
    {noted : List BuiltinRef} (h : (env.resolveMember target name loc s).1 = some renamed) :
    Becomes env scope noted (.member target.ident? name) renamed := by
  unfold RenameEnv.resolveMember at h
  split at h
  · next place inst hplace hinst =>
    have hplaced : env.instance?.isSome = true := by rw [hinst]; rfl
    have member : (∃ i ∈ env.instances, i.names.member? name = some renamed) →
        Becomes env scope noted (.member target.ident? name) renamed := by
      rintro ⟨i, hi, hmember⟩
      exact .member hplaced hi hmember
    split at h
    · exact member (composedMember_some h)
    · next subject hsubject =>
      rw [hsubject] at member ⊢
      split at h
      · cases h
      · split at h
        · exact .stream hplaced
        · obtain ⟨i, hi, hmember⟩ := resolveName_some h
          exact member ⟨i, instance_mem hi, hmember⟩
        · obtain ⟨p, hp, hget⟩ := Option.bind_eq_some_iff.mp hinst
          cases hplace.symm.trans hp
          exact .base hplace hget h
        · exact member (composedMember_some h)
  · cases h

/-- An expression is renamed, and its calls with it. -/
structure Turns (env : RenameEnv) (s t : RenameState) (calls calls' : List Callee) : Prop where
  same : t.scope = s.scope
  noted : Noting env.builtins s.builtins t.builtins
  calls {scope : Scope} : Bounded s.scope scope → ∀ n, .name n ∈ calls' → ∃ c ∈ calls, Becomes env scope t.builtins c n

namespace Turns

variable {s t u : RenameState} {calls calls' more more' : List Callee}

theorem of_looks (h : Looks env.builtins s t) : Turns env s t calls [] := ⟨h.scope, h.toNoting, fun _ => nofun⟩

theorem trans (h : Turns env s t calls calls') (h' : Turns env t u more more') :
    Turns env s u (calls ++ more) (calls' ++ more') where
  same := h'.same.trans h.same
  noted := h.noted.trans h'.noted
  calls hscope n hn := by
    rcases mem_append.mp hn with hn | hn
    · obtain ⟨c, hc, hbecomes⟩ := h.calls hscope n hn
      exact ⟨c, mem_append_left _ hc, hbecomes.mono h'.noted.old⟩
    · obtain ⟨c, hc, hbecomes⟩ := h'.calls (h.same ▸ hscope) n hn
      exact ⟨c, mem_append_right _ hc, hbecomes⟩

end Turns

theorem callee?_expr {callee : Expr} {s : RenameState} (hscope : Bounded s.scope scope) {n : String}
    (h : (env.expr callee s).1.callee? = some (.name n)) :
    ∃ c, callee.callee? = some c ∧ Becomes env scope (env.expr callee s).2.builtins c n := by
  cases callee with
  | ident loc name =>
    refine ⟨_, rfl, ?_⟩
    have hnone := @resolveName_none env scope name s hscope
    have hsome := fun renamed => @resolveName_some env name renamed s
    simp only [RenameEnv.expr, bind, StateT.bind] at h ⊢
    generalize env.resolveName name s = found at h hnone hsome ⊢
    obtain ⟨renamed, t⟩ := found
    cases renamed with
    | none =>
      cases h
      exact hnone rfl
    | some renamed =>
      cases h
      obtain ⟨i, hi, hmember⟩ := hsome n rfl
      exact .own hi hmember
  | member loc target name =>
    refine ⟨_, rfl, ?_⟩
    have hsome := fun renamed noted => @resolveMember_some env scope target name renamed loc s noted
    simp only [RenameEnv.expr, bind, StateT.bind] at h ⊢
    generalize env.resolveMember target name loc s = found at h hsome ⊢
    obtain ⟨renamed, t⟩ := found
    cases renamed with
    | none => cases h
    | some renamed =>
      cases h
      exact hsome n _ rfl
  | _ =>
    cases h

mutual

theorem expr_turns (env : RenameEnv) (e : Expr) (s : RenameState) :
    Turns env s (env.expr e s).2 e.calls (env.expr e s).1.calls := by
  match e with
  | .literal loc value => exact .of_looks (.same rfl rfl)
  | .ident loc name =>
    have hlooks := resolveName_looks env name s
    simp only [RenameEnv.expr, bind, StateT.bind]
    generalize env.resolveName name s = found at hlooks ⊢
    obtain ⟨renamed, t⟩ := found
    cases renamed <;> exact .of_looks hlooks
  | .member loc target name =>
    have hlooks := resolveMember_looks env target name loc s
    have ih := expr_turns env target
    simp only [RenameEnv.expr, bind, StateT.bind]
    generalize env.resolveMember target name loc s = found at hlooks ⊢
    obtain ⟨renamed, t⟩ := found
    cases renamed with
    | none =>
      have hfirst : Turns env s t [] [] := .of_looks hlooks
      exact hfirst.trans (ih t)
    | some renamed => exact .of_looks hlooks
  | .call loc callee args =>
    have hargs := exprs_turns env args (env.expr callee s).2
    have hboth := (expr_turns env callee s).trans hargs
    refine ⟨hboth.same, hboth.noted, fun hscope n hn => ?_⟩
    rcases mem_append.mp hn with hn | hn
    · have hname : (env.expr callee s).1.callee? = some (.name n) := by simpa using hn
      obtain ⟨c, hc, hbecomes⟩ := callee?_expr hscope hname
      exact ⟨c, mem_append_left _ (by simp [hc]), hbecomes.mono hargs.noted.old⟩
    · obtain ⟨c, hc, hbecomes⟩ := hboth.calls hscope n hn
      exact ⟨c, mem_append_right _ hc, hbecomes⟩
  | .index _ lhs rhs | .assign _ _ lhs rhs | .binary _ _ lhs rhs =>
    exact (expr_turns env lhs s).trans (expr_turns env rhs _)
  | .unary loc op operand => exact expr_turns env operand s
  | .ternary loc condition yes no =>
    exact (expr_turns env condition s).trans ((expr_turns env yes _).trans (expr_turns env no _))
  | .list loc items => exact exprs_turns env items s

theorem exprs_turns (env : RenameEnv) (es : List Expr) (s : RenameState) :
    Turns env s (env.exprs es s).2 (Expr.callsAll es) (Expr.callsAll (env.exprs es s).1) := by
  match es with
  | [] => exact .of_looks (.same rfl rfl)
  | e :: es => exact (expr_turns env e s).trans (exprs_turns env es _)

end

end

def Binding.bound : Binding → Bound
  | .plain => .value
  | .composed _ => .loop

namespace RenameState

def bounds (s : RenameState) : Scope := s.scope.map fun e => (e.1, e.2.bound)

theorem lookup_bounds (s : RenameState) (name : String) :
    s.bounds.lookup name = (s.binding? name).map Binding.bound :=
  lookup_map Function.injective_id Binding.bound name s.scope

end RenameState

def Extends (s t : RenameState) (binds : Scope) : Prop :=
  ∃ more : List (String × Binding), t.scope = more ++ s.scope ∧ more.map (fun e => (e.1, e.2.bound)) = binds

namespace Extends

variable {s t u : RenameState} {binds more : Scope}

theorem of_scope (h : t.scope = s.scope) : Extends s t [] := ⟨[], h, rfl⟩

theorem declare (s : RenameState) (name : String) (b : Binding) :
    Extends s (s.declare name b) [(name, b.bound)] := ⟨[(name, b)], rfl, rfl⟩

theorem trans (h : Extends s t binds) (h' : Extends t u more) : Extends s u (more ++ binds) := by
  obtain ⟨first, hfirst, rfl⟩ := h
  obtain ⟨second, hsecond, rfl⟩ := h'
  exact ⟨second ++ first, by rw [hsecond, hfirst, append_assoc], map_append⟩

theorem next (h : Extends s t []) (h' : Extends t u binds) : Extends s u binds := append_nil binds ▸ h.trans h'

theorem bounds (h : Extends s t binds) : t.bounds = binds ++ s.bounds := by
  obtain ⟨more, hmore, rfl⟩ := h
  rw [RenameState.bounds, hmore, map_append]
  rfl

theorem binding? (h : Extends s t binds) {name : String} (hname : binds.lookup name = none) :
    t.binding? name = s.binding? name := by
  obtain ⟨more, hmore, rfl⟩ := h
  have hlookup := lookup_map Function.injective_id Binding.bound name more
  have hnone : more.lookup name = none := Option.map_eq_none_iff.mp (hlookup.symm.trans hname)
  rw [RenameState.binding?, hmore, lookup_append, hnone]
  rfl

end Extends

/-- The values bound around a spot stay bound. -/
structure Follows (bound : List (String × Binding)) (source target : Scope) : Prop where
  bounded : Bounded bound source
  covers : ∀ n, source.lookup n = some .value → (target.lookup n).isSome = true

/-- A spot of a renamed body comes from a spot of the body. -/
structure Arises (env : RenameEnv) (noted : List BuiltinRef) (spot spot' : Spot) : Prop where
  aside : spot'.isAside = spot.isAside
  covers : ∀ n, spot.scope.lookup n = some .value → (spot'.scope.lookup n).isSome = true
  calls : ∀ n, .name n ∈ spot'.expr.calls →
    ∃ c ∈ spot.expr.calls, spot.isAside = true ∨ Becomes env spot.scope noted c n

/-- A part of a body is renamed, and its spots with it. -/
structure Step (env : RenameEnv) (binds : Scope) (spots spots' : Scope → List Spot) (s t : RenameState) : Prop where
  extended : Extends s t binds
  noted : Noting env.builtins s.builtins t.builtins
  arises {source target : Scope} : Follows s.scope source target →
    ∀ spot' ∈ spots' target, ∃ spot ∈ spots source, Arises env t.builtins spot spot'

section

variable {env : RenameEnv} {source target : Scope} {bound : List (String × Binding)}

theorem isSome_lookup_append {more scope : Scope} {n : String} (h : (scope.lookup n).isSome = true) :
    ((more ++ scope).lookup n).isSome = true := by
  rw [lookup_append]
  cases more.lookup n with
  | none => exact h
  | some b => rfl

theorem Bounded.cons {name : String} {b : Binding} {b' : Bound} (h : Bounded bound source) :
    Bounded ((name, b) :: bound) ((name, b') :: source) := by
  intro n hn
  rw [lookup_cons] at hn ⊢
  cases hname : n == name with
  | true => rfl
  | false =>
    rw [hname] at hn
    exact h n hn

namespace Follows

theorem extend {s t : RenameState} {binds : Scope} (h : Follows s.scope source target) (hbinds : Extends s t binds) :
    Follows t.scope (binds ++ source) (binds ++ target) := by
  obtain ⟨more, hmore, rfl⟩ := hbinds
  rw [hmore]
  constructor
  · intro n hn
    have hlookup : (more.map fun e => (e.1, e.2.bound)).lookup n = (more.lookup n).map Binding.bound :=
      lookup_map Function.injective_id Binding.bound n more
    simp only [lookup_append, hlookup, Option.isSome_or, Option.isSome_map, Bool.or_eq_true] at hn ⊢
    exact hn.imp_right (h.bounded n)
  · intro n hn
    rw [lookup_append] at hn ⊢
    cases hbound : (more.map fun e => (e.1, e.2.bound)).lookup n with
    | some b => rfl
    | none =>
      rw [hbound] at hn
      exact h.covers n hn

theorem loop (h : Follows bound source target) (name : String) (number : Nat) :
    Follows ((name, .composed number) :: bound) ((name, .loop) :: source) target := by
  constructor
  · exact h.bounded.cons
  · intro n hn
    rw [lookup_cons] at hn
    cases hname : n == name with
    | true =>
      rw [hname] at hn
      cases hn
    | false =>
      rw [hname] at hn
      exact h.covers n hn

theorem wider (h : Follows bound source target) (more : Scope) : Follows bound source (more ++ target) :=
  ⟨h.bounded, fun n hn => isSome_lookup_append (h.covers n hn)⟩

end Follows

theorem Arises.mono {noted more : List BuiltinRef} {spot spot' : Spot} (h : Arises env noted spot spot')
    (hsub : noted ⊆ more) : Arises env more spot spot' := by
  refine ⟨h.aside, h.covers, fun n hn => ?_⟩
  obtain ⟨c, hc, hbecomes⟩ := h.calls n hn
  exact ⟨c, hc, hbecomes.imp_right fun hbecomes => hbecomes.mono hsub⟩

namespace Step

variable {s t u : RenameState} {binds more : Scope} {spots spots' others others' : Scope → List Spot}

theorem refl (spots : Scope → List Spot) (s : RenameState) : Step env [] spots (fun _ => []) s s :=
  ⟨.of_scope rfl, .refl _ _, fun _ => forall_mem_nil _⟩

theorem trans (h : Step env binds spots spots' s t) (h' : Step env more others others' t u) :
    Step env (more ++ binds) (fun scope => spots scope ++ others (binds ++ scope))
      (fun scope => spots' scope ++ others' (binds ++ scope)) s u where
  extended := h.extended.trans h'.extended
  noted := h.noted.trans h'.noted
  arises hfollows spot' hspot' := by
    rcases mem_append.mp hspot' with hspot' | hspot'
    · obtain ⟨spot, hspot, harises⟩ := h.arises hfollows spot' hspot'
      exact ⟨spot, mem_append_left _ hspot, harises.mono h'.noted.old⟩
    · obtain ⟨spot, hspot, harises⟩ := h'.arises (hfollows.extend h.extended) spot' hspot'
      exact ⟨spot, mem_append_right _ hspot, harises⟩

theorem next (h : Step env [] spots spots' s t) (h' : Step env more others others' t u) :
    Step env more (fun scope => spots scope ++ others scope) (fun scope => spots' scope ++ others' scope) s u := by
  have hall := h.trans h'
  rwa [append_nil] at hall

theorem forget (h : Step env binds spots spots' s t) : Step env [] spots spots' s { t with scope := s.scope } :=
  ⟨.of_scope rfl, h.noted, h.arises⟩

theorem told (h : Step env binds spots spots' s t) (hspots : ∀ scope, others' scope = spots' scope) :
    Step env binds spots others' s t :=
  funext hspots ▸ h

variable (env)

theorem expr (e : Expr) (aside : Bool) (s : RenameState) :
    Step env [] (fun scope => [⟨scope, aside, e⟩]) (fun scope => [⟨scope, aside, (env.expr e s).1⟩]) s
      (env.expr e s).2 := by
  have hturns := expr_turns env e s
  refine ⟨.of_scope hturns.same, hturns.noted, fun hfollows => ?_⟩
  refine forall_mem_singleton.mpr ⟨_, mem_singleton_self _, rfl, hfollows.covers, fun n hn => ?_⟩
  obtain ⟨c, hc, hbecomes⟩ := hturns.calls hfollows.bounded n hn
  exact ⟨c, hc, .inr hbecomes⟩

theorem asides (es : List Expr) (s : RenameState) : Step env [] (fun scope => es.map fun e => ⟨scope, true, e⟩)
    (fun scope => (env.exprs es s).1.map fun e => ⟨scope, true, e⟩) s (env.exprs es s).2 := by
  induction es generalizing s with
  | nil => exact .refl _ s
  | cons e es ih => exact (Step.expr env e true s).next (ih _)

theorem lead (l : Lead) (s : RenameState) : Step env [] l.spots (env.lead l s).1.spots s (env.lead l s).2 := by
  obtain ⟨loc, as⟩ := l
  induction as generalizing s with
  | nil => exact .refl _ s
  | cons a as ih =>
    have hattrs : env.attrs (a :: as) = do
        let a ← (do return { a with args := ← env.exprs a.args } : Rename Attribute)
        return a :: (← env.attrs as) := mapM_cons
    rw [RenameEnv.lead, hattrs]
    exact (Step.asides env a.args s).next (ih _)

theorem option (e : Option Expr) (s : RenameState) :
    Step env [] (Spot.ofOption · e) (Spot.ofOption · (env.option e s).1) s (env.option e s).2 := by
  cases e with
  | none => exact .refl _ s
  | some e => exact .expr env e false s

theorem type (t : TypeRef) (s : RenameState) : Step env [] t.spots (env.type t s).1.spots s (env.type t s).2 := by
  obtain ⟨name, args, array⟩ := t
  cases array with
  | none => exact .refl _ s
  | some size =>
    cases size with
    | fixed size => exact .expr env size true s
    | _ => exact .refl _ s

theorem simple (what : Simple) (s : RenameState) :
    Step env what.binds what.spots (env.simple what s).1.spots s (env.simple what s).2 := by
  cases what with
  | declare quals t name init =>
    have hboth := (Step.type env t s).next (.option env init _)
    exact ⟨hboth.extended.next (.declare _ name .plain), hboth.noted, hboth.arises⟩
  | expr value => exact .expr env value false s

theorem start (init : Option (Span × Simple)) (s : RenameState) : Step env (Simple.bindsIn init)
    (Simple.spotsIn · init) (Simple.spotsIn · (env.loopStart init s).1) s (env.loopStart init s).2 := by
  cases init with
  | none => exact .refl _ s
  | some init => exact .simple env init.2 s

end Step

theorem start_binds (env : RenameEnv) (init : Option (Span × Simple)) (s : RenameState) :
    Simple.bindsIn (env.loopStart init s).1 = Simple.bindsIn init := by
  obtain - | ⟨loc, what⟩ := init
  · rfl
  · cases what <;> rfl

theorem stmt_binds (env : RenameEnv) (st : Stmt) (s : RenameState) : (env.stmt st s).1.binds = st.binds := by
  match st with
  | .simple l what => cases what <;> rfl
  | .ifThen l condition body | .whileLoop l condition body => exact stmt_binds env body _
  | .ifElse l condition yes no =>
    change Stmt.binds _ ++ Stmt.binds _ = _
    rw [stmt_binds env no, stmt_binds env yes]
    rfl
  | .block .. | .ret .. | .forLoop .. | .forEach .. | .breakLoop _ | .continueLoop _ | .discard _ | .empty _ => rfl

theorem lead_arises (env : RenameEnv) (l : Lead) {noted : List BuiltinRef}
    (h : ∀ n, source.lookup n = some .value → (target.lookup n).isSome = true) :
    ∀ spot' ∈ l.spots target, ∃ spot ∈ l.spots source, Arises env noted spot spot' := by
  intro spot' hspot'
  obtain ⟨a, ha, hspot'⟩ := mem_flatMap.mp hspot'
  obtain ⟨e, he, rfl⟩ := mem_map.mp hspot'
  refine ⟨⟨source, true, e⟩, mem_flatMap.mpr ⟨a, ha, mem_map_of_mem he⟩, rfl, h, fun n hn => ?_⟩
  exact ⟨_, hn, .inl rfl⟩

theorem copies_step {body : Stmt} (h : ∀ s, Step env body.binds body.spots (env.stmt body s).1.spots s (env.stmt body s).2)
    (name : String) (targets : List Nat) (s : RenameState) :
    let copies := (targets.mapM fun number => Rename.within [(name, .composed number)] (env.stmt body)) s
    Step env [] (fun scope => body.spots ((name, .loop) :: scope)) (Stmt.spotsAll · copies.1) s copies.2 := by
  induction targets generalizing s with
  | nil => exact .refl _ s
  | cons number targets ih =>
    rw [mapM_cons]
    have hfirst := h (s.declare name (.composed number))
    have hrest := ih { (env.stmt body (s.declare name (.composed number))).2 with scope := s.scope }
    refine ⟨hrest.extended, hfirst.noted.trans hrest.noted, fun hfollows spot' hspot' => ?_⟩
    rcases mem_append.mp hspot' with hspot' | hspot'
    · obtain ⟨spot, hspot, harises⟩ := hfirst.arises (hfollows.loop name number) spot' hspot'
      exact ⟨spot, hspot, harises.mono hrest.noted.old⟩
    · exact hrest.arises (hfollows.wider _) spot' hspot'

mutual

theorem stmt_step (env : RenameEnv) (st : Stmt) (s : RenameState) :
    Step env st.binds st.spots (env.stmt st s).1.spots s (env.stmt st s).2 := by
  match st with
  | .block l body => exact ((Step.lead env l _).next (stmts_step env body _)).forget
  | .simple l what => exact (Step.lead env l s).next (.simple env what _)
  | .ret l value => exact (Step.lead env l s).next (.option env value _)
  | .ifThen l condition body | .whileLoop l condition body =>
    exact (Step.lead env l s).next ((Step.expr env condition false _).next (stmt_step env body _))
  | .ifElse l condition yes no =>
    have hbranches := fun u => (stmt_step env yes u).trans (stmt_step env no _)
    have hall := (Step.lead env l s).next ((Step.expr env condition false _).next (hbranches _))
    exact hall.told fun _ => Stmt.spots_ifElse (stmt_binds env yes _)
  | .forLoop l init condition step body =>
    have hround := fun u => (Step.option env condition u).next ((Step.option env step _).next (stmt_step env body _))
    have hall := (Step.lead env l s).next ((Step.start env init _).trans (hround _))
    exact hall.forget.told fun _ => Stmt.spots_forLoop (start_binds env init _)
  | .forEach l name collection body =>
    have hcopies := copies_step (stmt_step env body) name (env.loopTargets collection s) s
    refine ⟨hcopies.extended, hcopies.noted, fun hfollows spot' hspot' => ?_⟩
    rcases mem_append.mp hspot' with hspot' | hspot'
    · -- what stands before a loop is not renamed
      obtain ⟨spot, hspot, harises⟩ := lead_arises env l hfollows.covers spot' hspot'
      exact ⟨spot, mem_append_left _ hspot, harises⟩
    · obtain ⟨spot, hspot, harises⟩ := hcopies.arises hfollows spot' hspot'
      exact ⟨spot, mem_append_right _ (mem_cons_of_mem _ hspot), harises⟩
  | .breakLoop l | .continueLoop l | .discard l | .empty l => exact .lead env l s

theorem stmts_step (env : RenameEnv) (ss : List Stmt) (s : RenameState) :
    Step env (Stmt.bindsAll ss) (Stmt.spotsAll · ss) (Stmt.spotsAll · (env.stmts ss s).1) s (env.stmts ss s).2 := by
  match ss with
  | [] => exact .refl _ s
  | st :: ss =>
    exact ((stmt_step env st s).trans (stmts_step env ss _)).told fun _ => Stmt.spotsAll_cons (stmt_binds env st s)

end

theorem params_step (env : RenameEnv) (params : List Param) (s : RenameState) :
    Param.scope ((params.mapM env.param) s).1 = Param.scope params ∧
      Step env [] (fun _ => []) (fun _ => []) s ((params.mapM env.param) s).2 := by
  induction params generalizing s with
  | nil => exact ⟨rfl, .refl _ s⟩
  | cons p params ih =>
    rw [mapM_cons]
    have hparam := (Step.type env p.type s).next (.option env p.default _)
    obtain ⟨hscope, hrest⟩ := ih (env.param p s).2
    refine ⟨?_, hparam.extended.next hrest.extended, hparam.noted.trans hrest.noted, fun _ => forall_mem_nil _⟩
    have hcons : ∀ (q : Param) (qs : List Param), Param.scope (q :: qs) = Param.scope qs ++ [(q.name, .value)] := by
      intro q qs
      simp [Param.scope]
    rw [hcons, ← hscope]
    exact hcons _ _

theorem decl_arises (env : RenameEnv) (d : Decl) {s : RenameState}
    (h : Bounded s.scope (Param.scope (d.params?.getD []))) :
    ∀ spot' ∈ ((env.decl d).run s).1.spots, ∃ spot ∈ d.spots,
      Arises env ((env.decl d).run s).2.builtins spot spot' := by
  have hattrs := Step.lead env ⟨d.loc, d.attrs⟩ s
  change ∀ spot' ∈ (env.kind d.kind (env.attrs d.attrs s).2).1.spots, ∃ spot ∈ d.kind.spots,
    Arises env (env.kind d.kind (env.attrs d.attrs s).2).2.builtins spot spot'
  rw [Decl.params?] at h
  match d.kind, h with
  | .method returns params semantic (some body), h =>
    have hhead := hattrs.extended.next (Step.type env returns _).extended
    obtain ⟨hscope, hparams⟩ := params_step env params (env.type returns (env.attrs d.attrs s).2).2
    have hstart : Follows s.scope (Param.scope params) (Param.scope params) := ⟨h, fun n hn => by simp [hn]⟩
    intro spot' hspot'
    exact (stmts_step env body _).arises (hstart.extend (hhead.next hparams.extended)) spot'
      (DeclKind.spots_method hscope ▸ hspot')
  | .method returns params semantic none, _ => exact nofun
  | .var t semantic none, _ | .var t semantic (some init), _ | .struct fields, _ | .buffer kind members, _ => exact nofun

theorem bounded_startState (d : Decl) : Bounded (startState d).scope (Param.scope (d.params?.getD [])) := by
  have hscope : ∀ (params : List Param) (s : RenameState),
      (params.foldl (fun s p => s.declare p.name .plain) s).scope =
        (Param.scope params).map (Prod.map id fun _ => .plain) ++ s.scope := by
    intro params
    induction params with
    | nil => exact fun _ => rfl
    | cons p params ih =>
      intro s
      rw [foldl_cons, ih]
      simp [Param.scope, RenameState.declare]
  intro n hn
  rw [startState, hscope, append_nil] at hn
  have hlookup := lookup_map Function.injective_id (fun _ => Binding.plain) n (Param.scope (d.params?.getD []))
  rw [id_eq] at hlookup
  rwa [hlookup, Option.isSome_map] at hn

end

section

variable (env : RenameEnv) {s : RenameState}

theorem fields_note (fields : List StateField) (s : RenameState) : Noting env.builtins s.builtins
    ((fields.mapM fun f => (do return { f with value := ← env.expr f.value } : Rename StateField)) s).2.builtins := by
  induction fields generalizing s with
  | nil => exact .refl _ _
  | cons f fields ih =>
    rw [mapM_cons]
    exact (expr_turns env f.value s).noted.trans (ih _)

theorem kind_notes (k : DeclKind) : Noting env.builtins s.builtins (env.kind k s).2.builtins := by
  match k with
  | .var t semantic none => exact (Step.type env t s).noted
  | .var t semantic (some (.expr value)) => exact (Step.type env t s).noted.trans (expr_turns env value _).noted
  | .var t semantic (some (.state fields)) => exact (Step.type env t s).noted.trans (fields_note env fields _)
  | .method returns params semantic none =>
    exact (Step.type env returns s).noted.trans (params_step env params _).2.noted
  | .method returns params semantic (some body) =>
    have hhead := (Step.type env returns s).noted.trans (params_step env params _).2.noted
    exact hhead.trans (stmts_step env body _).noted
  | .struct fields => exact (params_step env fields s).2.noted
  | .buffer kind members => exact .refl _ _

theorem decl_notes (d : Decl) : Noting env.builtins s.builtins (env.decl d s).2.builtins :=
  (Step.lead env ⟨d.loc, d.attrs⟩ s).noted.trans (kind_notes env d.kind)

end

end ShaderCompose.Mix
