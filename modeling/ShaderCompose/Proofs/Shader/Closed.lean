import ShaderCompose.Proofs.Lang.Calls
import ShaderCompose.Proofs.Shader.Linking

/-!
Shaders that are closed under calls.
-/

namespace ShaderCompose

open List

namespace Shader

def CanCall (s : Shader) (name : String) : Prop :=
  (intrinsicArity? name).isSome = true ∨ isNumericType name = true ∨
    ∃ d ∈ s.decls, d.isCallable = true ∧ d.name = name

instance (s : Shader) (name : String) : Decidable (s.CanCall name) :=
  inferInstanceAs (Decidable (_ ∨ _ ∨ ∃ d ∈ s.decls, _ ∧ _))

def Closed (s : Shader) : Prop := ∀ d ∈ s.decls, ∀ n ∈ d.freeCalls, s.CanCall n

instance (s : Shader) : Decidable s.Closed := inferInstanceAs (Decidable (∀ d ∈ s.decls, ∀ n ∈ d.freeCalls, _))

end Shader

/-! ## Changes that keep a shader closed -/

/-- It can be called as before, and calls nothing else. -/
structure Decl.Keeps (d d' : Decl) : Prop where
  name : d'.name = d.name
  callable : d'.isCallable = d.isCallable
  calls : d'.freeCalls ⊆ d.freeCalls

namespace Decl.Keeps

theorem refl (d : Decl) : d.Keeps d := ⟨rfl, rfl, List.Subset.refl _⟩

theorem trans {a b c : Decl} (h : a.Keeps b) (h' : b.Keeps c) : a.Keeps c :=
  ⟨h'.name.trans h.name, h'.callable.trans h.callable, List.Subset.trans h'.calls h.calls⟩

end Decl.Keeps

namespace Shader.Carries

variable {s t : Shader}

theorem canCall {New : Decl → Prop} (h : s.Carries Decl.Keeps New t) {name : String} (hcall : s.CanCall name) :
    t.CanCall name := by
  rcases hcall with hintrinsic | hnumeric | ⟨d, hd, hcallable, rfl⟩
  · exact .inl hintrinsic
  · exact .inr (.inl hnumeric)
  · obtain ⟨d', hd', hkeeps⟩ := h.mem_decls hd hcallable
    exact .inr (.inr ⟨d', hd', hkeeps.callable.trans hcallable, hkeeps.name⟩)

theorem closed (h : s.Carries Decl.Keeps (fun d => d.freeCalls = []) t) (hclosed : s.Closed) : t.Closed := by
  intro d' hd' n hn
  obtain ⟨id, hid, hd'⟩ := Shader.mem_decls.mp hd'
  rcases h.cases_table hd' with ⟨d, hd, hkeeps⟩ | ⟨-, hquiet⟩
  · have hid' : id ∈ s.declarations := (h.new id hid).resolve_right (by simp [hd])
    exact h.canCall (hclosed d (Shader.mem_decls.mpr ⟨id, hid', hd⟩) n (hkeeps.calls hn))
  · rw [hquiet] at hn
    cases hn

end Shader.Carries

/-! ## Entry points over their structures -/

def Spot.freeAmong (spots : List Spot) : List String := spots.flatMap Spot.freeCalls

def Scope.Covers (source target : Scope) : Prop :=
  ∀ n, (source.lookup n).isSome = true → (target.lookup n).isSome = true

namespace Scope.Covers

variable {source target : Scope}

theorem both (h : Covers source target) (binds : Scope) : Covers (binds ++ source) (binds ++ target) := by
  intro n hn
  rw [lookup_append] at hn ⊢
  cases hbound : binds.lookup n with
  | none =>
    rw [hbound] at hn
    exact h n hn
  | some b => rfl

theorem more (scope binds : Scope) : Covers scope (binds ++ scope) := by
  intro n hn
  rw [lookup_append]
  cases binds.lookup n with
  | none => exact hn
  | some b => rfl

end Scope.Covers

namespace Spot

open Scope

variable {source target : Scope} {spots spots' more more' : List Spot}

theorem freeAmong_append (spots more : List Spot) :
    freeAmong (spots ++ more) = freeAmong spots ++ freeAmong more := flatMap_append

theorem freeAmong_both (h : freeAmong spots' ⊆ freeAmong spots) (hmore : freeAmong more' ⊆ freeAmong more) :
    freeAmong (spots' ++ more') ⊆ freeAmong (spots ++ more) := by
  rw [freeAmong_append, freeAmong_append]
  exact append_subset.mpr ⟨subset_append_of_subset_left _ h, subset_append_of_subset_right _ hmore⟩

theorem freeAmong_cons {a b : Spot} (h : freeAmong [a] ⊆ freeAmong [b])
    (hmore : freeAmong more' ⊆ freeAmong more) : freeAmong (a :: more') ⊆ freeAmong (b :: more) :=
  freeAmong_both h hmore

theorem freeAmong_expr (h : Covers source target) (aside : Bool) (e : Expr) :
    freeAmong [⟨target, aside, e⟩] ⊆ freeAmong [⟨source, aside, e⟩] := by
  intro n hn
  simp only [freeAmong, flatMap_cons, flatMap_nil, append_nil, freeCalls, mem_filter,
    Option.isNone_iff_eq_none] at hn ⊢
  refine ⟨hn.1, Option.not_isSome_iff_eq_none.mp fun hbound => ?_⟩
  have hcovered := h n hbound
  rw [hn.2] at hcovered
  cases hcovered

theorem freeAmong_map (h : Covers source target) (aside : Bool) (es : List Expr) :
    freeAmong (es.map fun e => ⟨target, aside, e⟩) ⊆ freeAmong (es.map fun e => ⟨source, aside, e⟩) := by
  induction es with
  | nil => exact List.Subset.refl _
  | cons e es ih => exact freeAmong_both (freeAmong_expr h aside e) ih

theorem freeAmong_lead (h : Covers source target) (l : Lead) :
    freeAmong (l.spots target) ⊆ freeAmong (l.spots source) := by
  unfold Lead.spots
  induction l.attrs with
  | nil => exact List.Subset.refl _
  | cons a as ih => exact freeAmong_both (freeAmong_map h true a.args) ih

theorem freeAmong_option (h : Covers source target) (e : Option Expr) :
    freeAmong (ofOption target e) ⊆ freeAmong (ofOption source e) := freeAmong_map h false e.toList

theorem freeAmong_type (h : Covers source target) (t : TypeRef) :
    freeAmong (t.spots target) ⊆ freeAmong (t.spots source) := by
  unfold TypeRef.spots
  split
  · exact freeAmong_expr h true _
  · exact List.Subset.refl _

theorem freeAmong_simple (h : Covers source target) (what : Simple) :
    freeAmong (what.spots target) ⊆ freeAmong (what.spots source) := by
  cases what with
  | declare quals t name init => exact freeAmong_both (freeAmong_type h t) (freeAmong_option h init)
  | expr value => exact freeAmong_expr h false value

theorem freeAmong_start (h : Covers source target) (init : Option (Span × Simple)) :
    freeAmong (Simple.spotsIn target init) ⊆ freeAmong (Simple.spotsIn source init) := by
  cases init with
  | none => exact List.Subset.refl _
  | some init => exact freeAmong_simple h init.2

end Spot

namespace Stream

open Scope Spot

def Quiet (exit : List Stmt) : Prop := ∀ scope, freeAmong (Stmt.spotsAll scope exit) = []

theorem binds_closeReturns (exit : List Stmt) (st : Stmt) : (closeReturns exit st).binds = st.binds := by
  induction st using closeReturns.induct (motive_2 := fun _ => True) with
  | case1 => rfl
  | _ => simp_all [closeReturns, Stmt.binds]

mutual

theorem freeAmong_closeReturns {exit : List Stmt} (hexit : Quiet exit) (st : Stmt) {source target : Scope}
    (h : Covers source target) :
    freeAmong ((closeReturns exit st).spots target) ⊆ freeAmong (st.spots source) := by
  match st with
  | .ret l none =>
    rw [closeReturns, Stmt.spots, freeAmong_append, hexit target, append_nil]
    exact List.Subset.trans (freeAmong_lead h l) (by simp [Stmt.spots, freeAmong_append])
  | .ret l (some value) => exact freeAmong_both (freeAmong_lead h l) (freeAmong_expr h false value)
  | .block l body => exact freeAmong_both (freeAmong_lead h l) (freeAmong_closeAll hexit body h)
  | .ifThen l condition body | .whileLoop l condition body =>
    refine freeAmong_both (freeAmong_lead h l) (freeAmong_cons (freeAmong_expr h false condition) ?_)
    exact freeAmong_closeReturns hexit body h
  | .ifElse l condition yes no =>
    rw [closeReturns, Stmt.spots_ifElse (binds_closeReturns exit yes)]
    refine freeAmong_both (freeAmong_lead h l) (freeAmong_cons (freeAmong_expr h false condition) ?_)
    exact freeAmong_both (freeAmong_closeReturns hexit yes h) (freeAmong_closeReturns hexit no (h.both yes.binds))
  | .forLoop l init condition step body =>
    have hstart := h.both (Simple.bindsIn init)
    refine freeAmong_both (freeAmong_lead h l) (freeAmong_both (freeAmong_start h init) ?_)
    refine freeAmong_both (freeAmong_option hstart condition) (freeAmong_both (freeAmong_option hstart step) ?_)
    exact freeAmong_closeReturns hexit body hstart
  | .forEach l name collection body =>
    refine freeAmong_both (freeAmong_lead h l) (freeAmong_cons (freeAmong_expr h false collection) ?_)
    exact freeAmong_closeReturns hexit body (h.both [(name, .loop)])
  | .simple l what => exact freeAmong_both (freeAmong_lead h l) (freeAmong_simple h what)
  | .breakLoop l | .continueLoop l | .discard l | .empty l => exact freeAmong_lead h l

theorem freeAmong_closeAll {exit : List Stmt} (hexit : Quiet exit) (sts : List Stmt) {source target : Scope}
    (h : Covers source target) :
    freeAmong (Stmt.spotsAll target (closeAll exit sts)) ⊆ freeAmong (Stmt.spotsAll source sts) := by
  match sts with
  | [] => exact List.Subset.refl _
  | st :: sts =>
    rw [closeAll, Stmt.spotsAll_cons (binds_closeReturns exit st)]
    exact freeAmong_both (freeAmong_closeReturns hexit st h) (freeAmong_closeAll hexit sts (h.both st.binds))

end

mutual

theorem spots_closeReturns_nil (st : Stmt) (scope : Scope) : (closeReturns [] st).spots scope = st.spots scope := by
  match st with
  | .block l body => rw [closeReturns, Stmt.spots, Stmt.spots, spotsAll_closeAll_nil body]
  | .ifThen _ _ body | .forLoop _ _ _ _ body | .forEach _ _ _ body | .whileLoop _ _ body =>
    rw [closeReturns, Stmt.spots, Stmt.spots, spots_closeReturns_nil body]
  | .ifElse l condition yes no =>
    rw [closeReturns, Stmt.spots, Stmt.spots, binds_closeReturns, spots_closeReturns_nil yes,
      spots_closeReturns_nil no]
  | .ret l none | .ret l (some value) | .simple l what => rfl
  | .breakLoop l | .continueLoop l | .discard l | .empty l => rfl

theorem spotsAll_closeAll_nil (sts : List Stmt) (scope : Scope) :
    Stmt.spotsAll scope (closeAll [] sts) = Stmt.spotsAll scope sts := by
  match sts with
  | [] => rfl
  | st :: sts =>
    rw [closeAll, Stmt.spotsAll, Stmt.spotsAll, binds_closeReturns, spots_closeReturns_nil st,
      spotsAll_closeAll_nil sts]

end

theorem spotsAll_append (sts more : List Stmt) (scope : Scope) : Stmt.spotsAll scope (sts ++ more) =
      Stmt.spotsAll scope sts ++ Stmt.spotsAll (Stmt.bindsAll sts ++ scope) more := by
  induction sts generalizing scope with
  | nil => rfl
  | cons st sts ih =>
    rw [cons_append, Stmt.spotsAll, ih, Stmt.spotsAll, Stmt.bindsAll, append_assoc, append_assoc]

namespace Quiet

theorem of_forall {sts : List Stmt} (h : ∀ st ∈ sts, ∀ scope, freeAmong (st.spots scope) = []) : Quiet sts := by
  intro scope
  induction sts generalizing scope with
  | nil => rfl
  | cons st sts ih =>
    rw [Stmt.spotsAll, freeAmong_append, h st mem_cons_self, ih fun st hst => h st (mem_cons_of_mem _ hst)]
    rfl

theorem loadInput (vars : List StreamVar) (s : StreamStruct) : Quiet (loadInput vars s) := by
  refine of_forall fun st hst scope => ?_
  obtain ⟨v, -, rfl⟩ := mem_map.mp hst
  rfl

theorem storeOutput (vars : List StreamVar) (s : StreamStruct) : Quiet (storeOutput vars s) := by
  refine of_forall fun st hst scope => ?_
  rcases mem_append.mp hst with hst | hst
  · obtain ⟨v, -, rfl⟩ := mem_map.mp hst
    rfl
  · rw [mem_singleton.mp hst]
    rfl

theorem prepend {load : List Stmt} (hload : Quiet load) {rest : List Stmt} {source target : Scope}
    (h : Covers source target) {calls : List String}
    (hrest : ∀ {target}, Covers source target → freeAmong (Stmt.spotsAll target rest) ⊆ calls) :
    freeAmong (Stmt.spotsAll target (load ++ rest)) ⊆ calls := by
  rw [spotsAll_append, freeAmong_append, hload]
  exact hrest fun n hn => Covers.more target _ n (h n hn)

end Quiet

theorem freeAmong_dropLastReturn (body : List Stmt) (scope : Scope) :
    freeAmong (Stmt.spotsAll scope (dropLastReturn body)) ⊆ freeAmong (Stmt.spotsAll scope body) := by
  unfold dropLastReturn
  split
  · next hlast =>
    have hne : body ≠ [] := by
      rintro rfl
      cases hlast
    conv_rhs => rw [← dropLast_append_getLast hne, spotsAll_append, freeAmong_append]
    exact subset_append_left _ _
  · exact List.Subset.refl _

theorem freeAmong_planBody (vars : List StreamVar) (plan : EntryPlan) (body : List Stmt) {source target : Scope}
    (h : Covers source target) :
    freeAmong (Stmt.spotsAll target (planBody vars plan body)) ⊆ freeAmong (Stmt.spotsAll source body) := by
  have hload : Quiet ((plan.input.map (loadInput vars)).getD []) := by
    cases plan.input with
    | none => exact fun _ => rfl
    | some input => exact .loadInput vars input
  unfold planBody
  cases plan.output with
  | none =>
    refine hload.prepend h fun {target} h => ?_
    rw [← spotsAll_closeAll_nil body target]
    exact freeAmong_closeAll (fun _ => rfl) body h
  | some output =>
    refine hload.prepend h fun {target} h => ?_
    have hdeclare : Quiet [.simple Stmt.generatedLead (.declare {} { name := output.name } outputName none)] :=
      fun _ => rfl
    refine hdeclare.prepend h fun {target} h => ?_
    change freeAmong (Stmt.spotsAll target (_ ++ _)) ⊆ _
    rw [spotsAll_append, freeAmong_append, Quiet.storeOutput vars output, append_nil]
    exact List.Subset.trans (freeAmong_closeAll (.storeOutput vars output) _ h) (freeAmong_dropLastReturn body source)

theorem planMethod_keeps (vars : List StreamVar) (plan : EntryPlan) (d : Decl) :
    d.Keeps (planMethod vars plan d) := by
  unfold planMethod
  split
  · next returns params semantic body hkind =>
    refine ⟨rfl, by simp [Decl.isCallable, Decl.body?, hkind], ?_⟩
    rw [Decl.freeCalls, Decl.freeCalls, Decl.spots, Decl.spots, hkind]
    refine freeAmong_planBody vars plan body ?_
    unfold Param.scope
    rw [map_append, reverse_append]
    exact .more _ _
  · exact .refl d

theorem freeCalls_planStructs {vars : List StreamVar} {plan : EntryPlan} {d : Decl}
    (h : d ∈ planStructs vars plan) : d.freeCalls = [] := by
  rcases mem_append.mp h with h | h
  · split at h
    · cases h
    · obtain ⟨s, -, rfl⟩ := mem_map.mp h
      rfl
  · obtain ⟨s, -, rfl⟩ := mem_map.mp h
    rfl

theorem retire_keeps (d : Decl) : d.Keeps (retire d) := by
  unfold retire
  cases hkind : d.kind with
  | var type semantic init =>
    exact ⟨rfl, by simp [Decl.isCallable, Decl.isStruct, Decl.body?, hkind],
      by simp [Decl.freeCalls, Decl.spots, DeclKind.spots]⟩
  | _ => exact ⟨rfl, by simp [Decl.isCallable, Decl.isStruct, Decl.body?, hkind], by
      simp [Decl.freeCalls, Decl.spots, hkind]⟩

theorem keeps_linking : Linking Decl.Keeps fun d => d.freeCalls = [] where
  refl := .refl
  trans := .trans
  callable h := h.callable
  kept hquiet h := subset_nil.mp (hquiet ▸ h.calls)
  plan := planMethod_keeps
  retire := retire_keeps
  clean _ := ⟨rfl, rfl, List.Subset.refl _⟩
  made _ _ _ := freeCalls_planStructs

end Stream

theorem Engine.finish_closed {options : Options} {mixed shader : Shader} {outcome : Outcome}
    (hstart : outcome.shader = none) (h : (finish options mixed outcome).shader = some shader)
    (hclosed : mixed.Closed) : shader.Closed := (finish_carries Stream.keeps_linking hstart h).closed hclosed

end ShaderCompose
